import Chloride.Runtime.OperatorCode

/-!
# The code of operands

What the code of operators of several operands does, and of the choice between two values. Their jumps go forwards, to
places that are set when the code between is there.
-/

namespace Chloride

/-! ## Dialogues of operands -/

/-- One of two values is computed. -/
def conditionalDialogue (condition trueBody falseBody : Dialogue Question Value Value Value) :
    Dialogue Question Value Value Value := do
  let v ← condition
  let t ← truth v
  if t = .bool false then falseBody else trueBody

/-- The operands behind the first one, from the left; `a` is the value so far. -/
def foldDialogue (o : BinaryOp) : Value → List (Dialogue Question Value Value Value) → Dialogue Question Value Value Value
  | a, [] => pure a
  | a, operand :: operands => do
    let b ← operand
    let v ← .question (.binary o a b)
    foldDialogue o v operands

/-- The operands from one on, `v` is the value of the one before. The first one whose truth value decides is the result,
and the last one if none does; it is asked for its truth value too. -/
def shortCircuitDialogue (isOr : Bool) :
    Value → List (Dialogue Question Value Value Value) → Dialogue Question Value Value Value
  | v, [] => pure v
  | _, operand :: operands => do
    let v ← operand
    let t ← truth v
    if decide (t = .bool false) ≠ isOr then pure v else shortCircuitDialogue isOr v operands

/-- An operator with its operands. -/
def operationDialogue (operation : OperationToken) (first : Dialogue Question Value Value Value)
    (rest : List (Dialogue Question Value Value Value)) : Dialogue Question Value Value Value :=
  match operation.opcode with
  | none => shortCircuitDialogue (operation = .or) .null (first :: rest)
  | some o => do
    let a ← first
    foldDialogue o a rest

section

variable {m : Translate ℕ} {d : Dialogue Question Value Value Value}

/-! ## A choice -/

/-- The code of a choice behind that of its condition: a jump over the first value, and one over the second. -/
theorem Converses.choice {c : FramePlace} {keep : ℕ} {s : Evaluation} {f : Frame} {v : Value}
    {dt df : Dialogue Question Value Value Value} {codet codef : List UInt8} {falseStart stop : UInt64} (hat : s.At c f)
    (hcode : f.CodeAt ((Instr.op .bool).encode ++ ((Instr.jumpIfFalse 0 falseStart).encode ++ (codet ++
      ((Instr.jump stop).encode ++ codef)))))
    (hv : f.read 0 = some v)
    (hfalse : falseStart.toNat = f.ip + (Instr.op .bool).encode.length + (Instr.jumpIfFalse 0 falseStart).encode.length +
      codet.length + (Instr.jump stop).encode.length)
    (hstop : stop.toNat = falseStart.toNat + codef.length)
    (ht : ∀ t g, t.At c g → f.Since keep g → g.CodeAt codet →
      g.ip = f.ip + (Instr.op .bool).encode.length + (Instr.jumpIfFalse 0 falseStart).encode.length →
        Converses c keep (g.ip + codet.length) dt t g)
    (hf : ∀ t g, t.At c g → f.Since keep g → g.CodeAt codef → g.ip = falseStart.toNat →
      Converses c keep stop.toNat df t g) :
    Converses c keep stop.toNat (truth v >>= fun t => if t = .bool false then df else dt) s f := by
  have hpos := List.length_pos_of_ne_nil (Instr.encode_ne_nil (.jumpIfFalse 0 falseStart))
  have hpos' := List.length_pos_of_ne_nil (Instr.encode_ne_nil (.jump stop))
  refine .bool hat hcode (by omega) (Frame.pos_of_read hv) hv fun u g v' hat hwrites hv' => ?_
  have hip := hwrites.ip
  have hcode' := hwrites.codeAt hcode rfl
  have hsince : f.Since keep g := hwrites.since (by simp)
  refine .jumpIfFalse hat hcode' (by omega) (by omega) hv' fun u g' hat hg' => ?_
  split at hg'
  case isTrue hv'' =>
    -- the second value
    subst hg'
    have hcodef : Frame.CodeAt { g with ip := falseStart.toNat } codef := by
      rw [← List.append_assoc, ← List.append_assoc] at hcode'
      refine hcode'.right rfl ?_
      dsimp only
      simp only [List.length_append]
      omega
    rw [if_pos hv'']
    exact hf u _ hat (hsince.trans ⟨rfl, rfl, fun _ _ _ => rfl⟩) hcodef rfl
  case isFalse hv'' =>
    -- the first value, and the jump behind it
    have hip' := hg'.ip
    have hcodet := hg'.codeAt hcode' rfl
    rw [if_neg hv'', ← Dialogue.bind_pure dt]
    refine (ht u g' hat (hsince.trans (hg'.since (by simp))) hcodet.left (by omega)).bind le_rfl (by omega)
      fun v u k hat hsince' hip'' hv => ?_
    refine .jump hat (hsince'.codeAt hcodet hip'') (by omega) (by omega) fun u hat => ?_
    exact .done hat rfl hv

/-- The two places of a choice are set. -/
theorem setBytes_choice (before codet codef : List UInt8) (falseStart stop : UInt64) :
    setBytes (setBytes (before ++ ((Instr.jumpIfFalse 0 0).encode ++ (codet ++ ((Instr.jump 0).encode ++ codef))))
      (before.length + 2) falseStart) (before.length + ((Instr.jumpIfFalse 0 0).encode.length + codet.length) + 1) stop =
        before ++ ((Instr.jumpIfFalse 0 falseStart).encode ++ (codet ++ ((Instr.jump stop).encode ++ codef))) := by
  have hsplit : before ++ ((Instr.jumpIfFalse 0 falseStart).encode ++ (codet ++ ((Instr.jump 0).encode ++ codef))) =
      (before ++ ((Instr.jumpIfFalse 0 falseStart).encode ++ codet)) ++ ((Instr.jump 0).encode ++ codef) := by
    simp only [List.append_assoc]
  have hlength : before.length + ((Instr.jumpIfFalse 0 0).encode.length + codet.length) =
      (before ++ ((Instr.jumpIfFalse 0 falseStart).encode ++ codet)).length := by
    simp only [List.length_append]
    rfl
  rw [setBytes_jumpIfFalse, hsplit, hlength, setBytes_jump]
  simp only [List.append_assoc]

theorem translateConditional_compiles {condition trueBody falseBody : Translate ℕ}
    {dc dt df : Dialogue Question Value Value Value} (hc : Compiles condition dc) (ht : Compiles trueBody dt)
    (hf : Compiles falseBody df) :
    Compiles (translateConditional condition trueBody falseBody) (conditionalDialogue dc dt df) := by
  intro t n t' h herr
  unfold translateConditional at h
  obtain ⟨first, t₁, hcondition, h⟩ := Translate.bind_some.mp h
  obtain ⟨_, t₂, hbool, h⟩ := Translate.bind_some.mp h
  obtain ⟨jumpIndex, t₃, hjumpIfFalse, h⟩ := Translate.bind_some.mp h
  obtain ⟨_, t₄, htrue, h⟩ := Translate.bind_some.mp h
  obtain ⟨skipIndex, t₅, hjump, h⟩ := Translate.bind_some.mp h
  obtain ⟨falseStart, t₆, hfalse, h⟩ := Translate.bind_some.mp h
  obtain ⟨_, t₇, hset, h⟩ := Translate.bind_some.mp h
  obtain ⟨size, _, hsize, h⟩ := Translate.bind_some.mp h
  obtain ⟨rfl, rfl⟩ := Translate.pure_some.mp hsize
  obtain ⟨_, t₈, hset', h⟩ := Translate.bind_some.mp h
  obtain ⟨rfl, rfl⟩ := Translate.pure_some.mp h
  -- the parts
  obtain ⟨rfl, honwards₁, hassigned₁, codec, hcode₁, hrunsc⟩ := hc _ _ _ hcondition herr
  obtain ⟨-, honwards₂, hassigned₂, hcode₂⟩ := push_spec hbool
  obtain ⟨rfl, honwards₃, hassigned₃, hcode₃⟩ := push_spec hjumpIfFalse
  have honwards₁₃ := honwards₁.trans (honwards₂.trans honwards₃)
  obtain ⟨-, honwards₄, hassigned₄, codet, hcode₄, hrunst⟩ := ht _ _ _ htrue (honwards₁₃.err.trans herr)
  obtain ⟨rfl, honwards₅, hassigned₅, hcode₅⟩ := push_spec hjump
  have honwards₁₅ := honwards₁₃.trans (honwards₄.trans honwards₅)
  obtain ⟨rfl, honwards₆, hassigned₆, codef, hcode₆, hrunsf⟩ := hf _ _ _ hfalse (honwards₁₅.err.trans herr)
  have honwards₁₆ := honwards₁₅.trans honwards₆
  -- the code with the places that are set
  have hpatched := setInstructionCode_spec hset
  have hpatched' := setInstructionCode_spec hset'
  have hcode₆' : t₆.bytecode = t₂.bytecode ++ ((Instr.jumpIfFalse 0 0).encode ++
      (codet ++ ((Instr.jump 0).encode ++ codef))) := by
    rw [hcode₆, hcode₅, hcode₄, hcode₃]
    simp only [List.append_assoc]
  have hlength₄ : t₄.bytecode.length = t₂.bytecode.length + ((Instr.jumpIfFalse 0 0).encode.length + codet.length) := by
    rw [hcode₄, hcode₃]
    simp only [List.length_append, Nat.add_assoc]
  have hcode₈ : t₈.bytecode = t.bytecode ++ (codec ++ ((Instr.op .bool).encode ++
      ((Instr.jumpIfFalse 0 (u64 t₅.bytecode.length)).encode ++ (codet ++
        ((Instr.jump (u64 t₇.bytecode.length)).encode ++ codef))))) := by
    rw [hpatched', hpatched]
    dsimp only
    rw [hcode₆', hlength₄, setBytes_choice, hcode₂, hcode₁]
    simp only [List.append_assoc]
  have honwards₆₈ : Onwards t₆ t₈ := ((Onwards.refl t₆).patch _ hpatched).patch _ hpatched'
  have hassigned₈ : t₈.registerAssignment = t₆.registerAssignment := by rw [hpatched', hpatched]
  have hlength₆ : t₇.bytecode.length = t₆.bytecode.length := by
    rw [hpatched]
    dsimp only
    rw [hcode₆', setBytes_jumpIfFalse]
    simp only [List.length_append]
    rfl
  have hlength₈ : t₈.bytecode.length = t₆.bytecode.length := by
    rw [hcode₈, hcode₆', hcode₂, hcode₁]
    simp only [List.length_append, Nat.add_assoc]
    rfl
  refine ⟨rfl, honwards₁₆.trans honwards₆₈, fun hwrapped => ?_, _, hcode₈, fun hbounded hready => ?_⟩
  · have hwrapped₆ := honwards₆₈.wrapped hwrapped
    have hle₆ := hassigned₆ hwrapped₆
    have hle₄ := hassigned₄ ((honwards₅.trans honwards₆).wrapped hwrapped₆)
    have hle₁ := hassigned₁ ((honwards₂.trans (honwards₃.trans (honwards₄.trans (honwards₅.trans honwards₆)))).wrapped
      hwrapped₆)
    rw [hassigned₅] at hle₆
    rw [hassigned₃, hassigned₂] at hle₄
    rw [hassigned₈]
    omega
  intro c s f hat hfits hcodeAt hip
  have hbounded₆ := hbounded.mono honwards₆₈ hlength₈.ge
  have hl₁ := congrArg List.length hcode₁
  have hl₂ := congrArg List.length hcode₂
  have hl₃ := congrArg List.length hcode₃
  have hl₄ := congrArg List.length hcode₄
  have hl₅ := congrArg List.length hcode₅
  have hl₆ := congrArg List.length hcode₆
  rw [List.length_append] at hl₁ hl₂ hl₃ hl₄ hl₅ hl₆
  have hbounded₄ := hbounded₆.mono (honwards₅.trans honwards₆) (by omega)
  have hbounded₁ := hbounded₄.mono (honwards₂.trans (honwards₃.trans honwards₄)) (by omega)
  have hle₁ : t.registerAssignment.toNat ≤ t₃.registerAssignment.toNat := by
    rw [hassigned₃, hassigned₂]
    exact hassigned₁ hbounded₁.registers
  have hle₄ := hassigned₄ hbounded₄.registers
  have hle₅ : t.registerAssignment.toNat ≤ t₅.registerAssignment.toNat := by
    rw [hassigned₅]
    omega
  have hfits₆ := hfits.mono honwards₆₈
  have hfits₄ := hfits₆.mono (honwards₅.trans honwards₆)
  have hfits₁ := hfits₄.mono (honwards₂.trans (honwards₃.trans honwards₄))
  refine (hrunsc hbounded₁ hready c s f hat hfits₁ hcodeAt.left hip).bind le_rfl (by omega)
    fun v u g hat hsince hip' hv => ?_
  have hstop : (u64 t₇.bytecode.length).toNat = t₈.bytecode.length := by
    rw [hlength₆, ← hlength₈]
    exact UInt64.toNat_ofNat_of_lt' hbounded.bytecode
  have hfalse : (u64 t₅.bytecode.length).toNat = t₅.bytecode.length :=
    UInt64.toNat_ofNat_of_lt' (show _ < 2^64 by have := hbounded₆.bytecode; omega)
  have hsame : ∀ x : UInt64, (Instr.jumpIfFalse 0 x).encode.length = (Instr.jumpIfFalse 0 0).encode.length := fun _ => rfl
  have hsame' : ∀ x : UInt64, (Instr.jump x).encode.length = (Instr.jump 0).encode.length := fun _ => rfl
  rw [← hstop]
  refine .choice hat (hsince.codeAt hcodeAt (by omega)) hv ?_ ?_ ?_ ?_
  · rw [hfalse, hsame, hsame']
    omega
  · rw [hfalse, hstop]
    omega
  · intro u k hat hsince' hcodet hip''
    rw [hsame] at hip''
    have hruns := hrunst hbounded₄ (hready.mono honwards₁₃ hle₁) c u k hat ((hfits₄.since hsince).since hsince') hcodet (by omega)
    rw [show k.ip + codet.length = t₄.bytecode.length by omega]
    exact hruns.keeps hle₁
  · intro u k hat hsince' hcodef hip''
    rw [hfalse] at hip''
    have hruns := hrunsf hbounded₆ (hready.mono honwards₁₅ hle₅) c u k hat ((hfits₆.since hsince).since hsince') hcodef hip''
    rw [hstop, hlength₈]
    exact hruns.keeps hle₅

/-! ## Operators between operands -/

/-- The loop of `translate_operation` over the operands behind the first. -/
def translateRest (loc : SourceLocation) (operation : OperationToken) (registerA registerB : UInt8) (total i : ℕ)
    (operand : Translate ℕ) : Translate Bool := do
  let _ ← operand
  if ← isError then return false
  let _ ← push (.copyToRegister 0 registerB)
  let _ ← pushSourceLocation loc
  match operation.opcode with
  | none =>
    raise loc "unknown operation"
    return false
  | some opcode =>
    let _ ← push (.binary opcode registerA registerB (if total = i then 0 else registerA))
    return true

/-- The code of an operator behind that of its second operand. -/
theorem Converses.operate {c : FramePlace} {keep stop : ℕ} {s : Evaluation} {f : Frame} {o : BinaryOp}
    {registerA registerB registerC : UInt8} {a b : Value} {loc : SourceLocation} {code : List UInt8}
    {k : Value → Dialogue Question Value Value Value} (hat : s.At c f)
    (hcode : f.CodeAt ((Instr.copyToRegister 0 registerB).encode ++
      ((Instr.sourceLocation loc.line loc.column loc.length).encode ++
        ((Instr.binary o registerA registerB registerC).encode ++ code))))
    (hstop : f.ip + (Instr.copyToRegister 0 registerB).encode.length +
      (Instr.sourceLocation loc.line loc.column loc.length).encode.length +
        (Instr.binary o registerA registerB registerC).encode.length ≤ stop)
    (hA : 0 < registerA.toNat) (hAB : registerA.toNat < registerB.toNat) (hB : registerB.toNat < f.registers.length)
    (hkeep : keep ≤ registerA.toNat) (hC : registerC = 0 ∨ registerC = registerA) (ha : f.read registerA = some a)
    (hb : f.read 0 = some b)
    (hnext : ∀ t g v, t.At c g → f.Since keep g → g.CodeAt code →
      g.ip = f.ip + (Instr.copyToRegister 0 registerB).encode.length +
        (Instr.sourceLocation loc.line loc.column loc.length).encode.length +
          (Instr.binary o registerA registerB registerC).encode.length →
      g.read registerC = some v → Converses c keep stop (k v) t g) :
    Converses c keep stop (.question (.binary o a b) >>= k) s f := by
  have hne := register_not_mem (Nat.ne_of_lt hAB)
  refine .copyToRegister hat hcode (by omega) (Or.inr (by omega)) hB hb fun u g hat hwrites hb' => ?_
  have hip := hwrites.ip
  have hcode' := hwrites.codeAt hcode rfl
  have hsince : f.Since keep g := hwrites.since (by simpa using Or.inr (by omega))
  refine .sourceLocation hat hcode' (by omega) fun u g' hat hwrites' => ?_
  have hip' := hwrites'.ip
  have hcode'' := hwrites'.codeAt hcode' rfl
  have hsince' : f.Since keep g' := hsince.trans (hwrites'.since (by simp))
  have ha' : g'.read registerA = some a := by
    rw [hwrites'.kept _ (by simp), hwrites.kept _ hne, ha]
  have hb'' : g'.read registerB = some b := by rw [hwrites'.kept _ (by simp), hb']
  have hlength : g'.registers.length = f.registers.length := hwrites'.length.trans hwrites.length
  have hfree : registerC = 0 ∨ keep ≤ registerC.toNat := by
    rcases hC with rfl | rfl
    · exact Or.inl rfl
    · exact Or.inr hkeep
  have hrC : registerC.toNat < g'.registers.length := by
    rcases hC with rfl | rfl
    · rw [hlength]
      exact lt_of_le_of_lt (Nat.zero_le _) hB
    · omega
  refine .binary hat hcode'' (by omega) hfree hrC ha' hb'' fun u k v hat hwrites'' hv => ?_
  exact hnext u k v hat (hsince'.trans (hwrites''.since (by simpa using hfree))) (hwrites''.codeAt hcode'' rfl)
    (by rw [hwrites''.ip]; omega) hv

/-- Two registers are given back, and the value stays. -/
theorem Converses.release {c : FramePlace} {keep stop : ℕ} {s : Evaluation} {f : Frame} {registerA registerB : UInt8}
    {v : Value} (hat : s.At c f)
    (hcode : f.CodeAt ((Instr.loadNull registerA).encode ++ (Instr.loadNull registerB).encode))
    (hip : f.ip + (Instr.loadNull registerA).encode.length + (Instr.loadNull registerB).encode.length = stop)
    (hkeep : keep ≤ registerA.toNat) (hA : 0 < registerA.toNat) (hAB : registerA.toNat < registerB.toNat)
    (hB : registerB.toNat < f.registers.length) (hv : f.read 0 = some v) : Converses c keep stop (pure v) s f := by
  have hzeroA : (0 : UInt8) ∉ [registerA] := register_not_mem (Nat.ne_of_lt hA)
  have hzeroB : (0 : UInt8) ∉ [registerB] := register_not_mem (Nat.ne_of_lt (hA.trans hAB))
  refine .loadNull hat hcode (by omega) (Or.inr hkeep) (by omega) fun u g hat hwrites _ => ?_
  have hip' := hwrites.ip
  refine .loadNull hat (hwrites.codeAt hcode rfl).last (by omega) (Or.inr (by omega))
    (by rw [hwrites.length]; exact hB) fun u g' hat hwrites' _ => ?_
  exact .done hat (by rw [hwrites'.ip]; omega) (by rw [hwrites'.kept 0 hzeroB, hwrites.kept 0 hzeroA, hv])

theorem translateRest_spec {loc : SourceLocation} {operation : OperationToken} {opcode : BinaryOp}
    (hopcode : operation.opcode = some opcode) {registerA registerB : UInt8} {total : ℕ} {ms : List (Translate ℕ)}
    {ds : List (Dialogue Question Value Value Value)} (hms : List.Forall₂ Compiles ms ds) {i : ℕ} {t t' : Translated}
    {done : Bool} (h : forEach (translateRest loc operation registerA registerB total) i ms t = some (done, t'))
    (herr : t.err = none) (htotal : total + 1 = i + ms.length) :
    done = true ∧ Onwards t t' ∧
      (t'.registersWrapped = false → t.registerAssignment.toNat ≤ t'.registerAssignment.toNat) ∧
      ∃ code, t'.bytecode = t.bytecode ++ code ∧ (t'.Bounded → t.Ready → ∀ c keep s f a, keep ≤ registerA.toNat →
        0 < registerA.toNat → registerA.toNat < registerB.toNat → registerB.toNat < t.registerAssignment.toNat →
        registerB.toNat < f.registers.length → s.At c f → f.Fits t' → f.CodeAt code → f.ip = t.bytecode.length →
        f.read (if ms = [] then 0 else registerA) = some a →
          Converses c keep t'.bytecode.length (foldDialogue opcode a ds) s f) := by
  induction hms generalizing i t with
  | nil =>
    obtain ⟨rfl, rfl⟩ := Translate.pure_some.mp h
    refine ⟨rfl, .refl t, fun _ => le_rfl, [], (List.append_nil _).symm, ?_⟩
    intro _ _ c keep s f a _ _ _ _ _ hat _ _ hip ha
    exact .done hat hip ha
  | @cons m d ms ds hm hms ih =>
    unfold forEach at h
    obtain ⟨goesOn, t₄, hbody, h⟩ := Translate.bind_some.mp h
    unfold translateRest at hbody
    obtain ⟨_, t₁, hoperand, hbody⟩ := Translate.bind_some.mp hbody
    obtain ⟨rfl, honwards₁, hassigned₁, codem, hcode₁, hruns⟩ := hm _ _ _ hoperand herr
    have hbody := isError_goesOn hbody (honwards₁.err.trans herr)
    rw [if_neg (by decide)] at hbody
    obtain ⟨_, t₂, hcopy, hbody⟩ := Translate.bind_some.mp hbody
    obtain ⟨_, t₃, hlocation, hbody⟩ := Translate.bind_some.mp hbody
    rw [hopcode] at hbody
    obtain ⟨_, t₄', hbinary, hbody⟩ := Translate.bind_some.mp hbody
    obtain ⟨rfl, rfl⟩ := Translate.pure_some.mp hbody
    obtain ⟨-, honwards₂, hassigned₂, hcode₂⟩ := push_spec hcopy
    obtain ⟨-, honwards₃, hassigned₃, hcode₃⟩ := push_spec hlocation
    obtain ⟨-, honwards₄, hassigned₄, hcode₄⟩ := push_spec hbinary
    have honwards₁₄ := honwards₂.trans (honwards₃.trans honwards₄)
    have honwards := honwards₁.trans honwards₁₄
    rw [List.length_cons] at htotal
    obtain ⟨rfl, honwards', hassigned', code, hcode, hrest⟩ := ih h (honwards.err.trans herr) (by omega)
    have hassigned : t'.registersWrapped = false → t.registerAssignment.toNat ≤ t₄'.registerAssignment.toNat := by
      intro hwrapped
      rw [hassigned₄, hassigned₃, hassigned₂]
      exact hassigned₁ ((honwards₁₄.trans honwards').wrapped hwrapped)
    rw [hcode₄, hcode₃, hcode₂, hcode₁] at hcode
    simp only [List.append_assoc] at hcode
    refine ⟨rfl, honwards.trans honwards', fun hwrapped => (hassigned hwrapped).trans (hassigned' hwrapped), _, hcode, ?_⟩
    intro hbounded hready c keep s f a hkeep hA hAB hBt hB hat hfits hcodeAt hip ha
    have hl₁ := congrArg List.length hcode₁
    have hl₂ := congrArg List.length hcode₂
    have hl₃ := congrArg List.length hcode₃
    have hl₄ := congrArg List.length hcode₄
    have hl := congrArg List.length hcode
    simp only [List.length_append] at hl₁ hl₂ hl₃ hl₄ hl
    have hbounded₁ := hbounded.mono (honwards₁₄.trans honwards') (by omega)
    have hready₄ := hready.mono honwards (hassigned hbounded.registers)
    have hassigned₄ := hassigned hbounded.registers
    rw [if_neg (by simp)] at ha
    -- the operand, which leaves the value so far in its register
    refine (hruns hbounded₁ hready c s f hat (hfits.mono (honwards₁₄.trans honwards')) hcodeAt.left hip).bind
      (by omega) (by omega) fun b u g hat hsince hip' hb => ?_
    have ha' : g.read registerA = some a := (hsince.kept registerA hA (by omega)).trans ha
    refine .operate hat (hsince.codeAt hcodeAt (by omega)) (by omega) hA hAB (hsince.length.symm ▸ hB) hkeep
      (by split <;> simp) ha' hb fun u k v hat hsince' hcodeAt' hip'' hv => ?_
    have hlast : total = i ↔ ms = [] := by
      rw [← List.length_eq_zero_iff]
      omega
    simp only [hlast] at hv
    exact hrest hbounded hready₄ c keep u k v hkeep hA hAB (by omega)
      (by rw [hsince'.length, hsince.length]; exact hB) hat ((hfits.since hsince).since hsince') hcodeAt' (by omega) hv

theorem translateBinary_compiles {loc : SourceLocation} {operation : OperationToken} {opcode : BinaryOp}
    (hopcode : operation.opcode = some opcode) (hm : Compiles m d) {ms : List (Translate ℕ)}
    {ds : List (Dialogue Question Value Value Value)} (hms : List.Forall₂ Compiles ms ds) :
    Compiles (translateBinary loc operation m ms) (d >>= fun a => foldDialogue opcode a ds) := by
  intro t n t' h herr
  unfold translateBinary at h
  obtain ⟨registerA, t₁, hA, h⟩ := Translate.bind_some.mp h
  obtain ⟨registerB, t₂, hB, h⟩ := Translate.bind_some.mp h
  obtain ⟨_, t₃, hset, h⟩ := Translate.bind_some.mp h
  obtain ⟨first, t₄, hoperand, h⟩ := Translate.bind_some.mp h
  obtain ⟨rfl, honwards₁, hcode₁, hassigned₁⟩ := newRegister_spec hA
  obtain ⟨rfl, honwards₂, hcode₂, hassigned₂⟩ := newRegister_spec hB
  obtain ⟨honwards₃, hassigned₃, hcode₃, hcount₃⟩ := setAssignedRegisters_spec hset
  have honwards₀₃ := honwards₁.trans (honwards₂.trans honwards₃)
  obtain ⟨rfl, honwards₄, hassigned₄, codem, hcode₄, hruns⟩ := hm _ _ _ hoperand (honwards₀₃.err.trans herr)
  have honwards₀₄ := honwards₀₃.trans honwards₄
  have h := isError_goesOn h (honwards₀₄.err.trans herr)
  rw [if_neg (by decide)] at h
  obtain ⟨_, t₅, hcopy, h⟩ := Translate.bind_some.mp h
  obtain ⟨-, honwards₅, hassigned₅, hcode₅⟩ := push_spec hcopy
  have honwards₀₅ := honwards₀₄.trans honwards₅
  obtain ⟨done, t₆, hloop, h⟩ := Translate.bind_some.mp h
  have hloop' : forEach (translateRest loc operation t.registerAssignment t₁.registerAssignment ms.length) 1 ms t₅ =
      some (done, t₆) := hloop
  obtain ⟨rfl, honwards₆, hassigned₆, codes, hcode₆, hrest⟩ :=
    translateRest_spec hopcode hms hloop' (honwards₀₅.err.trans herr) (Nat.add_comm _ _)
  rw [if_neg (by decide)] at h
  obtain ⟨_, t₇, hnullA, h⟩ := Translate.bind_some.mp h
  obtain ⟨_, t₈, hnullB, h⟩ := Translate.bind_some.mp h
  obtain ⟨_, t₉, hfree, h⟩ := Translate.bind_some.mp h
  obtain ⟨rfl, rfl⟩ := Translate.pure_some.mp h
  obtain ⟨-, honwards₇, hassigned₇, hcode₇⟩ := push_spec hnullA
  obtain ⟨-, honwards₈, hassigned₈, hcode₈⟩ := push_spec hnullB
  obtain ⟨honwards₉, hcode₉, hassigned₉⟩ := freeRegisters_spec hfree
  have honwards₆₉ := honwards₇.trans (honwards₈.trans honwards₉)
  have hcode : t₉.bytecode = t.bytecode ++ (codem ++ ((Instr.copyToRegister 0 t.registerAssignment).encode ++
      (codes ++ ((Instr.loadNull t.registerAssignment).encode ++ (Instr.loadNull t₁.registerAssignment).encode)))) := by
    rw [hcode₉, hcode₈, hcode₇, hcode₆, hcode₅, hcode₄, hcode₃, hcode₂, hcode₁]
    simp only [List.append_assoc]
  -- the registers that are taken, and given back
  have hregisters : t₉.registersWrapped = false → t₁.registerAssignment.toNat = t.registerAssignment.toNat + 1 ∧
      t₃.registerAssignment.toNat = t.registerAssignment.toNat + 2 ∧
      t₃.registerAssignment.toNat ≤ t₅.registerAssignment.toNat ∧
      t.registerAssignment.toNat ≤ t₉.registerAssignment.toNat := by
    intro hwrapped
    have hwrapped₆ := honwards₆₉.wrapped hwrapped
    have hwrapped₄ := (honwards₅.trans honwards₆).wrapped hwrapped₆
    have hwrapped₂ := (honwards₃.trans honwards₄).wrapped hwrapped₄
    have h₁ := hassigned₁ (honwards₂.wrapped hwrapped₂)
    have h₂ := hassigned₂ hwrapped₂
    have h₄ := hassigned₄ hwrapped₄
    have h₆ := hassigned₆ hwrapped₆
    have h₉ := hassigned₉ hwrapped
    rw [hassigned₈, hassigned₇] at h₉
    rw [← hassigned₅] at h₄
    rw [hassigned₃] at h₄ ⊢
    have htwo : (2 : UInt8).toNat = 2 := rfl
    omega
  refine ⟨by rw [hcode₃, hcode₂, hcode₁], honwards₀₅.trans (honwards₆.trans honwards₆₉), fun hwrapped =>
    (hregisters hwrapped).2.2.2, _, hcode, fun hbounded hready => ?_⟩
  intro c s f hat hfits hcodeAt hip
  obtain ⟨hB', ht₃, ht₅, -⟩ := hregisters hbounded.registers
  have hl₃ : t₃.bytecode.length = t.bytecode.length := by rw [hcode₃, hcode₂, hcode₁]
  have hl₄ := congrArg List.length hcode₄
  have hl₅ := congrArg List.length hcode₅
  have hl₆ := congrArg List.length hcode₆
  have hl := congrArg List.length hcode
  simp only [List.length_append] at hl₄ hl₅ hl₆ hl
  have hbounded₆ := hbounded.mono honwards₆₉ (by omega)
  have hbounded₄ := hbounded₆.mono (honwards₅.trans honwards₆) (by omega)
  have hfits₆ := hfits.mono honwards₆₉
  have hfits₄ := hfits₆.mono (honwards₅.trans honwards₆)
  have hregistersB : t₁.registerAssignment.toNat < f.registers.length := by
    have hcount := honwards₄.count.trans hfits₄.registers
    rw [← hassigned₃] at hcount₃
    omega
  have hzero : (0 : UInt8) ∉ [t.registerAssignment] := register_not_mem (Nat.ne_of_lt hready.register)
  have hready₃ := hready.mono honwards₀₃ (by omega)
  have hready₅ := hready.mono honwards₀₅ (by omega)
  -- the first operand goes to register A
  refine (hruns hbounded₄ hready₃ c s f hat hfits₄ hcodeAt.left (by omega)).bind (by omega) (by omega)
    fun a u g hat hsince hip₁ ha => ?_
  have hcodeAt₁ := hsince.codeAt hcodeAt (by omega)
  refine .copyToRegister hat hcodeAt₁ (by omega) (Or.inr le_rfl) (by rw [hsince.length]; omega) ha
    fun u k hat hwrites ha' => ?_
  have hip₂ := hwrites.ip
  have hcodeAt₂ := hwrites.codeAt hcodeAt₁ rfl
  have hvalue : k.read (if ms = [] then 0 else t.registerAssignment) = some a := by
    split
    · rw [hwrites.kept 0 hzero, ha]
    · exact ha'
  -- the others are folded, and the registers are given back
  rw [← Dialogue.bind_pure (foldDialogue opcode a ds)]
  refine (hrest hbounded₆ hready₅ c _ u k a le_rfl hready.register (by omega) (by omega)
    (by rw [hwrites.length, hsince.length]; exact hregistersB) hat ((hfits₆.since hsince).writes hwrites)
    hcodeAt₂.left (by omega) hvalue).bind le_rfl (by omega) fun v u g' hat hsince' hip₃ hv => ?_
  have hlength : g'.registers.length = f.registers.length :=
    hsince'.length.trans (hwrites.length.trans hsince.length)
  have hcodeAt₃ := hsince'.codeAt hcodeAt₂ (by omega)
  exact .release hat hcodeAt₃ (by omega) le_rfl hready.register (by omega) (hlength ▸ hregistersB) hv

/-! ## Operators that may not need all their operands -/

/-- The code that decides with the truth value of an operand, whose value is kept in a register. -/
def testCode (isOr : Bool) (registerA : UInt8) (target : UInt64) : List UInt8 :=
  (Instr.copyToRegister 0 registerA).encode ++ ((Instr.op .bool).encode ++
    ((if isOr then (Instr.op .not).encode else []) ++ (Instr.jumpIfFalse 0 target).encode))

theorem length_testCode (isOr : Bool) (registerA : UInt8) (target target' : UInt64) :
    (testCode isOr registerA target).length = (testCode isOr registerA target').length := by
  cases isOr <;> rfl

theorem Converses.test {c : FramePlace} {keep stop : ℕ} {s : Evaluation} {f : Frame} {isOr : Bool}
    {registerA : UInt8} {v : Value} {target : UInt64} {code : List UInt8} {dj dn : Dialogue Question Value Value Value}
    (hat : s.At c f) (hcode : f.CodeAt (testCode isOr registerA target ++ code))
    (htarget : f.ip + (testCode isOr registerA target).length ≤ target.toNat) (hstop : target.toNat ≤ stop)
    (hkeep : keep ≤ registerA.toNat) (hA : 0 < registerA.toNat) (hlength : registerA.toNat < f.registers.length)
    (hv : f.read 0 = some v)
    (hjump : ∀ u g, u.At c g → f.Since keep g → g.read registerA = some v → g.ip = target.toNat →
      Converses c keep stop dj u g)
    (hnext : ∀ u g, u.At c g → f.Since keep g → g.read registerA = some v → g.CodeAt code →
      g.ip = f.ip + (testCode isOr registerA target).length → Converses c keep stop dn u g) :
    Converses c keep stop (truth v >>= fun t => if decide (t = .bool false) ≠ isOr then dj else dn) s f := by
  have hne : registerA ∉ [(0 : UInt8)] := register_not_mem (Nat.ne_of_gt hA)
  have hne' : (0 : UInt8) ∉ [registerA] := register_not_mem (Nat.ne_of_lt hA)
  have hpos := List.length_pos_of_ne_nil (Instr.encode_ne_nil (.jumpIfFalse 0 target))
  unfold testCode at hcode htarget hnext
  simp only [List.append_assoc] at hcode
  simp only [List.length_append] at htarget hnext
  refine .copyToRegister hat hcode (by omega) (Or.inr hkeep) hlength hv fun u g hat hwrites hvA => ?_
  have hip := hwrites.ip
  have hcode₁ := hwrites.codeAt hcode rfl
  have hsince : f.Since keep g := hwrites.since (by simpa using Or.inr hkeep)
  have hv₁ : g.read 0 = some v := by rw [hwrites.kept 0 hne', hv]
  refine .bool hat hcode₁ (by omega) (Frame.pos_of_read hv₁) hv₁ fun u g₁ t hat hwrites₁ ht => ?_
  have hip₁ := hwrites₁.ip
  have hcode₂ := hwrites₁.codeAt hcode₁ rfl
  have hsince₁ : f.Since keep g₁ := hsince.trans (hwrites₁.since (by simp))
  have hvA₁ : g₁.read registerA = some v := by rw [hwrites₁.kept _ hne, hvA]
  -- the jump behind the test
  have hdecided : ∀ {u g₂ w}, u.At c g₂ → f.Since keep g₂ → g₂.read registerA = some v → g₂.read 0 = some w →
      (w = .bool false ↔ decide (t = .bool false) ≠ isOr) →
      g₂.CodeAt ((Instr.jumpIfFalse 0 target).encode ++ code) →
      g₂.ip + (Instr.jumpIfFalse 0 target).encode.length = f.ip + ((Instr.copyToRegister 0 registerA).encode.length +
        ((Instr.op .bool).encode.length + ((if isOr then (Instr.op .not).encode else []).length +
          (Instr.jumpIfFalse 0 target).encode.length))) →
      Converses c keep stop (if decide (t = .bool false) ≠ isOr then dj else dn) u g₂ := by
    intro u g₂ w hat hsince₂ hvA₂ hw hiff hcode₃ hip₂
    refine .jumpIfFalse hat hcode₃ (by omega) (by omega) hw fun u g₃ hat hg₃ => ?_
    split at hg₃
    case isTrue hfalse =>
      subst hg₃
      rw [if_pos (hiff.mp hfalse)]
      exact hjump u _ hat (hsince₂.trans ⟨rfl, rfl, fun _ _ _ => rfl⟩) hvA₂ rfl
    case isFalse hfalse =>
      rw [if_neg fun h => hfalse (hiff.mpr h)]
      exact hnext u g₃ hat (hsince₂.trans (hg₃.since (by simp))) (by rw [hg₃.kept _ (by simp), hvA₂])
        (hg₃.codeAt hcode₃ rfl) (by rw [hg₃.ip, hip₂])
  cases isOr with
  | false =>
    refine hdecided hat hsince₁ hvA₁ ht (by simp) hcode₂ ?_
    simp only [Bool.false_eq_true, if_false, List.length_nil]
    omega
  | true =>
    refine .not hat hcode₂ ?_ (Frame.pos_of_read ht) ht fun u g₂ hat hwrites₂ hw => ?_
    · simp only [if_true] at htarget
      omega
    · have hip₂ := hwrites₂.ip
      refine hdecided hat (hsince₁.trans (hwrites₂.since (by simp))) (by rw [hwrites₂.kept _ hne, hvA₁]) hw (by simp)
        (hwrites₂.codeAt hcode₂ rfl) ?_
      simp only [if_true]
      omega

theorem push_testCode {isOr : Bool} {registerA : UInt8} {t t' : Translated} {β : Type} {k : ℕ → Translate β} {b : β}
    (h : (do
      let _ ← push (.copyToRegister 0 registerA)
      let _ ← push (.op .bool)
      if isOr then let _ ← push (.op .not)
      let n ← push (.jumpIfFalse 0 0)
      k n : Translate β) t = some (b, t')) :
    ∃ u before, Onwards t u ∧ u.registerAssignment = t.registerAssignment ∧
      u.bytecode = t.bytecode ++ testCode isOr registerA 0 ∧
      (∀ target, testCode isOr registerA target = before ++ (Instr.jumpIfFalse 0 target).encode) ∧
      k (t.bytecode.length + before.length) u = some (b, t') := by
  obtain ⟨_, t₁, hcopy, h⟩ := Translate.bind_some.mp h
  obtain ⟨_, t₂, hbool, h⟩ := Translate.bind_some.mp h
  obtain ⟨-, honwards₁, hassigned₁, hcode₁⟩ := push_spec hcopy
  obtain ⟨-, honwards₂, hassigned₂, hcode₂⟩ := push_spec hbool
  have honwards := honwards₁.trans honwards₂
  cases isOr with
  | false =>
    obtain ⟨_, t₃, hjump, h⟩ := Translate.bind_some.mp h
    obtain ⟨rfl, honwards₃, hassigned₃, hcode₃⟩ := push_spec hjump
    rw [hcode₂, hcode₁] at hcode₃ h
    refine ⟨t₃, (Instr.copyToRegister 0 registerA).encode ++ (Instr.op .bool).encode, honwards.trans honwards₃,
      by rw [hassigned₃, hassigned₂, hassigned₁], ?_, fun target => ?_, ?_⟩
    · rw [hcode₃, testCode]
      simp only [List.append_assoc, Bool.false_eq_true, if_false, List.nil_append]
    · rw [testCode]
      simp only [List.append_assoc, Bool.false_eq_true, if_false, List.nil_append]
    · simp only [List.length_append, Nat.add_assoc] at h ⊢
      exact h
  | true =>
    obtain ⟨_, t₃, hnot, h⟩ := Translate.bind_some.mp h
    obtain ⟨_, t₄, hjump, h⟩ := Translate.bind_some.mp h
    obtain ⟨-, honwards₃, hassigned₃, hcode₃⟩ := push_spec hnot
    obtain ⟨rfl, honwards₄, hassigned₄, hcode₄⟩ := push_spec hjump
    rw [hcode₃, hcode₂, hcode₁] at hcode₄ h
    refine ⟨t₄, (Instr.copyToRegister 0 registerA).encode ++ ((Instr.op .bool).encode ++ (Instr.op .not).encode),
      honwards.trans (honwards₃.trans honwards₄), by rw [hassigned₄, hassigned₃, hassigned₂, hassigned₁], ?_,
      fun target => ?_, ?_⟩
    · rw [hcode₄, testCode]
      simp only [List.append_assoc, if_true]
    · rw [testCode]
      simp only [List.append_assoc, if_true]
    · simp only [List.length_append, Nat.add_assoc] at h ⊢
      exact h

/-- The operands of `&&` or `||`, with their jumps open. -/
structure Operands (isOr : Bool) (registerA : UInt8) (ds : List (Dialogue Question Value Value Value)) (i first : ℕ)
    (t : Translated) (first' : ℕ) (jumps : Option (List ℕ)) (t' : Translated) (js : List ℕ)
    (codeFor : UInt64 → List UInt8) : Prop where
  jumps : jumps = some js
  first : first' = if i = 0 ∧ ds ≠ [] then t.bytecode.length else first
  onwards : Onwards t t'
  assigned : t'.registersWrapped = false → t.registerAssignment.toNat ≤ t'.registerAssignment.toNat
  appended : t'.bytecode = t.bytecode ++ codeFor 0
  length : ∀ target, (codeFor target).length = (codeFor 0).length
  patch : ∀ target u u' before after, u.bytecode = before ++ (codeFor 0 ++ after) → before.length = t.bytecode.length →
    setInstructionCodes target js u = some ((), u') → u' = { u with bytecode := before ++ (codeFor (u64 target) ++ after) }
  runs : t'.Bounded → t.Ready → ∀ c keep stop s f v k (target : UInt64), keep ≤ registerA.toNat → 0 < registerA.toNat →
    registerA.toNat < t.registerAssignment.toNat → registerA.toNat < f.registers.length →
    target.toNat = t'.bytecode.length → t'.bytecode.length ≤ stop → s.At c f → f.Fits t' → f.CodeAt (codeFor target) →
    f.ip = t.bytecode.length → (ds = [] → f.read registerA = some v) →
    (∀ u g w, u.At c g → f.Since keep g → g.ip = t'.bytecode.length → g.read registerA = some w →
      Converses c keep stop (k w) u g) → Converses c keep stop (shortCircuitDialogue isOr v ds >>= k) s f

theorem translateShortCircuitOperands_spec {isOr : Bool} {registerA : UInt8} {ms : List (Translate ℕ)}
    {ds : List (Dialogue Question Value Value Value)} (hms : List.Forall₂ Compiles ms ds) {i first first' : ℕ}
    {jumps : Option (List ℕ)} {t t' : Translated}
    (h : translateShortCircuitOperands isOr registerA i first ms t = some ((first', jumps), t'))
    (herr : t.err = none) : ∃ js code, Operands isOr registerA ds i first t first' jumps t' js code := by
  induction hms generalizing i first first' jumps t with
  | nil =>
    obtain ⟨heq, rfl⟩ := Translate.pure_some.mp h
    cases heq
    refine ⟨[], fun _ => [], rfl, by simp, .refl t, fun _ => le_rfl, (List.append_nil _).symm, fun _ => rfl, ?_, ?_⟩
    · intro target u u' before after hu _ hset
      obtain ⟨-, rfl⟩ := Translate.pure_some.mp hset
      rw [List.nil_append] at hu ⊢
      rw [← hu]
    · intro _ _ c keep stop s f v k target _ _ _ _ _ _ hat _ _ hip hv hend
      exact hend s f v hat (.refl keep f) hip (hv rfl)
  | @cons m d ms ds hm hms ih =>
    unfold translateShortCircuitOperands at h
    obtain ⟨position, t₁, hoperand, h⟩ := Translate.bind_some.mp h
    obtain ⟨rfl, honwards₁, hassigned₁, codem, hcode₁, hruns⟩ := hm _ _ _ hoperand herr
    have h := isError_goesOn h (honwards₁.err.trans herr)
    rw [if_neg (by decide)] at h
    obtain ⟨t₂, open_, honwards₂, hassigned₂, hcode₂, htest, h⟩ := push_testCode h
    obtain ⟨⟨first₃, jumps₃⟩, t₃, hrest, h⟩ := Translate.bind_some.mp h
    obtain ⟨heq, rfl⟩ := Translate.pure_some.mp h
    cases heq
    obtain ⟨js, code, hoperands⟩ := ih hrest ((honwards₁.trans honwards₂).err.trans herr)
    have honwards := honwards₁.trans honwards₂
    have hassigned : t₃.registersWrapped = false → t.registerAssignment.toNat ≤ t₂.registerAssignment.toNat := by
      intro hwrapped
      rw [hassigned₂]
      exact hassigned₁ ((honwards₂.trans hoperands.onwards).wrapped hwrapped)
    have hcode : t₃.bytecode = t.bytecode ++ (codem ++ (testCode isOr registerA 0 ++ code 0)) := by
      rw [hoperands.appended, hcode₂, hcode₁]
      simp only [List.append_assoc]
    have hl₁ := congrArg List.length hcode₁
    have hl₂ := congrArg List.length hcode₂
    have hl := congrArg List.length hcode
    simp only [List.length_append] at hl₁ hl₂ hl
    refine ⟨(t₁.bytecode.length + open_.length + 2) :: js,
      fun target => codem ++ (testCode isOr registerA target ++ code target), ?_⟩
    refine ⟨by rw [hoperands.jumps]; rfl, ?_, honwards.trans hoperands.onwards, fun hwrapped =>
      (hassigned hwrapped).trans (hoperands.assigned hwrapped), hcode, fun target => ?_, ?_, ?_⟩
    · rw [hoperands.first]
      by_cases hi : i = 0
      · simp [hi]
      · simp [hi]
    · simp only [List.length_append, hoperands.length target, length_testCode isOr registerA target 0]
    · -- the first jump is set, and then the others
      intro target u u' before after hu hbefore hset
      unfold setInstructionCodes at hset
      obtain ⟨_, u₁, hset₁, hset⟩ := Translate.bind_some.mp hset
      have hu₁ := setInstructionCode_spec hset₁
      have hindex : t₁.bytecode.length + open_.length = (before ++ (codem ++ open_)).length := by
        simp only [List.length_append]
        omega
      have hsplit : u.bytecode = (before ++ (codem ++ open_)) ++
          ((Instr.jumpIfFalse 0 0).encode ++ (code 0 ++ after)) := by
        rw [hu, htest]
        simp only [List.append_assoc]
      have hcode₁ : u₁.bytecode = (before ++ (codem ++ testCode isOr registerA (u64 target))) ++ (code 0 ++ after) := by
        rw [hu₁]
        dsimp only
        rw [hsplit, hindex, setBytes_jumpIfFalse, htest]
        simp only [List.append_assoc]
      have hlength : (before ++ (codem ++ testCode isOr registerA (u64 target))).length = t₂.bytecode.length := by
        rw [List.length_append, List.length_append, length_testCode isOr registerA (u64 target) 0]
        omega
      have hu' := hoperands.patch target u₁ u' _ after hcode₁ hlength hset
      rw [hu', hu₁]
      simp only [List.append_assoc]
    · intro hbounded hready c keep stop s f v k target hkeep hA hAt hAlength htarget hstop hat hfits hcodeAt hip _ hend
      have hle := hassigned hbounded.registers
      have hltest := length_testCode isOr registerA target 0
      have hlcode := hoperands.length target
      have hbounded₁ := hbounded.mono (honwards₂.trans hoperands.onwards) (by omega)
      -- the operand, which leaves the register as it is
      rw [shortCircuitDialogue, Dialogue.bind_assoc]
      refine (hruns hbounded₁ hready c s f hat (hfits.mono (honwards₂.trans hoperands.onwards)) hcodeAt.left hip).bind
        (by omega) (by omega) fun w u g hat hsince hip₁ hw => ?_
      rw [Dialogue.bind_assoc]
      have hcodeAt₁ := hsince.codeAt hcodeAt (by omega)
      have hsince₀ : f.Since keep g := hsince.mono (by omega)
      have hif : ∀ x : Value, ((if decide (x = .bool false) ≠ isOr then pure w
          else shortCircuitDialogue isOr w ds) >>= k : Dialogue Question Value Value Value) =
            if decide (x = .bool false) ≠ isOr then k w else shortCircuitDialogue isOr w ds >>= k := by
        intro x
        split
        · rfl
        · rfl
      simp only [hif]
      refine .test hat hcodeAt₁ (by omega) (by omega) hkeep hA (hsince.length.symm ▸ hAlength) hw ?_ ?_
      · intro u g' hat hsince' hw' hip'
        exact hend u g' w hat (hsince₀.trans hsince') (hip'.trans htarget) hw'
      · intro u g' hat hsince' hw' hcodeAt' hip'
        have hfits' := (hfits.since hsince₀).since hsince'
        refine hoperands.runs hbounded (hready.mono honwards hle) c keep stop u g' w k target hkeep hA (by omega)
          (by rw [hsince'.length, hsince.length]; exact hAlength) htarget hstop hat hfits' hcodeAt' (by omega)
          (fun _ => hw') fun u g'' w' hat hsince'' hip'' hw'' => ?_
        exact hend u g'' w' hat ((hsince₀.trans hsince').trans hsince'') hip'' hw''

theorem translateShortCircuit_compiles {isOr : Bool} {ms : List (Translate ℕ)}
    {ds : List (Dialogue Question Value Value Value)} (hms : List.Forall₂ Compiles ms ds) (hne : ms ≠ []) :
    Compiles (translateShortCircuit isOr ms) (shortCircuitDialogue isOr .null ds) := by
  intro t n t' h herr
  unfold translateShortCircuit at h
  obtain ⟨registerA, t₁, hA, h⟩ := Translate.bind_some.mp h
  obtain ⟨_, t₂, hset, h⟩ := Translate.bind_some.mp h
  obtain ⟨⟨first, jumps⟩, t₃, hloop, h⟩ := Translate.bind_some.mp h
  obtain ⟨rfl, honwards₁, hcode₁, hassigned₁⟩ := newRegister_spec hA
  obtain ⟨honwards₂, hassigned₂, hcode₂, hcount₂⟩ := setAssignedRegisters_spec hset
  have honwards₀₂ := honwards₁.trans honwards₂
  obtain ⟨js, codeFor, hoperands⟩ := translateShortCircuitOperands_spec hms hloop (honwards₀₂.err.trans herr)
  have hds : ds ≠ [] := by
    rintro rfl
    cases hms
    exact hne rfl
  rw [hoperands.jumps] at h
  obtain ⟨size, _, hsize, h⟩ := Translate.bind_some.mp h
  obtain ⟨rfl, rfl⟩ := Translate.pure_some.mp hsize
  obtain ⟨_, t₄, hjumps, h⟩ := Translate.bind_some.mp h
  obtain ⟨_, t₅, hcopy, h⟩ := Translate.bind_some.mp h
  obtain ⟨_, t₆, hnull, h⟩ := Translate.bind_some.mp h
  obtain ⟨rfl, rfl⟩ := Translate.pure_some.mp h
  have happended : t₃.bytecode = t₂.bytecode ++ (codeFor 0 ++ []) := by rw [hoperands.appended, List.append_nil]
  have hpatched := hoperands.patch _ _ _ _ _ happended rfl hjumps
  obtain ⟨-, honwards₅, hassigned₅, hcode₅⟩ := push_spec hcopy
  obtain ⟨-, honwards₆, hassigned₆, hcode₆⟩ := push_spec hnull
  have honwards₃₄ := (Onwards.refl t₃).patch _ hpatched
  have honwards₃₆ := honwards₃₄.trans (honwards₅.trans honwards₆)
  have hcode : t₆.bytecode = t.bytecode ++ (codeFor (u64 t₃.bytecode.length) ++
      ((Instr.copyToRegister t.registerAssignment 0).encode ++ (Instr.loadNull t.registerAssignment).encode)) := by
    rw [hcode₆, hcode₅, hpatched, hcode₂, hcode₁]
    simp only [List.append_assoc, List.nil_append]
  have hassigned₄ : t₆.registerAssignment = t₃.registerAssignment := by rw [hassigned₆, hassigned₅, hpatched]
  have hregisters : t₆.registersWrapped = false → t₂.registerAssignment.toNat = t.registerAssignment.toNat + 1 ∧
      t₂.registerAssignment.toNat ≤ t₆.registerAssignment.toNat := by
    intro hwrapped
    have hwrapped₃ := honwards₃₆.wrapped hwrapped
    have h₁ := hassigned₁ ((honwards₂.trans hoperands.onwards).wrapped hwrapped₃)
    rw [hassigned₂, hassigned₄]
    rw [← hassigned₂] at h₁ ⊢
    exact ⟨h₁, hoperands.assigned hwrapped₃⟩
  refine ⟨?_, honwards₀₂.trans (hoperands.onwards.trans honwards₃₆), fun hwrapped => ?_, _, hcode, ?_⟩
  · rw [hoperands.first, if_pos ⟨rfl, hds⟩, hcode₂, hcode₁]
  · have h := hregisters hwrapped
    omega
  intro hbounded hready c s f hat hfits hcodeAt hip
  obtain ⟨ht₂, -⟩ := hregisters hbounded.registers
  have hl₂ : t₂.bytecode.length = t.bytecode.length := by rw [hcode₂, hcode₁]
  have hl₃ := congrArg List.length hoperands.appended
  have hl := congrArg List.length hcode
  have hlcode := hoperands.length (u64 t₃.bytecode.length)
  simp only [List.length_append] at hl₃ hl
  have hbounded₃ := hbounded.mono honwards₃₆ (by omega)
  have hfits₃ := hfits.mono honwards₃₆
  have htarget : (u64 t₃.bytecode.length).toNat = t₃.bytecode.length :=
    UInt64.toNat_ofNat_of_lt' hbounded₃.bytecode
  have hlength : t.registerAssignment.toNat < f.registers.length := by
    have hcount := hoperands.onwards.count.trans hfits₃.registers
    rw [← hassigned₂] at hcount₂
    omega
  rw [← Dialogue.bind_pure (shortCircuitDialogue isOr .null ds)]
  refine hoperands.runs hbounded₃ (hready.mono honwards₀₂ (by omega)) c _ _ s f .null pure _ le_rfl hready.register
    (by omega) hlength htarget (by omega) hat hfits₃ hcodeAt.left (by omega) (fun h => absurd h hds) ?_
  intro u g v hat hsince hip' hv
  -- the value is put where it belongs, and the register is emptied
  have hcodeAt' := hsince.codeAt hcodeAt (by omega)
  have hpos : (0 : UInt8).toNat < g.registers.length := by
    rw [hsince.length]
    exact Nat.lt_of_le_of_lt (Nat.zero_le _) hlength
  refine .copyToRegister hat hcodeAt' (by omega) (Or.inl rfl) hpos hv fun u g' hat hwrites hv' => ?_
  have hip'' := hwrites.ip
  refine .loadNull hat (hwrites.codeAt hcodeAt' rfl).last (by omega) (Or.inr le_rfl)
    (by rw [hwrites.length, hsince.length]; exact hlength) fun u g'' hat hwrites' _ => ?_
  have hzero : (0 : UInt8) ∉ [t.registerAssignment] := register_not_mem (Nat.ne_of_lt hready.register)
  exact .done hat (by rw [hwrites'.ip]; omega) (by rw [hwrites'.kept 0 hzero, hv'])

theorem translateOperation_compiles (loc : SourceLocation) (operation : OperationToken) (hm : Compiles m d)
    {ms : List (Translate ℕ)} {ds : List (Dialogue Question Value Value Value)} (hms : List.Forall₂ Compiles ms ds) :
    Compiles (translateOperation loc operation m ms) (operationDialogue operation d ds) := by
  unfold operationDialogue
  cases hopcode : operation.opcode with
  | none =>
    have hshort : translateOperation loc operation m ms = translateShortCircuit (operation = .or) (m :: ms) := by
      cases operation <;> first | rfl | cases hopcode
    rw [hshort]
    exact translateShortCircuit_compiles (.cons hm hms) (List.cons_ne_nil _ _)
  | some opcode =>
    have hbinary : translateOperation loc operation m ms = translateBinary loc operation m ms := by
      cases operation <;> first | rfl | cases hopcode
    rw [hbinary]
    exact translateBinary_compiles hopcode hm hms

end

end Chloride
