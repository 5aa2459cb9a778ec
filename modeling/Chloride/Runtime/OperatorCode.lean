import Chloride.Runtime.OperatorSteps
import Chloride.Translator.ArenaMemory
import Chloride.Translator.ImportCode

/-!
# The code of operators

What the code that the translator appends for an operator does: the frame that runs it holds a dialogue, which is put
together from those of the operands. `Compiles` says this of an action of the translator, and there is one rule for each
function: here for literals, names, operators of one operand and assignments.
-/

namespace Chloride

/-! ## Dialogues of operators -/

/-- What `-` does. -/
def negationDialogue (value : Dialogue Question Value Value Value) : Dialogue Question Value Value Value := do
  let v ← value
  .question (.negation v)

/-- What `!!` and `!` do. -/
def toBoolDialogue (invert : Bool) (value : Dialogue Question Value Value Value) :
    Dialogue Question Value Value Value := do
  let v ← value
  let t ← truth v
  if invert then pure (.bool (t = .bool false)) else pure t

/-- A name gets a value, or what an operator makes of the one it has and the value. -/
def assignDialogue (hash : UInt64) (opcode : Option BinaryOp) (value : Dialogue Question Value Value Value) :
    Dialogue Question Value Value Value := do
  let v ← value
  match opcode with
  | none => .question (.store hash v)
  | some o =>
    let old ← .question (.lookup hash)
    let w ← .question (.binary o old v)
    .question (.store hash w)

/-- A number literal: an integer of 64 bits is in the code, and others are asked for. -/
def numberDialogue (q : Mpq) : Dialogue Question Value Value Value :=
  if (mpqToInt64 q).isSome then pure (.number (newNumberObject q)) else .question (.literal (newNumberObject q))

/-! ## How the translator goes on -/

/-- Every offset that the arena knows is in it. -/
def ConstantArena.Placed (arena : ConstantArena) : Prop :=
  ∀ hash offset, find arena.offsets hash = some offset → offset ≤ arena.data.length

/-- What the translation of an expression of operators leaves, and that it takes registers as long as there are any. -/
structure Onwards (t t' : Translated) : Prop where
  err : t'.err = t.err
  constants : t.constants.data <+: t'.constants.data
  placed : t.constants.Placed → t'.constants.Placed
  count : t.registerCount.toNat ≤ t'.registerCount.toNat
  wrapped : t'.registersWrapped = false → t.registersWrapped = false

/-- The numbers that the translator does not check. -/
structure Translated.Bounded (t : Translated) : Prop where
  registers : t.registersWrapped = false
  bytecode : t.bytecode.length < 2^64
  constants : t.constants.data.length < 2^64

/-- What `init_translator` sees to: the constants are in order, and register 0 is not given away. -/
structure Translated.Ready (t : Translated) : Prop where
  placed : t.constants.Placed
  register : 0 < t.registerAssignment.toNat

/-- The frame has the constants and the registers of the translation, and a scope. -/
structure Frame.Fits (f : Frame) (t : Translated) : Prop where
  constants : t.constants.data <+: f.module.constants
  registers : t.registerCount.toNat ≤ f.registers.length
  stack : f.stack ≠ []

theorem Onwards.refl (t : Translated) : Onwards t t := ⟨rfl, List.prefix_rfl, id, le_rfl, id⟩

theorem Onwards.trans {t t' u : Translated} (h : Onwards t t') (h' : Onwards t' u) : Onwards t u :=
  ⟨h'.err.trans h.err, h.constants.trans h'.constants, h'.placed ∘ h.placed, h.count.trans h'.count,
    h.wrapped ∘ h'.wrapped⟩

theorem Translated.Ready.mono {t t' : Translated} (h : t.Ready) (honwards : Onwards t t')
    (hassigned : t.registerAssignment.toNat ≤ t'.registerAssignment.toNat) : t'.Ready :=
  ⟨honwards.placed h.placed, h.register.trans_le hassigned⟩

theorem Frame.Fits.mono {f : Frame} {t t' : Translated} (hfits : f.Fits t') (h : Onwards t t') : f.Fits t :=
  ⟨h.constants.trans hfits.constants, h.count.trans hfits.registers, hfits.stack⟩

theorem Frame.Fits.since {f g : Frame} {t : Translated} {keep : ℕ} (hfits : f.Fits t) (h : f.Since keep g) : g.Fits t :=
  ⟨h.module.symm ▸ hfits.constants, h.length.symm ▸ hfits.registers, h.stack.symm ▸ hfits.stack⟩

theorem Frame.Fits.writes {f g : Frame} {t : Translated} {registers : List UInt8} {n : ℕ} (hfits : f.Fits t)
    (h : f.Writes registers n g) : g.Fits t :=
  ⟨h.module.symm ▸ hfits.constants, h.length.symm ▸ hfits.registers, h.stack.symm ▸ hfits.stack⟩

theorem Frame.Since.codeAt {f g : Frame} {keep : ℕ} (h : f.Since keep g) {code code' : List UInt8}
    (hcode : f.CodeAt (code ++ code')) (hip : g.ip = f.ip + code.length) : g.CodeAt code' :=
  hcode.right h.bytecode hip

theorem Frame.CodeAt.last {f : Frame} {code : List UInt8} (h : f.CodeAt code) : f.CodeAt (code ++ []) :=
  (List.append_nil code).symm ▸ h

/-! ## Steps of the translator -/

section

variable {t t' : Translated}

/-- Where there is no error, the translator goes on. -/
theorem isError_goesOn {α : Type} {next : Bool → Translate α} {r : α × Translated}
    (h : (isError >>= next) t = some r) (herr : t.err = none) : next false t = some r := by
  obtain ⟨failed, _, hiserror, h⟩ := Translate.bind_some.mp h
  obtain ⟨hfailed, rfl⟩ := isError_some.mp hiserror
  rw [herr] at hfailed
  subst hfailed
  exact h

theorem push_spec {i : Instr} {n : ℕ} (h : push i t = some (n, t')) :
    n = t.bytecode.length ∧ Onwards t t' ∧ t'.registerAssignment = t.registerAssignment ∧
      t'.bytecode = t.bytecode ++ i.encode := by
  cases h
  exact ⟨rfl, ⟨rfl, List.prefix_rfl, id, le_rfl, id⟩, rfl, rfl⟩

theorem setRegisters_spec {count : UInt8} {u : Unit} (h : setRegisters count t = some (u, t')) :
    Onwards t t' ∧ t'.registerAssignment = t.registerAssignment ∧ t'.bytecode = t.bytecode ∧
      count.toNat ≤ t'.registerCount.toNat := by
  rw [modify_some h]
  split
  case isTrue hlt =>
    exact ⟨⟨rfl, List.prefix_rfl, id, (UInt8.lt_iff_toNat_lt.mp hlt).le, id⟩, rfl, rfl, le_rfl⟩
  case isFalse hge =>
    exact ⟨.refl t, rfl, rfl, Nat.le_of_not_lt fun hlt => hge (UInt8.lt_iff_toNat_lt.mpr hlt)⟩

theorem setAssignedRegisters_spec {u : Unit} (h : setAssignedRegisters t = some (u, t')) :
    Onwards t t' ∧ t'.registerAssignment = t.registerAssignment ∧ t'.bytecode = t.bytecode ∧
      t.registerAssignment.toNat ≤ t'.registerCount.toNat := by
  unfold setAssignedRegisters at h
  obtain ⟨_, v, hget, h⟩ := Translate.bind_some.mp h
  obtain ⟨rfl, rfl⟩ := Translate.pure_some.mp hget
  exact setRegisters_spec h

theorem newRegister_spec {r : UInt8} (h : newRegister t = some (r, t')) :
    r = t.registerAssignment ∧ Onwards t t' ∧ t'.bytecode = t.bytecode ∧
      (t'.registersWrapped = false → t'.registerAssignment.toNat = r.toNat + 1) := by
  cases h
  refine ⟨rfl, ⟨rfl, List.prefix_rfl, id, le_rfl, fun hwrapped => ?_⟩, rfl, fun hwrapped => ?_⟩
  · exact (Bool.or_eq_false_iff.mp hwrapped).1
  · have hne : t.registerAssignment ≠ 255 := of_decide_eq_false (Bool.or_eq_false_iff.mp hwrapped).2
    have hlt := t.registerAssignment.toNat_lt
    have hne' : t.registerAssignment.toNat ≠ 255 := fun heq => hne (UInt8.toNat.inj heq)
    show (t.registerAssignment + 1).toNat = _
    rw [UInt8.toNat_add, show (1 : UInt8).toNat = 1 from rfl, Nat.mod_eq_of_lt (by omega)]

theorem freeRegisters_spec {n : UInt8} {u : Unit} (h : freeRegisters n t = some (u, t')) :
    Onwards t t' ∧ t'.bytecode = t.bytecode ∧
      (t'.registersWrapped = false → t'.registerAssignment.toNat + n.toNat = t.registerAssignment.toNat) := by
  rw [modify_some h]
  refine ⟨⟨rfl, List.prefix_rfl, id, le_rfl, fun hwrapped => ?_⟩, rfl, fun hwrapped => ?_⟩
  · exact (Bool.or_eq_false_iff.mp hwrapped).1
  · have hle : ¬t.registerAssignment < n := of_decide_eq_false (Bool.or_eq_false_iff.mp hwrapped).2
    have hle' : n ≤ t.registerAssignment := UInt8.not_lt.mp hle
    show (t.registerAssignment - n).toNat + _ = _
    rw [UInt8.toNat_sub_of_le _ _ hle', Nat.sub_add_cancel (UInt8.le_iff_toNat_le.mp hle')]

/-- The operand of a jump is eight bytes behind its opcode and its register. -/
theorem setBytes_operand (before after : List UInt8) (x y : UInt64) :
    setBytes (before ++ (uint64ToBytes x ++ after)) before.length y = before ++ (uint64ToBytes y ++ after) := by
  have hdrop : (before ++ (uint64ToBytes x ++ after)).drop (before.length + 8) = after := by
    rw [List.drop_append, List.drop_eq_nil_of_le (Nat.le_add_right _ _), List.nil_append, Nat.add_sub_cancel_left,
      ← length_uint64ToBytes x, List.drop_left]
  unfold setBytes
  rw [List.take_left, hdrop, List.append_assoc]

theorem setBytes_jumpIfFalse (before after : List UInt8) (r : UInt8) (x y : UInt64) :
    setBytes (before ++ ((Instr.jumpIfFalse r x).encode ++ after)) (before.length + 2) y =
      before ++ ((Instr.jumpIfFalse r y).encode ++ after) := by
  have h := setBytes_operand (before ++ [12, r]) after x y
  rw [List.length_append, List.append_assoc, List.append_assoc] at h
  exact h

theorem setBytes_jump (before after : List UInt8) (x y : UInt64) :
    setBytes (before ++ ((Instr.jump x).encode ++ after)) (before.length + 1) y =
      before ++ ((Instr.jump y).encode ++ after) := by
  have h := setBytes_operand (before ++ [13]) after x y
  rw [List.length_append, List.append_assoc, List.append_assoc] at h
  exact h

theorem setInstructionCode_spec {index code : ℕ} {u : Unit} (h : setInstructionCode index code t = some (u, t')) :
    t' = { t with bytecode := setBytes t.bytecode index (u64 code) } := by
  unfold setInstructionCode at h
  obtain ⟨_, v, hget, h⟩ := Translate.bind_some.mp h
  obtain ⟨rfl, rfl⟩ := Translate.pure_some.mp hget
  split at h
  · exact modify_some h
  · cases h

/-- Other code makes no difference. -/
theorem Onwards.patch {u : Translated} (h : Onwards t t') (bytecode : List UInt8)
    (hu : u = { t' with bytecode := bytecode }) : Onwards t u := by
  rw [hu]
  exact ⟨h.err, h.constants, h.placed, h.count, h.wrapped⟩

/-- A push to the arena of offsets that are in it. -/
theorem ConstantArena.Placed.push {hash : List UInt8 → UInt64} {arena : ConstantArena} (h : arena.Placed)
    (data : List UInt8) :
    (arena.push hash data).2.Placed ∧ DataAt (arena.push hash data).2.data (arena.push hash data).1 data := by
  have hholds : (arena.push hash data).2.Holds (arena.push hash data).1 data := ConstantArena.push_holds
  rcases ConstantArena.push_cases hash arena data with ⟨offset, hfind, -, hpush⟩ | ⟨-, hpush⟩
  · -- the data is there
    rw [hpush] at hholds ⊢
    refine ⟨h, ?_, hholds⟩
    rcases hholds.le_length with rfl | hle
    · exact h _ _ hfind
    · exact hle
  · rw [hpush] at hholds ⊢
    refine ⟨fun hash' offset hfind => ?_, List.length_append.ge, hholds⟩
    have hlength : arena.data.length ≤ (arena.data ++ data).length := List.length_append.symm ▸ Nat.le_add_right _ _
    dsimp only at hfind
    rw [find_put] at hfind
    split at hfind
    · cases hfind
      exact hlength
    · exact (h hash' offset hfind).trans hlength

theorem arenaPush_onwards {siphash : List UInt8 → UInt64} {data : List UInt8} {n : ℕ}
    (h : arenaPush siphash data t = some (n, t')) :
    Onwards t t' ∧ t'.registerAssignment = t.registerAssignment ∧ t'.bytecode = t.bytecode ∧
      (t.constants.Placed → DataAt t'.constants.data n data) := by
  cases h
  exact ⟨⟨rfl, ConstantArena.push_prefix, fun hplaced => (hplaced.push data).1, le_rfl, id⟩, rfl, rfl,
    fun hplaced => (hplaced.push data).2⟩

end

/-! ## The code of a value -/

/-- The code between two states of the translator, in a frame that fits: from its start on the frame holds the dialogue.
-/
def RunsAs (t t' : Translated) (code : List UInt8) (d : Dialogue Question Value Value Value) : Prop :=
  ∀ c s f, s.At c f → f.Fits t' → f.CodeAt code → f.ip = t.bytecode.length →
    Converses c t.registerAssignment.toNat t'.bytecode.length d s f

/-- What was appended holds a dialogue; `start` is where its code starts. -/
structure Compiled (t : Translated) (start : ℕ) (t' : Translated) (d : Dialogue Question Value Value Value) : Prop where
  start : start = t.bytecode.length
  onwards : Onwards t t'
  assigned : t'.registersWrapped = false → t.registerAssignment.toNat ≤ t'.registerAssignment.toNat
  code : ∃ code, t'.bytecode = t.bytecode ++ code ∧ (t'.Bounded → t.Ready → RunsAs t t' code d)

/-- An action of the translator appends code that holds a dialogue, and answers where it starts. -/
def Compiles (m : Translate ℕ) (d : Dialogue Question Value Value Value) : Prop :=
  ∀ t n t', m t = some (n, t') → t.err = none → Compiled t n t' d

section

variable {m : Translate ℕ} {d : Dialogue Question Value Value Value}

theorem Translated.Bounded.mono {t t' : Translated} (h : t'.Bounded) (honwards : Onwards t t')
    (hle : t.bytecode.length ≤ t'.bytecode.length) : t.Bounded :=
  ⟨honwards.wrapped h.registers, hle.trans_lt h.bytecode, honwards.constants.length_le.trans_lt h.constants⟩

/-- One instruction that needs register 0 is appended. -/
structure Appends (i : Instr) (t : Translated) (n : ℕ) (t' : Translated) : Prop where
  start : n = t.bytecode.length
  onwards : Onwards t t'
  assigned : t'.registerAssignment = t.registerAssignment
  code : t'.bytecode = t.bytecode ++ i.encode
  count : 0 < t'.registerCount.toNat

/-- An action that appends one instruction. -/
theorem compiles_of_appends (h : ∀ t n t', m t = some (n, t') → ∃ i, Appends i t n t' ∧
    (t'.Bounded → t.Ready → ∀ c keep s f, s.At c f → f.Fits t' → f.CodeAt (i.encode ++ []) →
      f.ip + i.encode.length = t'.bytecode.length → 0 < f.registers.length →
        Converses c keep t'.bytecode.length d s f)) : Compiles m d := by
  intro t n t' htranslate herr
  obtain ⟨i, happends, hruns⟩ := h t n t' htranslate
  have hlength := congrArg List.length happends.code
  rw [List.length_append] at hlength
  refine ⟨happends.start, happends.onwards, fun _ => happends.assigned ▸ le_rfl, _, happends.code, ?_⟩
  intro hbounded hready c s f hat hfits hcode hip
  exact hruns hbounded hready c _ s f hat hfits hcode.last (by omega) (happends.count.trans_le hfits.registers)

/-- A push behind `set_registers(translated, 1)`. -/
theorem appends_push {t t₁ t' : Translated} {n : ℕ} {u : Unit} {i : Instr} (hregisters : setRegisters 1 t = some (u, t₁))
    (hpush : push i t₁ = some (n, t')) : Appends i t n t' := by
  obtain ⟨honwards, hassigned, hcode, hcount⟩ := setRegisters_spec hregisters
  obtain ⟨rfl, honwards', hassigned', hcode'⟩ := push_spec hpush
  exact ⟨by rw [hcode], honwards.trans honwards', hassigned'.trans hassigned, by rw [hcode', hcode],
    lt_of_lt_of_le Nat.one_pos (hcount.trans honwards'.count)⟩

theorem translateNull_compiles : Compiles translateNull (pure .null) := by
  refine compiles_of_appends fun t n t' h => ?_
  unfold translateNull at h
  obtain ⟨_, t₁, hregisters, h⟩ := Translate.bind_some.mp h
  refine ⟨_, appends_push hregisters h, fun _ _ c keep s f hat _ hcode hip hlength => ?_⟩
  refine .loadNull hat hcode hip.le (Or.inl rfl) hlength fun u g hat hwrites hv => ?_
  exact .done hat (hwrites.ip.trans hip) hv

theorem translateBoolean_compiles (b : Bool) : Compiles (translateBoolean b) (pure (.bool b)) := by
  refine compiles_of_appends fun t n t' h => ?_
  unfold translateBoolean at h
  obtain ⟨_, t₁, hregisters, h⟩ := Translate.bind_some.mp h
  refine ⟨_, appends_push hregisters h, fun _ _ c keep s f hat _ hcode hip hlength => ?_⟩
  refine .loadBool hat hcode hip.le hlength fun u g hat hwrites hv => ?_
  exact .done hat (hwrites.ip.trans hip) hv

variable {siphash : List UInt8 → UInt64}

theorem translateParsedString_compiles (string : List UInt8) :
    Compiles (translateParsedString siphash string) (pure (.string string)) := by
  refine compiles_of_appends fun t n t' h => ?_
  unfold translateParsedString at h
  obtain ⟨stringPos, t₁, harena, h⟩ := Translate.bind_some.mp h
  obtain ⟨_, t₂, hregisters, h⟩ := Translate.bind_some.mp h
  obtain ⟨honwards, hassigned, hcode₁, hdata⟩ := arenaPush_onwards harena
  have happends := appends_push hregisters h
  refine ⟨_, ⟨happends.start.trans (by rw [hcode₁]), honwards.trans happends.onwards,
    happends.assigned.trans hassigned, hcode₁ ▸ happends.code, happends.count⟩, ?_⟩
  intro hbounded hready c keep s f hat hfits hcode hip hlength
  have hdata' := (hdata hready.placed).mono happends.onwards.constants
  have hsize := hdata'.1
  have hconstants := hbounded.constants
  have hget : f.module.arenaGet (u64 stringPos) (u64 string.length) = some string :=
    Module.arenaGet_of_dataAt (hdata'.mono hfits.constants) (by omega)
  refine .loadString hat hcode hip.le hlength hget fun u g hat hwrites hv => ?_
  exact .done hat (hwrites.ip.trans hip) hv

/-- The operand of a literal, with whether it has a key in the number cache. -/
theorem translateParsedNumber_appends {q : Mpq} {t t' : Translated} {n : ℕ}
    (h : translateParsedNumber siphash q 0 t = some (n, t')) :
    ∃ number : NumberOperand, Appends (.loadNumber 0 number) t n t' ∧
      (number.cacheKey = none ↔ (mpqToInt64 q).isSome) := by
  unfold translateParsedNumber at h
  obtain ⟨_, t₁, hregisters, h⟩ := Translate.bind_some.mp h
  obtain ⟨honwards, hassigned, hcode, hcount⟩ := setRegisters_spec hregisters
  -- a push behind what only writes constants
  have hpush : ∀ {t₂ : Translated} {i : Instr}, push i t₂ = some (n, t') → Onwards t₁ t₂ →
      t₂.registerAssignment = t₁.registerAssignment → t₂.bytecode = t₁.bytecode → Appends i t n t' := by
    intro t₂ i hpush honwards₂ hassigned₂ hcode₂
    obtain ⟨rfl, honwards₃, hassigned₃, hcode₃⟩ := push_spec hpush
    rw [hcode₂, hcode] at hcode₃ ⊢
    exact ⟨rfl, honwards.trans (honwards₂.trans honwards₃), by rw [hassigned₃, hassigned₂, hassigned], hcode₃,
      lt_of_lt_of_le Nat.one_pos (hcount.trans (honwards₂.trans honwards₃).count)⟩
  cases hint : mpqToInt64 q with
  | some i64 =>
    rw [hint] at h
    exact ⟨_, hpush h (.refl t₁) rfl rfl, iff_of_true rfl rfl⟩
  | none =>
    rw [hint] at h
    obtain ⟨numeratorPos, t₂, hnum, h⟩ := Translate.bind_some.mp h
    obtain ⟨honwards₂, hassigned₂, hcode₂, -⟩ := arenaPush_onwards hnum
    split at h
    · exact ⟨_, hpush h honwards₂ hassigned₂ hcode₂, by simp [NumberOperand.cacheKey]⟩
    · obtain ⟨denominatorPos, t₃, hden, h⟩ := Translate.bind_some.mp h
      obtain ⟨honwards₃, hassigned₃, hcode₃, -⟩ := arenaPush_onwards hden
      exact ⟨_, hpush h (honwards₂.trans honwards₃) (hassigned₃.trans hassigned₂) (hcode₃.trans hcode₂),
        by simp [NumberOperand.cacheKey]⟩

theorem translateParsedNumber_compiles {q : Mpq} (hq : q.Canonical) :
    Compiles (translateParsedNumber siphash q 0) (numberDialogue q) := by
  refine compiles_of_appends fun t n t' h => ?_
  obtain ⟨number, happends, hkey⟩ := translateParsedNumber_appends h
  refine ⟨_, happends, fun hbounded _ c keep s f hat hfits hcode hip hlength => ?_⟩
  obtain ⟨number', hcode', hnumber⟩ := translateParsedNumber_spec hq h hbounded.constants
  -- both are the operand in the code
  have hsame : number' = number := by
    have hencode := List.append_cancel_left (hcode'.symm.trans happends.code)
    have hdecode := decode_encode (.loadNumber 0 number') []
    rw [hencode, decode_encode] at hdecode
    cases hdecode
    rfl
  subst hsame
  have hvalue := hnumber f.module hfits.constants
  unfold numberDialogue
  split
  case isTrue hint =>
    refine .loadNumber hat hcode hip.le hlength (hkey.mpr hint) hvalue fun u g hat hwrites hv => ?_
    exact .done hat (hwrites.ip.trans hip) hv
  case isFalse hint =>
    rw [← Dialogue.bind_pure (Dialogue.question _)]
    refine .literal hat hcode hip.le hlength (fun hnone => hint (hkey.mp hnone)) hvalue fun u g v hat hwrites hv => ?_
    exact .done hat (hwrites.ip.trans hip) hv

theorem translateParsedIdentifier_compiles (identifier : ParsedIdentifier) :
    Compiles (translateParsedIdentifier siphash identifier) (.question (.lookup (siphash identifier.name))) := by
  intro t n t' h herr
  unfold translateParsedIdentifier at h
  obtain ⟨identifierPos, t₁, harena, h⟩ := Translate.bind_some.mp h
  obtain ⟨_, t₂, hregisters, h⟩ := Translate.bind_some.mp h
  obtain ⟨start, t₃, hlocation, h⟩ := Translate.bind_some.mp h
  obtain ⟨_, t₄, hpush, h⟩ := Translate.bind_some.mp h
  obtain ⟨rfl, rfl⟩ := Translate.pure_some.mp h
  obtain ⟨honwards₁, hassigned₁, hcode₁, -⟩ := arenaPush_onwards harena
  have happends := appends_push hregisters hlocation
  obtain ⟨-, honwards₄, hassigned₄, hcode₄⟩ := push_spec hpush
  rw [happends.code, hcode₁, List.append_assoc] at hcode₄
  refine ⟨happends.start.trans (by rw [hcode₁]), honwards₁.trans (happends.onwards.trans honwards₄), ?_, _, hcode₄, ?_⟩
  · intro _
    rw [hassigned₄, happends.assigned, hassigned₁]
  · intro _ _ c s f hat hfits hcode hip
    have hlength := congrArg List.length hcode₄
    rw [List.length_append, List.length_append] at hlength
    have hregisters := (happends.count.trans_le honwards₄.count).trans_le hfits.registers
    rw [← Dialogue.bind_pure (Dialogue.question _)]
    refine .sourceLocation hat hcode (by omega) fun u g hat hwrites => ?_
    have hip' := hwrites.ip
    refine .identifier hat (hwrites.codeAt hcode rfl).last (by omega) (hwrites.length.symm ▸ hregisters)
      fun u g' v hat hwrites' hv => ?_
    exact .done hat (by rw [hwrites'.ip]; omega) hv

/-! ## Operators of one operand -/

variable {t t₁ t' : Translated} {start : ℕ}

/-- Before the code, registers and constants may be asked for. -/
theorem Compiled.behind (h : Compiled t₁ start t' d) (honwards : Onwards t t₁)
    (hassigned : t₁.registerAssignment = t.registerAssignment) (hcode : t₁.bytecode = t.bytecode) :
    Compiled t start t' d := by
  obtain ⟨rfl, honwards', hassigned', code, hcode', hruns⟩ := h
  refine ⟨by rw [hcode], honwards.trans honwards', hassigned ▸ hassigned', code, hcode ▸ hcode', fun hbounded hready => ?_⟩
  intro c s f hat hfits hcodeAt hip
  rw [← hassigned]
  exact hruns hbounded (hready.mono honwards (hassigned ▸ le_rfl)) c s f hat hfits hcodeAt (by rw [hip, hcode])

/-- Code that goes on with the value. -/
theorem Compiled.append (h : Compiled t start t₁ d) (honwards : Onwards t₁ t')
    (hassigned : t'.registerAssignment = t₁.registerAssignment) {tail : List UInt8}
    (hcode : t'.bytecode = t₁.bytecode ++ tail) {k : Value → Dialogue Question Value Value Value}
    (htail : t'.Bounded → t₁.Ready → ∀ c keep s f v, keep ≤ t₁.registerAssignment.toNat → s.At c f → f.Fits t' →
      f.CodeAt tail → f.ip + tail.length = t'.bytecode.length → f.read 0 = some v →
        Converses c keep t'.bytecode.length (k v) s f) : Compiled t start t' (d >>= k) := by
  obtain ⟨rfl, honwards₁, hassigned₁, code, hcode₁, hruns⟩ := h
  have hlength := congrArg List.length hcode
  have hlength₁ := congrArg List.length hcode₁
  rw [List.length_append] at hlength hlength₁
  rw [hcode₁, List.append_assoc] at hcode
  refine ⟨rfl, honwards₁.trans honwards, fun hwrapped => hassigned ▸ hassigned₁ (honwards.wrapped hwrapped), _, hcode, ?_⟩
  intro hbounded hready c s f hat hfits hcodeAt hip
  have hbounded₁ := hbounded.mono honwards (by omega)
  have hle := hassigned₁ hbounded₁.registers
  -- the value first, in the translation as it is then, and the tail behind it
  have hpart := hruns hbounded₁ hready c s f hat (hfits.mono honwards) hcodeAt.left hip
  refine hpart.bind le_rfl (by omega) fun v u g hat hsince hip' hv => ?_
  exact htail hbounded (hready.mono honwards₁ hle) c _ u g v hle hat (hfits.since hsince)
    (hsince.codeAt hcodeAt (by omega)) (by omega) hv

theorem Frame.pos_of_read {f : Frame} {v : Value} (hv : f.read 0 = some v) : 0 < f.registers.length :=
  (List.getElem?_eq_some_iff.mp hv).1

theorem translateNegation_compiles (hm : Compiles m d) : Compiles (translateNegation m) (negationDialogue d) := by
  intro t n t' h herr
  unfold translateNegation at h
  obtain ⟨_, t₁, hregisters, h⟩ := Translate.bind_some.mp h
  obtain ⟨output, t₂, hvalue, h⟩ := Translate.bind_some.mp h
  obtain ⟨_, t₃, hpush, h⟩ := Translate.bind_some.mp h
  obtain ⟨rfl, rfl⟩ := Translate.pure_some.mp h
  obtain ⟨honwards, hassigned, hcode, -⟩ := setRegisters_spec hregisters
  obtain ⟨-, honwards', hassigned', hcode'⟩ := push_spec hpush
  have hcompiled := hm _ _ _ hvalue (honwards.err.trans herr)
  refine .behind (.append hcompiled honwards' hassigned' hcode' fun _ _ c keep s f v _ hat _ hcode hip hv => ?_)
    honwards hassigned hcode
  rw [← Dialogue.bind_pure (Dialogue.question _)]
  refine .negation hat hcode.last hip.le (Frame.pos_of_read hv) hv fun u g v' hat hwrites hv' => ?_
  exact .done hat (hwrites.ip.trans hip) hv'

theorem translateToBool_compiles (invert : Bool) (hm : Compiles m d) :
    Compiles (translateToBool invert m) (toBoolDialogue invert d) := by
  intro t n t' h herr
  unfold translateToBool at h
  obtain ⟨first, t₁, hvalue, h⟩ := Translate.bind_some.mp h
  obtain ⟨_, t₂, hbool, h⟩ := Translate.bind_some.mp h
  obtain ⟨-, honwards, hassigned, hcode⟩ := push_spec hbool
  have hcompiled := hm _ _ _ hvalue herr
  cases invert with
  | false =>
    obtain ⟨rfl, rfl⟩ := Translate.pure_some.mp h
    refine .append hcompiled honwards hassigned hcode fun _ _ c keep s f v _ hat _ hcode hip hv => ?_
    refine .bool hat hcode.last hip.le (Frame.pos_of_read hv) hv fun u g v' hat hwrites hv' => ?_
    exact .done hat (hwrites.ip.trans hip) hv'
  | true =>
    obtain ⟨_, t₃, hnot, h⟩ := Translate.bind_some.mp h
    obtain ⟨rfl, rfl⟩ := Translate.pure_some.mp h
    obtain ⟨-, honwards', hassigned', hcode'⟩ := push_spec hnot
    rw [hcode, List.append_assoc] at hcode'
    refine .append hcompiled (honwards.trans honwards') (hassigned'.trans hassigned) hcode'
      fun _ _ c keep s f v _ hat _ hcode hip hv => ?_
    rw [List.length_append] at hip
    refine .bool hat hcode (by omega) (Frame.pos_of_read hv) hv fun u g v' hat hwrites hv' => ?_
    have hip' := hwrites.ip
    refine .not hat (hwrites.codeAt hcode rfl).last (by omega) (Frame.pos_of_read hv') hv'
      fun u g' hat hwrites' hv'' => ?_
    exact .done hat (by rw [hwrites'.ip]; omega) hv''

/-! ## Assignments to names -/

theorem restoreJumps_spec {old : Translated} {u : Unit} (h : restoreJumps old t = some (u, t')) :
    Onwards t t' ∧ t'.registerAssignment = t.registerAssignment ∧ t'.bytecode = t.bytecode := by
  cases h
  exact ⟨⟨rfl, List.prefix_rfl, id, le_rfl, id⟩, rfl, rfl⟩

/-- The code of a compound assignment behind its value: the value is put aside, and the name gets what the operator
makes of the value that it has and of this one. -/
theorem Converses.compound {c : FramePlace} {keep stop : ℕ} {s : Evaluation} {f : Frame} {r : UInt8}
    {line column width length offset hash : UInt64} {o : BinaryOp} {code : List UInt8} {v : Value} (hat : s.At c f)
    (hcompound : code = (Instr.copyToRegister 0 r).encode ++ ((Instr.sourceLocation line column width).encode ++
      ((Instr.identifier length offset hash).encode ++ ((Instr.binary o 0 r 0).encode ++
        (Instr.assign length offset hash 0).encode))))
    (hcode : f.CodeAt code) (hip : f.ip + code.length = stop) (hpos : 0 < r.toNat) (hkeep : keep ≤ r.toNat)
    (hr : r.toNat < f.registers.length) (hstack : f.stack ≠ []) (hv : f.read 0 = some v) :
    Converses c keep stop (do
      let old ← .question (.lookup hash)
      let w ← .question (.binary o old v)
      .question (.store hash w)) s f := by
  subst hcompound
  simp only [List.length_append] at hip
  -- the register that is given away is not register 0, where the old value is put
  have hne : r ∉ [(0 : UInt8)] := register_not_mem (Nat.ne_of_gt hpos)
  refine .copyToRegister hat hcode (by omega) (Or.inr hkeep) hr hv fun u g₁ hat hwrites₁ hv₁ => ?_
  have hcode₁ := hwrites₁.codeAt hcode rfl
  have hip₁ := hwrites₁.ip
  refine .sourceLocation hat hcode₁ (by omega) fun u g₂ hat hwrites₂ => ?_
  have hcode₂ := hwrites₂.codeAt hcode₁ rfl
  have hip₂ := hwrites₂.ip
  have hlength₂ : g₂.registers.length = f.registers.length := hwrites₂.length.trans hwrites₁.length
  refine .identifier hat hcode₂ (by omega) (by rw [hlength₂]; omega) fun u g₃ old hat hwrites₃ hold => ?_
  have hcode₃ := hwrites₃.codeAt hcode₂ rfl
  have hip₃ := hwrites₃.ip
  -- the operator finds the value where it was put aside
  have hv₃ : g₃.read r = some v := by
    rw [hwrites₃.kept _ hne, hwrites₂.kept _ (by simp), hv₁]
  refine .binary hat hcode₃ (by omega) (Or.inl rfl) (Frame.pos_of_read hold) hold hv₃ fun u g₄ w hat hwrites₄ hw => ?_
  have hip₄ := hwrites₄.ip
  have hstack₄ : g₄.stack ≠ [] := by
    rw [hwrites₄.stack, hwrites₃.stack, hwrites₂.stack, hwrites₁.stack]
    exact hstack
  rw [← Dialogue.bind_pure (Dialogue.question _)]
  refine .assign hat (hwrites₄.codeAt hcode₃ rfl).last (by omega) (Frame.pos_of_read hw) hstack₄ hw
    fun u g₅ w' hat hwrites₅ hw' => ?_
  exact .done hat (by rw [hwrites₅.ip]; omega) hw'

theorem translateParsedAssignment_compiles (loc : SourceLocation) (identifier : ParsedIdentifier) (type : AssignToken)
    (hm : Compiles m d) : Compiles (translateParsedAssignment siphash loc (.identifier identifier) type m)
      (assignDialogue (siphash identifier.name) type.opcode d) := by
  intro t n t' h herr
  unfold translateParsedAssignment at h
  obtain ⟨_, t₁, hregisters, h⟩ := Translate.bind_some.mp h
  obtain ⟨old, _, hget, h⟩ := Translate.bind_some.mp h
  obtain ⟨rfl, rfl⟩ := Translate.pure_some.mp hget
  obtain ⟨_, t₂, hclear, h⟩ := Translate.bind_some.mp h
  obtain ⟨first, t₃, hvalue, h⟩ := Translate.bind_some.mp h
  obtain ⟨honwards₁, hassigned₁, hcode₁, -⟩ := setRegisters_spec hregisters
  have ht₂ := modify_some hclear
  have honwards₂ : Onwards t₁ t₂ := by
    rw [ht₂]
    exact ⟨rfl, List.prefix_rfl, id, le_rfl, id⟩
  have hcompiled := hm _ _ _ hvalue ((honwards₁.trans honwards₂).err.trans herr)
  have h := isError_goesOn h (hcompiled.onwards.err.trans ((honwards₁.trans honwards₂).err.trans herr))
  rw [if_neg (by decide)] at h
  dsimp only at h
  obtain ⟨identifierPos, t₄, harena, h⟩ := Translate.bind_some.mp h
  obtain ⟨honwards₄, hassigned₄, hcode₄, -⟩ := arenaPush_onwards harena
  refine .behind ?_ (honwards₁.trans honwards₂) (by rw [ht₂]; exact hassigned₁) (by rw [ht₂]; exact hcode₁)
  unfold assignDialogue
  cases hopcode : type.opcode with
  | none =>
    rw [hopcode] at h
    dsimp only at h
    obtain ⟨_, t₅, hassign, h⟩ := Translate.bind_some.mp h
    obtain ⟨_, t₆, hrestore, h⟩ := Translate.bind_some.mp h
    obtain ⟨rfl, rfl⟩ := Translate.pure_some.mp h
    obtain ⟨-, honwards₅, hassigned₅, hcode₅⟩ := push_spec hassign
    obtain ⟨honwards₆, hassigned₆, hcode₆⟩ := restoreJumps_spec hrestore
    rw [hcode₄, ← hcode₆] at hcode₅
    refine .append hcompiled (honwards₄.trans (honwards₅.trans honwards₆)) (by rw [hassigned₆, hassigned₅, hassigned₄])
      hcode₅ fun _ _ c keep s f v _ hat hfits hcode hip hv => ?_
    rw [← Dialogue.bind_pure (Dialogue.question _)]
    refine .assign hat hcode.last hip.le (Frame.pos_of_read hv) hfits.stack hv fun u g w hat hwrites hw => ?_
    exact .done hat (hwrites.ip.trans hip) hw
  | some opcode =>
    rw [hopcode] at h
    dsimp only at h
    obtain ⟨registerOperationTo, t₅, hnew, h⟩ := Translate.bind_some.mp h
    obtain ⟨_, t₆, hset, h⟩ := Translate.bind_some.mp h
    obtain ⟨_, t₇, hcopy, h⟩ := Translate.bind_some.mp h
    obtain ⟨_, t₈, hlocation, h⟩ := Translate.bind_some.mp h
    obtain ⟨_, t₉, hlookup, h⟩ := Translate.bind_some.mp h
    obtain ⟨_, t₁₀, hbinary, h⟩ := Translate.bind_some.mp h
    obtain ⟨_, t₁₁, hfree, h⟩ := Translate.bind_some.mp h
    obtain ⟨_, t₁₂, hassign, h⟩ := Translate.bind_some.mp h
    obtain ⟨_, t₁₃, hrestore, h⟩ := Translate.bind_some.mp h
    obtain ⟨rfl, rfl⟩ := Translate.pure_some.mp h
    -- one register is given away and given back
    have hplus : t₅.registerAssignment = t₄.registerAssignment + 1 := by
      cases hnew
      rfl
    have hminus : t₁₁.registerAssignment = t₁₀.registerAssignment - 1 := by rw [modify_some hfree]
    obtain ⟨rfl, honwards₅, hcode₅, hassigned₅⟩ := newRegister_spec hnew
    obtain ⟨honwards₆, hassigned₆, hcode₆, hcount₆⟩ := setAssignedRegisters_spec hset
    obtain ⟨-, honwards₇, hassigned₇, hcode₇⟩ := push_spec hcopy
    obtain ⟨-, honwards₈, hassigned₈, hcode₈⟩ := push_spec hlocation
    obtain ⟨-, honwards₉, hassigned₉, hcode₉⟩ := push_spec hlookup
    obtain ⟨-, honwards₁₀, hassigned₁₀, hcode₁₀⟩ := push_spec hbinary
    obtain ⟨honwards₁₁, hcode₁₁, -⟩ := freeRegisters_spec hfree
    obtain ⟨-, honwards₁₂, hassigned₁₂, hcode₁₂⟩ := push_spec hassign
    obtain ⟨honwards₁₃, hassigned₁₃, hcode₁₃⟩ := restoreJumps_spec hrestore
    have honwards₇₁₃ := honwards₇.trans (honwards₈.trans (honwards₉.trans (honwards₁₀.trans
      (honwards₁₁.trans (honwards₁₂.trans honwards₁₃)))))
    have hassigned : t₁₃.registerAssignment = t₃.registerAssignment := by
      rw [hassigned₁₃, hassigned₁₂, hminus, hassigned₁₀, hassigned₉, hassigned₈, hassigned₇, hassigned₆, hplus,
        UInt8.add_sub_cancel, hassigned₄]
    rw [hcode₁₁, hcode₁₀, hcode₉, hcode₈, hcode₇, hcode₆, hcode₅, hcode₄, ← hcode₁₃] at hcode₁₂
    simp only [List.append_assoc] at hcode₁₂
    refine .append hcompiled (honwards₄.trans (honwards₅.trans (honwards₆.trans honwards₇₁₃))) hassigned hcode₁₂
      fun hbounded hready c keep s f v hkeep hat hfits hcode hip hv => ?_
    have hR := hassigned₅ (honwards₆.wrapped (honwards₇₁₃.wrapped hbounded.registers))
    have hcount := honwards₇₁₃.count.trans hfits.registers
    rw [← hassigned₄] at hkeep
    have hpos := hready.register
    rw [← hassigned₄] at hpos
    exact .compound hat rfl hcode hip hpos hkeep (by omega) hfits.stack hv

end

end Chloride
