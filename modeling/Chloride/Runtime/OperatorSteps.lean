import Chloride.Runtime.Evaluation
import Chloride.Runtime.NumberLiterals

/-!
# The instructions of operators

One rule for each instruction in the code of operators: what a frame that has come to it may expect, and what it leaves
for the instruction behind it. `Frame.Writes` is what they have in common.
-/

namespace Chloride

/-- The dialogue of `OP_BOOL`. -/
def truth : Value → Dialogue Question Value Value Value
  | .bool b => pure (.bool b)
  | v => .question (.truth v)

/-! ## Registers that are written -/

/-- An instruction of `n` bytes has written some registers at most. -/
structure Frame.Writes (registers : List UInt8) (n : ℕ) (f g : Frame) : Prop where
  others : g = { f with registers := g.registers, ip := f.ip + n, sourceLocation := g.sourceLocation }
  length : g.registers.length = f.registers.length
  kept : ∀ r, r ∉ registers → g.read r = f.read r

namespace Frame.Writes

variable {registers : List UInt8} {keep n : ℕ} {f g : Frame}

theorem ip (h : f.Writes registers n g) : g.ip = f.ip + n := by rw [h.others]

theorem module (h : f.Writes registers n g) : g.module = f.module := by rw [h.others]

theorem bytecode (h : f.Writes registers n g) : g.bytecode = f.bytecode := by rw [h.others]

theorem stack (h : f.Writes registers n g) : g.stack = f.stack := by rw [h.others]

theorem codeAt (h : f.Writes registers n g) {code code' : List UInt8} (hcode : f.CodeAt (code ++ code'))
    (hn : code.length = n) : g.CodeAt code' := hcode.right h.bytecode (by rw [h.ip, hn])

/-- Register 0 and those from `keep` on are free. -/
theorem since (h : f.Writes registers n g) (hfree : ∀ r ∈ registers, r = 0 ∨ keep ≤ r.toNat) : f.Since keep g := by
  refine ⟨?_, h.length, fun r hpos hr => h.kept r fun hmem => ?_⟩
  · rw [h.ip]
    exact h.others
  · rcases hfree r hmem with rfl | hle
    · exact absurd hpos (by decide)
    · omega

end Frame.Writes

/-- The instruction writes in the frame that is behind it. -/
theorem Frame.write_writes {f g : Frame} {n : ℕ} {r : UInt8} {v : Value}
    (hwrite : { f with ip := f.ip + n }.write r v = some g) : f.Writes [r] n g := by
  unfold Frame.write at hwrite
  split at hwrite <;> cases hwrite
  refine ⟨rfl, List.length_set, fun r' hr' => List.getElem?_set_ne fun heq => ?_⟩
  exact hr' (List.mem_singleton.mpr (UInt8.toNat.inj heq).symm)

namespace Frame.Answered

variable {f g g' : Frame} {n : ℕ} {registers : List UInt8}

theorem length (h : f.Answered g) : g.registers.length = f.registers.length := by
  rcases h with rfl | ⟨w, hw⟩
  · rfl
  · obtain ⟨registers, hlength, rfl⟩ := Frame.write_sameControl hw
    exact hlength

/-- The same frames behind the instruction. -/
theorem move (h : f.Answered g) (ip : ℕ) : { f with ip := ip }.Answered { g with ip := ip } := by
  rcases h with rfl | ⟨w, hw⟩
  · exact .refl _
  · refine Or.inr ⟨w, ?_⟩
    unfold Frame.write at hw ⊢
    split at hw <;> cases hw
    rename_i hlt
    exact if_pos hlt

theorem clobber (h : f.Answered g) {a : Answer} (hclobber : g.clobber a = some g') : f.Answered g' := by
  unfold Frame.clobber at hclobber
  split at hclobber
  · cases hclobber
    exact h
  · exact h.write hclobber

/-- A frame that has waited differs in register 0. -/
theorem writes (h : { f with ip := f.ip + n }.Answered g) : f.Writes [0] n g := by
  rcases h with rfl | ⟨w, hw⟩
  · exact ⟨rfl, rfl, fun _ _ => rfl⟩
  · exact Frame.write_writes hw

/-- A write in a frame that has waited. -/
theorem write_writes (h : { f with ip := f.ip + n }.Answered g) {r : UInt8} {v : Value}
    (hwrite : g.write r v = some g') (hzero : 0 ∈ registers) (hr : r ∈ registers) : f.Writes registers n g' := by
  obtain ⟨hothers, hlength, hkept⟩ := h.writes
  have hwrites := Frame.write_writes (n := 0) (by simpa using hwrite)
  refine ⟨?_, hwrites.length.trans hlength, fun r' hr' => ?_⟩
  · rw [hwrites.others, hothers]
    rfl
  · have hne : ∀ {r}, r ∈ registers → r' ∉ [r] := fun hmem heq => hr' (List.mem_singleton.mp heq ▸ hmem)
    exact (hwrites.kept r' (hne hr)).trans (hkept r' (hne hzero))

end Frame.Answered

/-- A register that there is can be read. -/
theorem Frame.exists_read {f : Frame} {r : UInt8} (h : r.toNat < f.registers.length) : ∃ v, f.read r = some v :=
  ⟨_, List.getElem?_eq_getElem h⟩

/-- A register that is not the one that is written. -/
theorem register_not_mem {r r' : UInt8} (h : r.toNat ≠ r'.toNat) : r ∉ [r'] :=
  fun hmem => h (congrArg UInt8.toNat (List.mem_singleton.mp hmem))

theorem execLoadNumber_write {h h' : Heap} {f f' : Frame} {toRegister : UInt8} {number : NumberOperand}
    {err : Option Value} (hexec : execLoadNumber h f toRegister number = some (h', f', err)) :
    ∃ v, f.write toRegister v = some f' := by
  unfold execLoadNumber at hexec
  split at hexec
  · simp only [Option.bind_eq_bind, Option.bind_eq_some_iff, Option.pure_def, Option.some.injEq, Prod.mk.injEq] at hexec
    obtain ⟨n, -, g, hg, -, rfl, -⟩ := hexec
    exact ⟨_, hg⟩
  · split at hexec
    · simp only [Option.bind_eq_bind, Option.bind_eq_some_iff, Option.pure_def, Option.some.injEq, Prod.mk.injEq] at hexec
      obtain ⟨g, hg, -, rfl, -⟩ := hexec
      exact ⟨_, hg⟩
    · simp only [Option.bind_eq_bind, Option.bind_eq_some_iff, Option.pure_def, Option.some.injEq, Prod.mk.injEq] at hexec
      obtain ⟨n, -, g, hg, -, rfl, -⟩ := hexec
      exact ⟨_, hg⟩

/-! ## Instructions that ask nothing -/

namespace Converses

variable {c : FramePlace} {keep stop : ℕ} {d : Dialogue Question Value Value Value} {s : Evaluation} {f : Frame}
  {i : Instr} {code : List UInt8}

/-- An instruction that writes a value in a register. -/
theorem write (hat : s.At c f) (hcode : f.CodeAt (i.encode ++ code)) (hstop : f.ip + i.encode.length ≤ stop)
    (hi : i ≠ .op .call) (hquestion : i.question f = none) {r : UInt8} {v : Value} (hfree : r = 0 ∨ keep ≤ r.toNat)
    (hr : r.toNat < f.registers.length)
    (hexec : ∀ h base a, ∃ h', execInstr h base f.ip { f with ip := f.ip + i.encode.length } a i =
      ({ f with ip := f.ip + i.encode.length }.write r v).map fun g => (h', g, none))
    (hnext : ∀ t g, t.At c g → f.Writes [r] i.encode.length g → g.read r = some v → Converses c keep stop d t g) :
    Converses c keep stop d s f := by
  have hpos := List.length_pos_of_ne_nil (Instr.encode_ne_nil i)
  obtain ⟨g, hwrite, -⟩ := Frame.exists_write (f := { f with ip := f.ip + i.encode.length }) v hr
  have hwrites := Frame.write_writes hwrite
  have hgives : i.Gives f fun g' err => g' = g ∧ err = none := by
    intro g' hg' h base a
    rw [hquestion] at hg'
    rcases hg' with rfl | ⟨hfalse, -⟩
    · obtain ⟨h', hexec⟩ := hexec h base a
      exact ⟨h', g, none, by rw [hexec, hwrite]; rfl, rfl, rfl⟩
    · cases hfalse
  refine quiet hat hcode hstop hi hquestion hgives ?_ ?_
  · rintro _ _ ⟨rfl, rfl⟩
    exact ⟨rfl, hwrites.since (by simpa using hfree), by rw [hwrites.ip]; omega⟩
  · rintro t _ ht ⟨rfl, -⟩
    exact hnext t _ ht hwrites (Frame.read_write hwrite)

/-- An instruction that only moves the frame. -/
theorem move (ip : ℕ) (loc : SourceLocation) (hat : s.At c f) (hcode : f.CodeAt (i.encode ++ code))
    (hstop : f.ip + i.encode.length ≤ stop) (hi : i ≠ .op .call) (hquestion : i.question f = none) (hip : f.ip < ip)
    (hexec : ∀ h base a, execInstr h base f.ip { f with ip := f.ip + i.encode.length } a i =
      some (h, { f with ip := ip, sourceLocation := loc }, none))
    (hnext : ∀ t, t.At c { f with ip := ip, sourceLocation := loc } →
      Converses c keep stop d t { f with ip := ip, sourceLocation := loc }) : Converses c keep stop d s f := by
  have hgives : i.Gives f fun g err => g = { f with ip := ip, sourceLocation := loc } ∧ err = none := by
    intro g hg h base a
    rw [hquestion] at hg
    rcases hg with rfl | ⟨hfalse, -⟩
    · exact ⟨h, _, none, hexec h base a, rfl, rfl⟩
    · cases hfalse
  refine quiet hat hcode hstop hi hquestion hgives ?_ ?_
  · rintro _ _ ⟨rfl, rfl⟩
    exact ⟨rfl, ⟨rfl, rfl, fun _ _ _ => rfl⟩, hip⟩
  · rintro t _ ht ⟨rfl, -⟩
    exact hnext t ht

theorem loadNull {r : UInt8} (hat : s.At c f) (hcode : f.CodeAt ((Instr.loadNull r).encode ++ code))
    (hstop : f.ip + (Instr.loadNull r).encode.length ≤ stop) (hfree : r = 0 ∨ keep ≤ r.toNat)
    (hr : r.toNat < f.registers.length)
    (hnext : ∀ t g, t.At c g → f.Writes [r] (Instr.loadNull r).encode.length g → g.read r = some .null →
      Converses c keep stop d t g) : Converses c keep stop d s f := by
  refine write hat hcode hstop (by simp) rfl hfree hr (fun h base a => ⟨h, ?_⟩) hnext
  simp [execInstr, Option.map_eq_bind]

theorem loadBool {b : Bool} (hat : s.At c f) (hcode : f.CodeAt ((Instr.loadBool b).encode ++ code))
    (hstop : f.ip + (Instr.loadBool b).encode.length ≤ stop) (hregisters : 0 < f.registers.length)
    (hnext : ∀ t g, t.At c g → f.Writes [0] (Instr.loadBool b).encode.length g → g.read 0 = some (.bool b) →
      Converses c keep stop d t g) : Converses c keep stop d s f := by
  refine write hat hcode hstop (by simp) rfl (Or.inl rfl) hregisters (fun h base a => ⟨h, ?_⟩) hnext
  simp [execInstr, Option.map_eq_bind]

theorem loadString {length offset hash : UInt64} {data : List UInt8} (hat : s.At c f)
    (hcode : f.CodeAt ((Instr.loadString 0 length offset hash).encode ++ code))
    (hstop : f.ip + (Instr.loadString 0 length offset hash).encode.length ≤ stop) (hregisters : 0 < f.registers.length)
    (hdata : f.module.arenaGet offset length = some data)
    (hnext : ∀ t g, t.At c g → f.Writes [0] (Instr.loadString 0 length offset hash).encode.length g →
      g.read 0 = some (.string data) → Converses c keep stop d t g) : Converses c keep stop d s f := by
  refine write hat hcode hstop (by simp) rfl (Or.inl rfl) hregisters (fun h base a => ⟨h, ?_⟩) hnext
  simp [execInstr, hdata, Option.map_eq_bind]

/-- A literal that is an integer of 64 bits. -/
theorem loadNumber {number : NumberOperand} {n : Number} (hat : s.At c f)
    (hcode : f.CodeAt ((Instr.loadNumber 0 number).encode ++ code))
    (hstop : f.ip + (Instr.loadNumber 0 number).encode.length ≤ stop) (hregisters : 0 < f.registers.length)
    (hkey : number.cacheKey = none) (hnumber : f.module.numberAt number = some n)
    (hnext : ∀ t g, t.At c g → f.Writes [0] (Instr.loadNumber 0 number).encode.length g →
      g.read 0 = some (.number n) → Converses c keep stop d t g) : Converses c keep stop d s f := by
  have hquestion : (Instr.loadNumber 0 number).question f = none := by
    show number.cacheKey.bind _ = none
    rw [hkey]
    rfl
  refine write hat hcode hstop (by simp) hquestion (Or.inl rfl) hregisters (fun h base a => ⟨h, ?_⟩) hnext
  simp [execInstr, execLoadNumber, hkey, hnumber, Option.map_eq_bind]

theorem copyToRegister {fromRegister toRegister : UInt8} {v : Value} (hat : s.At c f)
    (hcode : f.CodeAt ((Instr.copyToRegister fromRegister toRegister).encode ++ code))
    (hstop : f.ip + (Instr.copyToRegister fromRegister toRegister).encode.length ≤ stop)
    (hfree : toRegister = 0 ∨ keep ≤ toRegister.toNat) (hr : toRegister.toNat < f.registers.length)
    (hv : f.read fromRegister = some v)
    (hnext : ∀ t g, t.At c g → f.Writes [toRegister] (Instr.copyToRegister fromRegister toRegister).encode.length g →
      g.read toRegister = some v → Converses c keep stop d t g) : Converses c keep stop d s f := by
  refine write hat hcode hstop (by simp) rfl hfree hr (fun h base a => ⟨h, ?_⟩) hnext
  have hread : Frame.read { f with ip := f.ip + (Instr.copyToRegister fromRegister toRegister).encode.length }
      fromRegister = some v := hv
  simp [execInstr, hread, Option.map_eq_bind]

theorem not {v : Value} (hat : s.At c f) (hcode : f.CodeAt ((Instr.op .not).encode ++ code))
    (hstop : f.ip + (Instr.op .not).encode.length ≤ stop) (hregisters : 0 < f.registers.length)
    (hv : f.read 0 = some v)
    (hnext : ∀ t g, t.At c g → f.Writes [0] (Instr.op .not).encode.length g → g.read 0 = some (.bool (v = .bool false)) →
      Converses c keep stop d t g) : Converses c keep stop d s f := by
  refine write hat hcode hstop (by simp) rfl (Or.inl rfl) hregisters (fun h base a => ⟨h, ?_⟩) hnext
  have hread : Frame.read { f with ip := f.ip + (Instr.op .not).encode.length } 0 = some v := hv
  simp [execInstr, execOp, hread, Option.map_eq_bind]

theorem sourceLocation {line column length : UInt64} (hat : s.At c f)
    (hcode : f.CodeAt ((Instr.sourceLocation line column length).encode ++ code))
    (hstop : f.ip + (Instr.sourceLocation line column length).encode.length ≤ stop)
    (hnext : ∀ t g, t.At c g → f.Writes [] (Instr.sourceLocation line column length).encode.length g →
      Converses c keep stop d t g) : Converses c keep stop d s f := by
  have hpos := List.length_pos_of_ne_nil (Instr.encode_ne_nil (.sourceLocation line column length))
  refine move (f.ip + (Instr.sourceLocation line column length).encode.length) _ hat hcode hstop (by simp) rfl
    (by omega) (fun h base a => rfl) fun t ht => ?_
  exact hnext t _ ht ⟨rfl, rfl, fun _ _ => rfl⟩

/-- A jump goes on. -/
theorem jump {target : UInt64} (hat : s.At c f) (hcode : f.CodeAt ((Instr.jump target).encode ++ code))
    (hstop : f.ip + (Instr.jump target).encode.length ≤ stop) (htarget : f.ip < target.toNat)
    (hnext : ∀ t, t.At c { f with ip := target.toNat } →
      Converses c keep stop d t { f with ip := target.toNat }) : Converses c keep stop d s f :=
  move target.toNat f.sourceLocation hat hcode hstop (by simp) rfl htarget (fun _ _ _ => rfl) hnext

theorem jumpIfFalse {target : UInt64} {v : Value} (hat : s.At c f)
    (hcode : f.CodeAt ((Instr.jumpIfFalse 0 target).encode ++ code))
    (hstop : f.ip + (Instr.jumpIfFalse 0 target).encode.length ≤ stop) (htarget : f.ip < target.toNat)
    (hv : f.read 0 = some v)
    (hnext : ∀ t g, t.At c g → (if v = .bool false then g = { f with ip := target.toNat }
      else f.Writes [] (Instr.jumpIfFalse 0 target).encode.length g) → Converses c keep stop d t g) :
    Converses c keep stop d s f := by
  have hpos := List.length_pos_of_ne_nil (Instr.encode_ne_nil (.jumpIfFalse 0 target))
  have hread : Frame.read { f with ip := f.ip + (Instr.jumpIfFalse 0 target).encode.length } 0 = some v := hv
  by_cases hfalse : v = .bool false
  · refine move target.toNat f.sourceLocation hat hcode hstop (by simp) rfl htarget ?_ fun t ht => ?_
    · intro h base a
      simp [execInstr, hread, hfalse]
    · exact hnext t _ ht (by rw [if_pos hfalse])
  · refine move (f.ip + (Instr.jumpIfFalse 0 target).encode.length) f.sourceLocation hat hcode hstop (by simp) rfl
      (by omega) ?_ fun t ht => ?_
    · intro h base a
      simp [execInstr, hread, hfalse]
    · exact hnext t _ ht (by rw [if_neg hfalse]; exact ⟨rfl, rfl, fun _ _ => rfl⟩)

/-! ## Instructions that ask -/

variable {k : Value → Dialogue Question Value Value Value}

/-- An instruction that asks, and puts the answer in a register. -/
theorem answer {q : Question} (registers : List UInt8) (hat : s.At c f) (hcode : f.CodeAt (i.encode ++ code))
    (hstop : f.ip + i.encode.length ≤ stop) (hi : i ≠ .op .call) (hquestion : i.question f = some q)
    (hfree : ∀ r ∈ registers, r = 0 ∨ keep ≤ r.toNat) (hr : i.answerRegister.toNat < f.registers.length)
    (hgives : i.Gives f fun g _ => f.Writes registers i.encode.length g)
    (hnext : ∀ t g v, t.At c g → f.Writes registers i.encode.length g → g.read i.answerRegister = some v →
      Converses c keep stop (k v) t g) : Converses c keep stop (.question q >>= k) s f := by
  have hpos := List.length_pos_of_ne_nil (Instr.encode_ne_nil i)
  refine ask hat hcode hstop hi hquestion hgives ?_ hnext
  intro g err hwrites
  have hip := hwrites.ip
  exact ⟨hwrites.since hfree, by omega, by omega, Frame.exists_read (hwrites.length.symm ▸ hr)⟩

theorem identifier {length offset hash : UInt64} (hat : s.At c f)
    (hcode : f.CodeAt ((Instr.identifier length offset hash).encode ++ code))
    (hstop : f.ip + (Instr.identifier length offset hash).encode.length ≤ stop) (hregisters : 0 < f.registers.length)
    (hnext : ∀ t g v, t.At c g → f.Writes [0] (Instr.identifier length offset hash).encode.length g →
      g.read 0 = some v → Converses c keep stop (k v) t g) :
    Converses c keep stop (.question (.lookup hash) >>= k) s f := by
  refine answer [0] hat hcode hstop (by simp) rfl (by simp) hregisters ?_ hnext
  rintro g (rfl | ⟨hfalse, -⟩) h base a
  · cases hresolve : h.resolve g.stack hash with
    | none =>
      exact ⟨h, { g with ip := g.ip + (Instr.identifier length offset hash).encode.length }, some a.exception,
        by simp [execInstr, hresolve], rfl, rfl, fun _ _ => rfl⟩
    | some found =>
      have hlength : (0 : UInt8).toNat <
          ({ g with ip := g.ip + (Instr.identifier length offset hash).encode.length } : Frame).registers.length :=
        hregisters
      obtain ⟨g', hwrite, -⟩ := Frame.exists_write found.2 hlength
      exact ⟨h, g', none, by simp [execInstr, hresolve, hwrite], Frame.write_writes hwrite⟩
  · cases hfalse

/-- A name gets the value in register 0, which stays there. -/
theorem assign {length offset hash : UInt64} {v : Value} (hat : s.At c f)
    (hcode : f.CodeAt ((Instr.assign length offset hash 0).encode ++ code))
    (hstop : f.ip + (Instr.assign length offset hash 0).encode.length ≤ stop) (hregisters : 0 < f.registers.length)
    (hstack : f.stack ≠ []) (hv : f.read 0 = some v)
    (hnext : ∀ t g v, t.At c g → f.Writes [] (Instr.assign length offset hash 0).encode.length g →
      g.read 0 = some v → Converses c keep stop (k v) t g) :
    Converses c keep stop (.question (.store hash v) >>= k) s f := by
  have hquestion : (Instr.assign length offset hash 0).question f = some (.store hash v) := by
    show (f.read 0).bind _ = _
    rw [hv]
    rfl
  refine answer [] hat hcode hstop (by simp) hquestion (by simp) hregisters ?_ hnext
  rintro g hg h base a
  rw [hquestion] at hg
  rcases hg with rfl | ⟨hfalse, -⟩
  · have hread : Frame.read { g with ip := g.ip + (Instr.assign length offset hash 0).encode.length } 0 = some v := hv
    have hwrites : g.Writes [] (Instr.assign length offset hash 0).encode.length
        { g with ip := g.ip + (Instr.assign length offset hash 0).encode.length } := ⟨rfl, rfl, fun _ _ => rfl⟩
    have hexec : ∃ h', execInstr h base g.ip { g with ip := g.ip + (Instr.assign length offset hash 0).encode.length } a
        (.assign length offset hash 0) =
          some (h', { g with ip := g.ip + (Instr.assign length offset hash 0).encode.length }, none) := by
      simp only [execInstr, hread, Option.bind_eq_bind, Option.bind_some]
      split
      case h_1 => exact ⟨_, rfl⟩
      case h_2 => exact ⟨_, rfl⟩
      case h_3 _ hnil => exact absurd hnil hstack
    obtain ⟨h', hexec⟩ := hexec
    exact ⟨h', _, none, hexec, hwrites⟩
  · cases hfalse

/-- A literal that is looked for in the number cache. -/
theorem literal {number : NumberOperand} {n : Number} (hat : s.At c f)
    (hcode : f.CodeAt ((Instr.loadNumber 0 number).encode ++ code))
    (hstop : f.ip + (Instr.loadNumber 0 number).encode.length ≤ stop) (hregisters : 0 < f.registers.length)
    (hkey : number.cacheKey ≠ none) (hnumber : f.module.numberAt number = some n)
    (hnext : ∀ t g v, t.At c g → f.Writes [0] (Instr.loadNumber 0 number).encode.length g → g.read 0 = some v →
      Converses c keep stop (k v) t g) : Converses c keep stop (.question (.literal n) >>= k) s f := by
  obtain ⟨key, hkey⟩ := Option.ne_none_iff_exists'.mp hkey
  have hquestion : (Instr.loadNumber 0 number).question f = some (.literal n) := by
    show number.cacheKey.bind _ = _
    rw [hkey, Option.bind_some, hnumber]
    rfl
  refine answer [0] hat hcode hstop (by simp) hquestion (by simp) hregisters ?_ hnext
  rintro g hg h base a
  rw [hquestion] at hg
  rcases hg with rfl | ⟨hfalse, -⟩
  · have hnumber' : Module.numberAt ({ g with ip := g.ip + (Instr.loadNumber 0 number).encode.length } : Frame).module
        number = some n := hnumber
    have hregisters' : (0 : UInt8).toNat <
        ({ g with ip := g.ip + (Instr.loadNumber 0 number).encode.length } : Frame).registers.length := hregisters
    obtain ⟨h', g', hexec, -⟩ := execLoadNumber_of_numberAt (h := h) hregisters' hnumber'
    obtain ⟨v, hwrite⟩ := execLoadNumber_write hexec
    exact ⟨h', g', none, hexec, Frame.write_writes hwrite⟩
  · cases hfalse

/-- `OP_BOOL` asks an object only. -/
theorem bool {v : Value} (hat : s.At c f) (hcode : f.CodeAt ((Instr.op .bool).encode ++ code))
    (hstop : f.ip + (Instr.op .bool).encode.length ≤ stop) (hregisters : 0 < f.registers.length)
    (hv : f.read 0 = some v)
    (hnext : ∀ t g v', t.At c g → f.Writes [0] (Instr.op .bool).encode.length g → g.read 0 = some v' →
      Converses c keep stop (k v') t g) : Converses c keep stop (truth v >>= k) s f := by
  have hpos := List.length_pos_of_ne_nil (Instr.encode_ne_nil (.op .bool))
  by_cases hbool : ∃ b, v = .bool b
  · obtain ⟨b, rfl⟩ := hbool
    have hquestion : (Instr.op .bool).question f = none := by
      show (f.read 0).bind _ = none
      rw [hv]
      rfl
    refine move (f.ip + (Instr.op .bool).encode.length) f.sourceLocation hat hcode hstop (by simp) hquestion
      (by omega) ?_ fun t ht => hnext t _ _ ht ⟨rfl, rfl, fun _ _ => rfl⟩ hv
    intro h base a
    have hread : Frame.read { f with ip := f.ip + (Instr.op .bool).encode.length } 0 = some (.bool b) := hv
    simp [execInstr, execOp, hread]
  · have hquestion : (Instr.op .bool).question f = some (.truth v) := by
      show (f.read 0).bind _ = _
      rw [hv]
      cases v <;> first | rfl | exact absurd ⟨_, rfl⟩ hbool
    have htruth : truth v = .question (.truth v) := by
      cases v <;> first | rfl | exact absurd ⟨_, rfl⟩ hbool
    rw [htruth]
    refine answer [0] hat hcode hstop (by simp) hquestion (by simp) hregisters ?_ hnext
    intro g hg h base a
    have hanswered : f.Answered g := hg.elim (fun heq => Or.inl heq) And.right
    have hmove := hanswered.move (f.ip + (Instr.op .bool).encode.length)
    have hlength : (0 : UInt8).toNat <
        ({ g with ip := f.ip + (Instr.op .bool).encode.length } : Frame).registers.length :=
      hanswered.length.symm ▸ hregisters
    obtain ⟨w, hw⟩ := Frame.exists_read hlength
    by_cases hcalled : ∃ b, w = .bool b
    · -- a call has put a truth value there
      obtain ⟨b, rfl⟩ := hcalled
      exact ⟨h, _, none, by simp [execInstr, execOp, hw], hmove.writes⟩
    · obtain ⟨g', hwrite, -⟩ := Frame.exists_write a.value hlength
      refine ⟨h, g', a.err, ?_, hmove.write_writes hwrite (by simp) (by simp)⟩
      cases w <;> first | exact absurd ⟨_, rfl⟩ hcalled | simp [execInstr, execOp, hw, hwrite]

theorem negation {v : Value} (hat : s.At c f) (hcode : f.CodeAt ((Instr.op .negation).encode ++ code))
    (hstop : f.ip + (Instr.op .negation).encode.length ≤ stop) (hregisters : 0 < f.registers.length)
    (hv : f.read 0 = some v)
    (hnext : ∀ t g v', t.At c g → f.Writes [0] (Instr.op .negation).encode.length g → g.read 0 = some v' →
      Converses c keep stop (k v') t g) : Converses c keep stop (.question (.negation v) >>= k) s f := by
  have hquestion : (Instr.op .negation).question f = some (.negation v) := by
    show (f.read 0).bind _ = _
    rw [hv]
    rfl
  refine answer [0] hat hcode hstop (by simp) hquestion (by simp) hregisters ?_ hnext
  intro g hg h base a
  have hanswered : f.Answered g := hg.elim (fun heq => Or.inl heq) And.right
  have hmove := hanswered.move (f.ip + (Instr.op .negation).encode.length)
  have hlength : (0 : UInt8).toNat <
      ({ g with ip := f.ip + (Instr.op .negation).encode.length } : Frame).registers.length :=
    hanswered.length.symm ▸ hregisters
  obtain ⟨g', hwrite, -⟩ := Frame.exists_write a.value hlength
  exact ⟨h, g', a.err, by simp [execInstr, execOp, hwrite, Op.raises],
    hmove.write_writes hwrite (by simp) (by simp)⟩

theorem binary {o : BinaryOp} {registerA registerB registerC : UInt8} {a b : Value} (hat : s.At c f)
    (hcode : f.CodeAt ((Instr.binary o registerA registerB registerC).encode ++ code))
    (hstop : f.ip + (Instr.binary o registerA registerB registerC).encode.length ≤ stop)
    (hfree : registerC = 0 ∨ keep ≤ registerC.toNat) (hr : registerC.toNat < f.registers.length)
    (ha : f.read registerA = some a) (hb : f.read registerB = some b)
    (hnext : ∀ t g v, t.At c g →
      f.Writes [0, registerC] (Instr.binary o registerA registerB registerC).encode.length g →
        g.read registerC = some v → Converses c keep stop (k v) t g) :
    Converses c keep stop (.question (.binary o a b) >>= k) s f := by
  have hquestion : (Instr.binary o registerA registerB registerC).question f = some (.binary o a b) := by
    show (f.read registerA).bind _ = _
    rw [ha]
    show (f.read registerB).bind _ = _
    rw [hb]
    rfl
  refine answer [0, registerC] hat hcode hstop (by simp) hquestion (by simpa using hfree) hr ?_ hnext
  intro g hg h base answer
  have hanswered : f.Answered g := hg.elim (fun heq => Or.inl heq) And.right
  have hmove := hanswered.move (f.ip + (Instr.binary o registerA registerB registerC).encode.length)
  have hread : ∀ {r : UInt8} {v : Value}, f.read r = some v → ∃ w,
      Frame.read { g with ip := f.ip + (Instr.binary o registerA registerB registerC).encode.length } r = some w := by
    intro r v hv
    refine Frame.exists_read ?_
    rw [hmove.length]
    exact (List.getElem?_eq_some_iff.mp hv).1
  obtain ⟨a', ha'⟩ := hread ha
  obtain ⟨b', hb'⟩ := hread hb
  -- the calls leave something in register 0, and then the answer is written
  obtain ⟨g₁, hclobber⟩ : ∃ g₁, Frame.clobber
      { g with ip := f.ip + (Instr.binary o registerA registerB registerC).encode.length } answer = some g₁ := by
    unfold Frame.clobber
    cases answer.register0 with
    | none => exact ⟨_, rfl⟩
    | some v =>
      have hlength : (0 : UInt8).toNat < ({ g with
          ip := f.ip + (Instr.binary o registerA registerB registerC).encode.length } : Frame).registers.length := by
        rw [hmove.length]
        exact Nat.lt_of_le_of_lt (Nat.zero_le _) hr
      obtain ⟨g₁, hwrite, -⟩ := Frame.exists_write v hlength
      exact ⟨g₁, hwrite⟩
  have hclobbered := hmove.clobber hclobber
  obtain ⟨g', hwrite, -⟩ := Frame.exists_write (f := g₁) answer.value (hclobbered.length.symm ▸ hr)
  exact ⟨h, g', answer.err, by simp [execInstr, ha', hb', hclobber, hwrite],
    hclobbered.write_writes hwrite (by simp) (by simp)⟩

end Converses

end Chloride
