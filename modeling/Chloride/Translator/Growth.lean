import Chloride.Logic.Hoare
import Chloride.Translator.Translate

/-!
# The translator only appends

Every part of a tree is translated behind the code that is there, which stays as it is. The operands
that are set later are the reason that this needs a proof: a loop sets the places of its breaks, a
block those of its returns, and they are behind the start of the loop or of the block because the array
they are in was empty there (`Grows`).

`Emits` follows the programs of the translator line by line; `translateParsed_code` is the result.
-/

namespace Chloride

open Hoare

/-- The places in an array are behind some code, unless they were in the array before. -/
def Positions.Behind (n : ℕ) (old positions : Positions) : Prop :=
  ∀ l, positions = .live l → ∀ x ∈ l, n ≤ x ∨ ∃ l', old = .live l' ∧ x ∈ l'

/-- The code stays, and what is set later is behind it, apart from what was to be set before. -/
structure Grows (t t' : Translated) : Prop where
  code : t.bytecode <+: t'.bytecode
  breaks : Positions.Behind t.bytecode.length t.breakJump.positions t'.breakJump.positions
  returns : Positions.Behind t.bytecode.length t.returnJump.positions t'.returnJump.positions

/-- What runs behind the code of `t` ends with `Q`. -/
def Emits {α : Type} (t : Translated) (Q : α → Translated → Prop) (m : Translate α) : Prop :=
  Triple (Grows t) m Q

/-- A part of the translation that only appends. -/
def Growing {α : Type} (m : Translate α) : Prop := ∀ t, Emits t (fun _ => Grows t) m

/-! ## Growing states -/

theorem Positions.behind_refl (n : ℕ) (positions : Positions) : Behind n positions positions :=
  fun l hl _ hx => .inr ⟨l, hl, hx⟩

theorem Positions.Behind.trans {n n' : ℕ} {a b c : Positions} (h : Behind n a b) (h' : Behind n' b c)
    (hn : n ≤ n') : Behind n a c := by
  intro l hl x hx
  rcases h' l hl x hx with hx | ⟨l', hl', hx'⟩
  · exact .inl (hn.trans hx)
  · exact h l' hl' x hx'

theorem Positions.behind_of_ne_live {n : ℕ} {old positions : Positions}
    (h : ∀ l, positions ≠ .live l) : Behind n old positions :=
  fun l hl => absurd hl (h l)

/-- A place is added to an array. -/
theorem Positions.Behind.push {n x : ℕ} {old positions positions' : Positions}
    (h : Behind n old positions) (hx : n ≤ x) (hpush : positions.push x = some positions') :
    Behind n old positions' := by
  cases positions with
  | null => cases hpush
  | dangling => cases hpush
  | live l =>
    cases hpush
    intro l' hl' y hy
    cases hl'
    rcases List.mem_append.mp hy with hy | hy
    · exact h l rfl y hy
    · rw [List.mem_singleton.mp hy]
      exact .inl hx

namespace Grows

variable {t t' u : Translated}

theorem refl (t : Translated) : Grows t t where
  code := List.prefix_rfl
  breaks := Positions.behind_refl _ _
  returns := Positions.behind_refl _ _

theorem trans (h : Grows t t') (h' : Grows t' u) : Grows t u where
  code := h.code.trans h'.code
  breaks := h.breaks.trans h'.breaks h.code.length_le
  returns := h.returns.trans h'.returns h.code.length_le

/-- Neither the code nor the arrays of positions change. -/
theorem quiet (h : Grows t t') (hcode : u.bytecode = t'.bytecode)
    (hbreak : u.breakJump.positions = t'.breakJump.positions)
    (hreturn : u.returnJump.positions = t'.returnJump.positions) : Grows t u where
  code := hcode ▸ h.code
  breaks := hbreak ▸ h.breaks
  returns := hreturn ▸ h.returns

/-- Code is appended. -/
theorem append (h : Grows t t') (bytes : List UInt8) :
    Grows t { t' with bytecode := t'.bytecode ++ bytes } where
  code := h.code.trans (List.prefix_append _ _)
  breaks := h.breaks
  returns := h.returns

/-- An operand behind the code is set. -/
theorem setBytes (h : Grows t t') {index : ℕ} (hindex : t.bytecode.length ≤ index) (code : UInt64) :
    Grows t { t' with bytecode := Chloride.setBytes t'.bytecode index code } where
  code := by
    have htake : t'.bytecode.take index <+: Chloride.setBytes t'.bytecode index code := by
      unfold Chloride.setBytes
      rw [List.append_assoc]
      exact List.prefix_append _ _
    exact (List.prefix_take_iff.mpr ⟨h.code, hindex⟩).trans htake
  breaks := h.breaks
  returns := h.returns

end Grows

/-! ## Programs that emit code -/

namespace Growing

variable {α : Type}

theorem pure (a : α) : Growing (Pure.pure a : Translate α) := fun _ => Triple.pure fun _ h => h

/-- A change of the state that is not one of the code. -/
theorem quiet {g : Translated → Translated} (hcode : ∀ t, (g t).bytecode = t.bytecode)
    (hbreak : ∀ t, (g t).breakJump.positions = t.breakJump.positions)
    (hreturn : ∀ t, (g t).returnJump.positions = t.returnJump.positions) :
    Growing (modify g : Translate Unit) :=
  fun _ => Triple.of_modify fun s h => h.quiet (hcode s) (hbreak s) (hreturn s)

theorem setRegisters (count : UInt8) : Growing (setRegisters count) :=
  quiet (fun t => by split <;> rfl) (fun t => by split <;> rfl) fun t => by split <;> rfl

theorem freeRegisters (n : UInt8) : Growing (freeRegisters n) :=
  quiet (fun _ => rfl) (fun _ => rfl) fun _ => rfl

theorem enterScope : Growing enterScope := quiet (fun _ => rfl) (fun _ => rfl) fun _ => rfl

theorem leaveScope : Growing leaveScope := quiet (fun _ => rfl) (fun _ => rfl) fun _ => rfl

theorem enterHandler : Growing enterHandler := quiet (fun _ => rfl) (fun _ => rfl) fun _ => rfl

theorem leaveHandler : Growing leaveHandler := quiet (fun _ => rfl) (fun _ => rfl) fun _ => rfl

theorem raise (loc : SourceLocation) (message : String) : Growing (raise loc message) :=
  quiet (fun _ => rfl) (fun _ => rfl) fun _ => rfl

theorem newContinueJump (pos : ℕ) : Growing (newContinueJump pos) :=
  quiet (fun _ => rfl) (fun _ => rfl) fun _ => rfl

theorem bind {β : Type} {m : Translate β} {f : β → Translate α} (hm : Growing m)
    (hf : ∀ b, Growing (f b)) : Growing (m >>= f) :=
  fun t => (hm t).bind fun b => hf b t

theorem ite {c : Prop} [Decidable c] {m n : Translate α} (hm : Growing m) (hn : Growing n) :
    Growing (if c then m else n) :=
  fun t => Triple.ite (fun _ => hm t) fun _ => hn t

/-- The loop over an array. -/
theorem forEach {β : Type} {body : ℕ → β → Translate Bool} {i : ℕ} {xs : List β}
    (h : ∀ i, ∀ x ∈ xs, Growing (body i x)) : Growing (forEach body i xs) := by
  induction xs generalizing i with
  | nil => exact pure _
  | cons x xs ih =>
    refine (h i x List.mem_cons_self).bind fun b => ite (ih ?_) (pure _)
    exact fun i y hy => h i y (List.mem_cons_of_mem _ hy)

theorem get {f : Translated → Translate α} (h : ∀ s, Growing (f s)) :
    Growing (MonadState.get >>= f) :=
  fun t => Triple.get_bind fun s _ => h s t

theorem isError : Growing isError := get fun _ => pure _

theorem setAssignedRegisters : Growing setAssignedRegisters := get fun _ => setRegisters _

theorem newRegister : Growing newRegister := by
  intro t u register u' hu hrun
  cases hrun
  exact hu.quiet rfl rfl rfl

theorem arenaPush (siphash : List UInt8 → UInt64) (data : List UInt8) :
    Growing (arenaPush siphash data) := by
  intro t u offset u' hu hrun
  cases hrun
  exact hu.quiet rfl rfl rfl

end Growing

namespace Emits

variable {α β : Type} {t : Translated} {Q : α → Translated → Prop} {m : Translate α}
  {f : β → Translate α}

theorem pure {a : α} (h : ∀ u, Grows t u → Q a u) : Emits t Q (Pure.pure a : Translate α) :=
  Triple.pure h

/-- The function returns. -/
theorem done (a : α) : Emits t (fun _ => Grows t) (Pure.pure a : Translate α) := Growing.pure a t

/-- A part of the tree, and what comes behind it. -/
theorem part {n : Translate β} (hn : Growing n) (hf : ∀ b, Emits t Q (f b)) : Emits t Q (n >>= f) :=
  (hn t).bind hf

theorem ite {c : Prop} [Decidable c] {n : Translate α} (hm : Emits t Q m) (hn : Emits t Q n) :
    Emits t Q (if c then m else n) :=
  Triple.ite (fun _ => hm) fun _ => hn

/-- The function returns if there is an error. -/
theorem check {n : Translate α} (hm : Emits t Q m) (hn : Emits t Q n) :
    Emits t Q (isError >>= fun b => if b = true then m else n) :=
  part Growing.isError fun _ => ite hm hn

/-- A part whose result is told something about, and what comes behind it. -/
theorem fact {n : Translate β} {p : β → Prop} (hn : Emits t (fun b u => p b ∧ Grows t u) n)
    (hf : ∀ b, p b → Emits t Q (f b)) : Emits t Q (n >>= f) :=
  Triple.bind hn fun b => Triple.of_fact (hf b)

/-- The state is kept for later. -/
theorem get {f : Translated → Translate α} (hf : ∀ s, Grows t s → Emits t Q (f s)) :
    Emits t Q (MonadState.get >>= f) :=
  Triple.get_bind hf

/-- A change that leaves the code and what is set later behind that of `t`. -/
theorem update {g : Translated → Translated} {f : Unit → Translate α}
    (hg : ∀ u, Grows t u → Grows t (g u)) (hf : Emits t Q (f ⟨⟩)) : Emits t Q (modify g >>= f) :=
  Triple.modify_bind hg hf

theorem clearJumps {f : Unit → Translate α} (hf : Emits t Q (f ⟨⟩)) :
    Emits t Q (clearJumps >>= f) := by
  refine update (fun u hu => ?_) hf
  exact ⟨hu.code, Positions.behind_of_ne_live nofun, Positions.behind_of_ne_live nofun⟩

theorem restoreJumps {old : Translated} (hold : Grows t old) {f : Unit → Translate α}
    (hf : Emits t Q (f ⟨⟩)) : Emits t Q (restoreJumps old >>= f) :=
  update (fun _ hu => ⟨hu.code, hold.breaks, hold.returns⟩) hf

/-- `return_jump` is set back. -/
theorem restoreReturn {old : Translated} (hold : Grows t old) {f : Unit → Translate α}
    (hf : Emits t Q (f ⟨⟩)) :
    Emits t Q ((modify fun t => { t with returnJump := old.returnJump }) >>= f) :=
  update (fun _ hu => ⟨hu.code, hu.breaks, hold.returns⟩) hf

theorem bytecodeSize {f : ℕ → Translate α} (hf : ∀ n, t.bytecode.length ≤ n → Emits t Q (f n)) :
    Emits t Q (bytecodeSize >>= f) := by
  refine Triple.bind (R := fun n u => t.bytecode.length ≤ n ∧ Grows t u) ?_ fun n =>
    Triple.of_fact (hf n)
  intro u n u' hu hrun
  cases hrun
  exact ⟨hu.code.length_le, hu⟩

theorem push {i : Instr} {f : ℕ → Translate α}
    (hf : ∀ n, t.bytecode.length ≤ n → Emits t Q (f n)) : Emits t Q (push i >>= f) := by
  refine Triple.bind (R := fun n u => t.bytecode.length ≤ n ∧ Grows t u) ?_ fun n =>
    Triple.of_fact (hf n)
  intro u n u' hu hrun
  cases hrun
  exact ⟨hu.code.length_le, (hu.append i.encode).quiet rfl rfl rfl⟩

/-- The last instruction. -/
theorem last (i : Instr) : Emits t (fun _ => Grows t) (Chloride.push i) := by
  intro u n u' hu hrun
  cases hrun
  exact (hu.append i.encode).quiet rfl rfl rfl

theorem pushInstructionByte {register : UInt8} {f : ℕ → Translate α}
    (hf : ∀ n, Emits t Q (f n)) : Emits t Q (pushInstructionByte register >>= f) := by
  refine Triple.bind (R := fun _ u => Grows t u) ?_ hf
  intro u n u' hu hrun
  cases hrun
  exact (hu.append [register]).quiet rfl rfl rfl

theorem setInstructionCode {index code : ℕ} {f : Unit → Translate α}
    (hindex : t.bytecode.length ≤ index) (hf : Emits t Q (f ⟨⟩)) :
    Emits t Q (setInstructionCode index code >>= f) := by
  refine Triple.bind (R := fun _ => Grows t) ?_ fun _ => hf
  refine Triple.get_bind fun u _ => Triple.ite (fun _ => ?_) fun _ => Triple.failure
  exact Triple.of_modify fun u hu => hu.setBytes hindex _

/-- The operands at the places of an array are set. -/
theorem setInstructionCodes_last {code : ℕ} {indices : List ℕ}
    (h : ∀ index ∈ indices, t.bytecode.length ≤ index) :
    Emits t (fun _ => Grows t) (setInstructionCodes code indices) := by
  induction indices with
  | nil => exact done _
  | cons index indices ih =>
    exact setInstructionCode (h index List.mem_cons_self) <|
      ih fun index hindex => h index (List.mem_cons_of_mem _ hindex)

theorem setInstructionCodes {code : ℕ} {indices : List ℕ} {f : Unit → Translate α}
    (h : ∀ index ∈ indices, t.bytecode.length ≤ index) (hf : Emits t Q (f ⟨⟩)) :
    Emits t Q (setInstructionCodes code indices >>= f) :=
  Triple.bind (setInstructionCodes_last h) fun _ => hf

/-- The places in an array that was empty are behind the code. -/
theorem positions {positions : Positions} {f : List ℕ → Translate α}
    (h : Positions.Behind t.bytecode.length (.live []) positions)
    (hf : ∀ l, (∀ x ∈ l, t.bytecode.length ≤ x) → Emits t Q (f l)) :
    Emits t Q (positions.get >>= f) := by
  cases positions with
  | null => exact fun _ _ _ _ hrun => nomatch hrun
  | dangling => exact fun _ _ _ _ hrun => nomatch hrun
  | live l =>
    refine hf l fun x hx => ?_
    rcases h l rfl x hx with hx | ⟨l', hl', hx'⟩
    · exact hx
    · cases hl'
      cases hx'

end Emits

/-! ## The functions of the translator -/

section

variable (siphash : List UInt8 → UInt64)

theorem translateParsedString_growing (string : List UInt8) :
    Growing (translateParsedString siphash string) := by
  intro t
  unfold translateParsedString
  exact .part (.arenaPush siphash string) fun _ => .part (.setRegisters 1) fun _ => .last _

theorem translateParsedNumber_growing (number : Mpq) (toRegister : UInt8) :
    Growing (translateParsedNumber siphash number toRegister) := by
  intro t
  unfold translateParsedNumber
  refine .part (.setRegisters _) fun _ => ?_
  cases mpqToInt64 number with
  | some i64 => exact .last _
  | none =>
    refine .part (.arenaPush siphash _) fun _ => .ite (.last _) ?_
    exact .part (.arenaPush siphash _) fun _ => .last _

theorem translateParsedIdentifier_growing (identifier : ParsedIdentifier) :
    Growing (translateParsedIdentifier siphash identifier) := by
  intro t
  unfold translateParsedIdentifier
  refine .part (.arenaPush siphash _) fun _ => .part (.setRegisters 1) fun _ => ?_
  exact .push fun _ _ => .push fun _ _ => .done _

theorem translateNull_growing : Growing translateNull :=
  fun _ => .part (.setRegisters 1) fun _ => .last _

theorem translateBoolean_growing (value : Bool) : Growing (translateBoolean value) :=
  fun _ => .part (.setRegisters 1) fun _ => .last _

/-- The jumps of `&&` and `||` are behind the code that was there. -/
theorem translateShortCircuitOperands_emits (isOr : Bool) (registerA : UInt8) {i first : ℕ}
    {operands : List (Translate ℕ)} (h : ∀ v ∈ operands, Growing v) (t : Translated) :
    Emits t (fun r u => (∀ jumps, r.2 = some jumps → ∀ jump ∈ jumps, t.bytecode.length ≤ jump) ∧
      Grows t u) (translateShortCircuitOperands isOr registerA i first operands) := by
  induction operands generalizing i first with
  | nil =>
    refine .pure fun u hu => ⟨fun jumps hjumps jump hjump => ?_, hu⟩
    cases hjumps
    cases hjump
  | cons operand operands ih =>
    unfold translateShortCircuitOperands
    refine .part (h operand List.mem_cons_self) fun position => ?_
    extract_lets first jp
    have hjp : ∀ r, Emits t (fun r u => (∀ jumps, r.2 = some jumps → ∀ jump ∈ jumps,
        t.bytecode.length ≤ jump) ∧ Grows t u) (jp r) := by
      intro r
      refine .push fun n hn => .fact (ih fun v hv => h v (List.mem_cons_of_mem _ hv)) fun r hr => ?_
      refine .pure fun u hu => ⟨fun jumps hjumps jump hjump => ?_, hu⟩
      obtain ⟨jumps', hjumps', rfl⟩ := Option.map_eq_some_iff.mp hjumps
      rcases List.mem_cons.mp hjump with rfl | hjump
      · omega
      · exact hr jumps' hjumps' jump hjump
    clear_value jp
    refine .check (.pure fun u hu => ⟨fun jumps hjumps => (nomatch hjumps), hu⟩) ?_
    exact .push fun _ _ => .push fun _ _ => .ite (.push fun _ _ => hjp _) (hjp _)

theorem translateShortCircuit_growing (isOr : Bool) {operands : List (Translate ℕ)}
    (h : ∀ v ∈ operands, Growing v) : Growing (translateShortCircuit isOr operands) := by
  intro t
  unfold translateShortCircuit
  refine .part .newRegister fun registerA => .part .setAssignedRegisters fun _ => ?_
  refine .fact (translateShortCircuitOperands_emits isOr registerA h t) fun r hr => ?_
  obtain ⟨first, jumps⟩ := r
  cases jumps with
  | none => exact .done _
  | some jumps =>
    refine .bytecodeSize fun _ _ => .setInstructionCodes (hr jumps rfl) ?_
    exact .push fun _ _ => .push fun _ _ => .done _

theorem translateBinary_growing (loc : SourceLocation) (operation : OperationToken)
    {operand : Translate ℕ} {rest : List (Translate ℕ)} (hoperand : Growing operand)
    (hrest : ∀ v ∈ rest, Growing v) : Growing (translateBinary loc operation operand rest) := by
  intro t
  unfold translateBinary pushSourceLocation
  refine .part .newRegister fun registerA => .part .newRegister fun registerB => ?_
  refine .part .setAssignedRegisters fun _ => .part hoperand fun _ => .check (.done _) ?_
  refine .push fun _ _ => .part (.forEach fun i v hv u => ?_) fun done => .ite (.done _) ?_
  · refine .part (hrest v hv) fun _ => .check (.done _) <| .push fun _ _ => .push fun _ _ => ?_
    cases operation.opcode with
    | none => exact .part (.raise _ _) fun _ => .done _
    | some opcode => exact .push fun _ _ => .done _
  · exact .push fun _ _ => .push fun _ _ => .part (.freeRegisters 2) fun _ => .done _

theorem translateOperation_growing (loc : SourceLocation) (operation : OperationToken)
    {first : Translate ℕ} {rest : List (Translate ℕ)} (h : ∀ v ∈ first :: rest, Growing v) :
    Growing (translateOperation loc operation first rest) := by
  have hbinary := translateBinary_growing loc operation (h first List.mem_cons_self)
    fun v hv => h v (List.mem_cons_of_mem _ hv)
  cases operation with
  | and => exact translateShortCircuit_growing false h
  | or => exact translateShortCircuit_growing true h
  | _ => exact hbinary

theorem translateNegation_growing {value : Translate ℕ} (h : Growing value) :
    Growing (translateNegation value) :=
  fun _ => .part (.setRegisters 1) fun _ => .part h fun _ => .push fun _ _ => .done _

theorem translateToBool_growing (invert : Bool) {value : Translate ℕ} (h : Growing value) :
    Growing (translateToBool invert value) := by
  intro t
  unfold translateToBool
  refine .part h fun _ => .push fun _ _ => ?_
  exact .ite (.push fun _ _ => .done _) (.done _)

theorem translateConditional_growing {condition trueBody falseBody : Translate ℕ}
    (hcondition : Growing condition) (htrue : Growing trueBody) (hfalse : Growing falseBody) :
    Growing (translateConditional condition trueBody falseBody) := by
  intro t
  unfold translateConditional
  refine .part hcondition fun _ => .push fun _ _ => .push fun jumpIndex hjump => ?_
  refine .part htrue fun _ => .push fun skipIndex hskip => .part hfalse fun _ => ?_
  refine .setInstructionCode (by omega) <| .bytecodeSize fun _ _ => ?_
  exact .setInstructionCode (by omega) <| .done _

/-! ### Functions and calls -/

theorem translateParsedFunction_growing (header : FunctionHeader)
    {defaults : Option (List (Name × Translate ℕ))} {body : Translate ℕ}
    (hdefaults : ∀ vs ∈ defaults, ∀ v ∈ vs, Growing v.2) :
    Growing (translateParsedFunction siphash header defaults body) := by
  intro t
  unfold translateParsedFunction
  refine .get fun main hmain => ?_
  -- Whatever the body does, the code and the jumps are set back.
  refine Triple.conseq (P := fun _ => True) ?_ (fun _ _ => trivial) fun _ _ h => h
  refine .skip fun _ => .skip fun _ => .skip fun _ => .skip fun _ => .skip fun offset => ?_
  refine Triple.modify_bind (R := Grows t) (fun _ _ => ⟨hmain.code, hmain.breaks, hmain.returns⟩) ?_
  show Emits t _ _
  refine .bytecodeSize fun start _ => .part (.arenaPush siphash _) fun _ => .push fun _ _ => ?_
  refine .part (.forEach fun i name _ u => ?_) fun _ => ?_
  · exact .part (.arenaPush siphash _) fun _ => .push fun _ _ => .done _
  extract_lets returned withDefaults withKeyWords
  have hdefaults : Emits t (fun _ => Grows t) (withDefaults ⟨⟩) := by
    unfold withDefaults
    cases defaults with
    | none => exact .done _
    | some defaults =>
      refine .part .newRegister fun _ => .part .setAssignedRegisters fun _ => .push fun _ _ => ?_
      refine .part (.forEach fun i parameter hparameter u => ?_) fun _ => ?_
      · refine .part (hdefaults defaults rfl parameter hparameter) fun _ => ?_
        exact .part (.arenaPush siphash _) fun _ => .push fun _ _ => .done _
      · exact .push fun _ _ => .part (.freeRegisters 1) fun _ => .done _
  have hkeyWords : Emits t (fun _ => Grows t) (withKeyWords ⟨⟩) := by
    unfold withKeyWords
    cases header.kwParameter with
    | none => exact hdefaults
    | some name => exact .part (.arenaPush siphash _) fun _ => .push fun _ _ => hdefaults
  cases header.vParameter with
  | none => exact hkeyWords
  | some name => exact .part (.arenaPush siphash _) fun _ => .push fun _ _ => hkeyWords

theorem translateParsedCall_growing (line column : UInt64) {toCall : Translate ℕ}
    {args : List (Translate ℕ)} {vArg : Option (Translate ℕ)} {kwargs : List (Name × Translate ℕ)}
    {kwArg : Option (Translate ℕ)} (htoCall : Growing toCall) (hargs : ∀ v ∈ args, Growing v)
    (hvArg : ∀ v ∈ vArg, Growing v) (hkwargs : ∀ v ∈ kwargs, Growing v.2)
    (hkwArg : ∀ v ∈ kwArg, Growing v) :
    Growing (translateParsedCall siphash line column toCall args vArg kwargs kwArg) := by
  intro t
  unfold translateParsedCall
  refine .part (.setRegisters 1) fun _ => .part htoCall fun first => .check (.done _) ?_
  refine .push fun _ _ => .push fun _ _ => .part .enterScope fun _ => .get fun old hold => ?_
  refine .clearJumps <| .part (.forEach fun i v hv u => ?_) fun done => ?_
  · exact .part (hargs v hv) fun _ => .check (.done _) <| .push fun _ _ => .done _
  · refine .ite (.restoreReturn hold <| .done _) ?_
    extract_lets finish keywords
    have hfinish : Emits t (fun _ => Grows t) (finish ⟨⟩) :=
      .restoreJumps hold <| .push fun _ _ => .part .leaveScope fun _ => .push fun _ _ =>
        .push fun _ _ => .done _
    have hkeywords : Emits t (fun _ => Grows t) (keywords ⟨⟩) := by
      refine .part (.forEach fun i arg harg u => ?_) fun done => ?_
      · refine .part (hkwargs arg harg) fun _ => .check (.done _) ?_
        exact .part (.arenaPush siphash _) fun _ => .part (.setRegisters 1) fun _ =>
          .push fun _ _ => .done _
      · refine .ite (.restoreReturn hold <| .done _) ?_
        cases kwArg with
        | none => exact hfinish
        | some kwArg => exact .part (hkwArg kwArg rfl) fun _ => .push fun _ _ => hfinish
    cases vArg with
    | none => exact hkeywords
    | some vArg => exact .part (hvArg vArg rfl) fun _ => .push fun _ _ => hkeywords

theorem translateAccess_growing (loc : SourceLocation) {toAccess access : Translate ℕ}
    (htoAccess : Growing toAccess) (haccess : Growing access) :
    Growing (translateAccess loc toAccess access) := by
  intro t
  unfold translateAccess pushSourceLocation
  refine .part (.setRegisters 1) fun _ => .part htoAccess fun _ => .check (.done _) ?_
  refine .push fun _ _ => .push fun _ _ => .part haccess fun _ => .check (.done _) ?_
  exact .push fun _ _ => .push fun _ _ => .push fun _ _ => .done _

theorem translateSubscripts_growing {subscripts : List (List (Option (Translate ℕ)))}
    (h : ∀ s ∈ subscripts, ∀ o ∈ s, ∀ v ∈ o, Growing v) : Growing (translateSubscripts subscripts) := by
  intro t
  unfold translateSubscripts
  extract_lets inserted inserted' insertTuple tuple
  have hinsertTuple : Emits t (fun _ => Grows t) (insertTuple ⟨⟩) := .push fun _ _ => .done _
  have htuple : Emits t (fun _ => Grows t) (tuple ⟨⟩) := by
    refine .part (.forEach fun i subscript hs u => ?_) fun done =>
      .ite (.done _) <| .ite (.push fun _ _ => hinsertTuple) hinsertTuple
    extract_lets insertSlice slice
    have hinsertSlice : Emits u (fun _ => Grows u) (insertSlice ⟨⟩) :=
      .ite (.push fun _ _ => .done _) (.done _)
    have hslice : Emits u (fun _ => Grows u) (slice ⟨⟩) := by
      refine .part (.forEach fun j item hitem w => ?_) fun done =>
        .ite (.done _) <| .ite (.push fun _ _ => hinsertSlice) hinsertSlice
      extract_lets insertItem
      have hinsertItem : Emits w (fun _ => Grows w) (insertItem ⟨⟩) :=
        .ite (.push fun _ _ => .done _) (.done _)
      cases item with
      | none => exact .push fun _ _ => hinsertItem
      | some v => exact .part (h subscript hs _ hitem v rfl) fun _ => .check (.done _) hinsertItem
    exact .ite (.push fun _ _ => .push fun _ _ => hslice) hslice
  exact .ite (.push fun _ _ => .push fun _ _ => htuple) htuple

theorem translateItemAccess_growing (loc : SourceLocation) {toAccess : Translate ℕ}
    {subscripts : List (List (Option (Translate ℕ)))} (htoAccess : Growing toAccess)
    (hsubscripts : ∀ s ∈ subscripts, ∀ o ∈ s, ∀ v ∈ o, Growing v) :
    Growing (translateItemAccess loc toAccess subscripts) := by
  intro t
  unfold translateItemAccess pushSourceLocation
  refine .part (.setRegisters 1) fun _ => .part htoAccess fun _ => .check (.done _) ?_
  refine .push fun _ _ => .push fun _ _ => .part (translateSubscripts_growing hsubscripts) fun _ => ?_
  exact .ite (.done _) <| .push fun _ _ => .push fun _ _ => .done _

/-- The parts of the target of an assignment or a deletion only append. -/
def GrowingTarget : AssignableOf (Translate ℕ) → Prop
  | .identifier _ => True
  | .access toAccess access => Growing toAccess ∧ Growing access
  | .itemAccess toAccess subscripts =>
    Growing toAccess ∧ ∀ s ∈ subscripts, ∀ o ∈ s, ∀ v ∈ o, Growing v

theorem translateParsedDelete_growing (loc : SourceLocation) {target : AssignableOf (Translate ℕ)}
    (h : GrowingTarget target) : Growing (translateParsedDelete siphash loc target) := by
  intro t
  unfold translateParsedDelete pushSourceLocation
  cases target with
  | identifier identifier =>
    refine .part (.arenaPush siphash _) fun _ => .part (.setRegisters 1) fun _ => ?_
    exact .push fun _ _ => .push fun _ _ => .done _
  | access toAccess access =>
    refine .part h.1 fun _ => .check (.done _) <| .push fun _ _ => .push fun _ _ => .push fun _ _ => ?_
    exact .part h.2 fun _ => .check (.done _) <| .push fun _ _ => .push fun _ _ => .done _
  | itemAccess toAccess subscripts =>
    refine .part h.1 fun _ => .check (.done _) <| .push fun _ _ => .push fun _ _ => .push fun _ _ => ?_
    refine .part (translateSubscripts_growing h.2) fun _ => .ite (.done _) ?_
    exact .push fun _ _ => .done _

theorem translateRange_growing (loc : SourceLocation) {start stop : Translate ℕ} (inclusive : Bool)
    (hstart : Growing start) (hstop : Growing stop) :
    Growing (translateRange loc start stop inclusive) := by
  intro t
  unfold translateRange pushSourceLocation
  refine .push fun _ _ => .push fun _ _ => .part hstart fun _ => .check (.done _) ?_
  refine .push fun _ _ => .part hstop fun _ => .check (.done _) ?_
  refine .push fun _ _ => .push fun _ _ => .push fun _ _ => ?_
  exact .ite (.push fun _ _ => .done _) (.done _)

theorem translateArray_growing {items : List (Translate ℕ)} (h : ∀ v ∈ items, Growing v) :
    Growing (translateArray items) := by
  intro t
  unfold translateArray
  refine .push fun _ _ => .push fun _ _ => .part (.forEach fun i v hv u => ?_) fun _ => ?_
  · exact .part (h v hv) fun _ => .check (.done _) <| .push fun _ _ => .done _
  · exact .ite (.done _) <| .push fun _ _ => .done _

theorem translateDictionary_growing {entries : List (Translate ℕ × Translate ℕ)}
    (h : ∀ e ∈ entries, Growing e.1 ∧ Growing e.2) : Growing (translateDictionary entries) := by
  intro t
  unfold translateDictionary
  refine .push fun _ _ => .part .newRegister fun _ => .push fun _ _ => .push fun _ _ => ?_
  refine .part .newRegister fun _ => .part .setAssignedRegisters fun _ => .push fun _ _ => ?_
  refine .part (.forEach fun i entry hentry u => ?_) fun _ => ?_
  · extract_lets insert
    have hinsert : Emits u (fun _ => Grows u) (insert ⟨⟩) := by
      refine .push fun _ _ => .part (h entry hentry).1 fun _ => .check (.done _) ?_
      refine .push fun _ _ => .part (h entry hentry).2 fun _ => .check (.done _) ?_
      exact .push fun _ _ => .push fun _ _ => .done _
    exact .ite (.push fun _ _ => hinsert) hinsert
  · refine .ite (.done _) <| .push fun _ _ => .push fun _ _ => .push fun _ _ => ?_
    exact .part (.freeRegisters 2) fun _ => .done _

theorem translateTemplater_growing {templater : Option (Translate ℕ)}
    (h : ∀ v ∈ templater, Growing v) : Growing (translateTemplater templater) := by
  intro t
  cases templater with
  | none => exact .push fun _ _ => .done _
  | some templater => exact .part (h templater rfl) fun _ => .check (.done _) <| .push fun _ _ => .done _

theorem translateParsedTemplate_growing {templater : Option (Translate ℕ)}
    {values : List (List UInt8 ⊕ Translate ℕ)} (htemplater : ∀ v ∈ templater, Growing v)
    (hvalues : ∀ v, .inr v ∈ values → Growing v) :
    Growing (translateParsedTemplate siphash templater values) := by
  intro t
  unfold translateParsedTemplate
  refine .part (.setRegisters 1) fun _ => .part (translateTemplater_growing htemplater) fun first => ?_
  cases first with
  | none => exact .done _
  | some first =>
    refine .push fun _ _ => .push fun _ _ => .part .enterScope fun _ => .push fun _ _ => ?_
    refine .push fun _ _ => .part (.forEach fun i item hitem u => ?_) fun _ => .ite (.done _) ?_
    · extract_lets insert
      have hinsert : Emits u (fun _ => Grows u) (insert ⟨⟩) :=
        .push fun _ _ => .push fun _ _ => .push fun _ _ => .done _
      refine .push fun _ _ => .push fun _ _ => .push fun _ _ => .push fun _ _ => ?_
      cases item with
      | inl string => exact .part (.arenaPush siphash _) fun _ => .push fun _ _ => hinsert
      | inr value => exact .part (hvalues value hitem) fun _ => .check (.done _) hinsert
    · refine .push fun _ _ => .push fun _ _ => .push fun _ _ => .push fun _ _ => ?_
      exact .part .leaveScope fun _ => .done _

/-! ### Assignments and declarations -/

theorem translateAssignTo_growing (loc : SourceLocation) (opcode : Option BinaryOp)
    (setMethod getMethod : Op) {toAccess : Translate ℕ} {access : Translate Bool}
    (htoAccess : Growing toAccess) (haccess : Growing access) :
    Growing (translateAssignTo loc opcode setMethod getMethod toAccess access) := by
  intro t
  unfold translateAssignTo pushSourceLocation
  extract_lets insert
  have hinsert : ∀ r, Emits t (fun _ => Grows t) (insert r) := fun _ =>
    .push fun _ _ => .push fun _ _ => .part (.freeRegisters 1) fun _ => .done _
  refine .part .newRegister fun _ => .part .setAssignedRegisters fun _ => .push fun _ _ => ?_
  refine .part htoAccess fun _ => .check (.done _) ?_
  cases opcode with
  | none =>
    refine .push fun _ _ => .push fun _ _ => .push fun _ _ => .part haccess fun _ => ?_
    exact .ite (.done _) <| .push fun _ _ => hinsert ⟨⟩
  | some opcode =>
    refine .part .newRegister fun _ => .push fun _ _ => .push fun _ _ => .push fun _ _ => ?_
    refine .push fun _ _ => .part haccess fun _ => .ite (.done _) <| .part .newRegister fun _ => ?_
    refine .part .setAssignedRegisters fun _ => .push fun _ _ => .push fun _ _ => .push fun _ _ => ?_
    refine .push fun _ _ => .push fun _ _ => .push fun _ _ => .push fun _ _ => .push fun _ _ => ?_
    exact .push fun _ _ => .part (.freeRegisters 2) hinsert

theorem translateParsedAssignment_growing (loc : SourceLocation)
    {target : AssignableOf (Translate ℕ)} (type : AssignToken) {value : Translate ℕ}
    (htarget : GrowingTarget target) (hvalue : Growing value) :
    Growing (translateParsedAssignment siphash loc target type value) := by
  intro t
  unfold translateParsedAssignment pushSourceLocation
  refine .part (.setRegisters 1) fun _ => .get fun old hold => .clearJumps ?_
  refine .part hvalue fun first => .check (.done _) ?_
  cases target with
  | identifier identifier =>
    refine .part (.arenaPush siphash _) fun pos => ?_
    extract_lets hash assign
    have hassign : ∀ r, Emits t (fun _ => Grows t) (assign r) := fun _ =>
      .push fun _ _ => .restoreJumps hold <| .done _
    cases type.opcode with
    | none => exact hassign ⟨⟩
    | some opcode =>
      refine .part .newRegister fun _ => .part .setAssignedRegisters fun _ => .push fun _ _ => ?_
      refine .push fun _ _ => .push fun _ _ => .push fun _ _ => ?_
      exact .part (.freeRegisters 1) hassign
  | access toAccess access =>
    refine .part (translateAssignTo_growing loc _ _ _ htarget.1 fun u => ?_) fun _ => .ite (.done _) ?_
    · exact .part htarget.2 fun _ => .check (.done _) <| .push fun _ _ => .done _
    · exact .restoreJumps hold <| .done _
  | itemAccess toAccess subscripts =>
    have hsubscripts := translateSubscripts_growing htarget.2
    refine .part (translateAssignTo_growing loc _ _ _ htarget.1 hsubscripts) fun _ => .ite (.done _) ?_
    exact .restoreJumps hold <| .done _

/-- A destructure only appends, of any register. -/
def GrowingDestructure (destructure : TranslateDestructure) : Prop :=
  ∀ valueRegister opcode, Growing (destructure valueRegister opcode)

theorem translateDestructure_growing {destructure : Option TranslateDestructure}
    (h : ∀ d ∈ destructure, GrowingDestructure d) :
    GrowingDestructure (translateDestructure destructure) := by
  cases destructure with
  | none => exact fun _ _ => .pure _
  | some destructure => exact h destructure rfl

theorem translateDestructureIdentifier_growing (identifier : ParsedIdentifier) :
    GrowingDestructure (translateDestructureIdentifier siphash identifier) := by
  intro valueRegister opcode t
  unfold translateDestructureIdentifier
  exact .push fun _ _ => .part (.arenaPush siphash _) fun _ => .push fun _ _ => .done _

/-- The jump over the raise is behind the code that was there. -/
theorem translateIsInstance_emits (errRegister : UInt8) {loadClass : Translate Bool}
    (h : Growing loadClass) (t : Translated) :
    Emits t (fun r u => (∀ n, r = some n → t.bytecode.length ≤ n) ∧ Grows t u)
      (translateIsInstance errRegister loadClass) := by
  unfold translateIsInstance
  refine .push fun _ _ => .push fun _ _ => .push fun _ _ => .push fun _ _ => .push fun _ _ => ?_
  refine .part h fun _ => .ite (.pure fun u hu => ⟨fun n hn => (nomatch hn), hu⟩) ?_
  refine .push fun _ _ => .push fun _ _ => .push fun _ _ => .push fun jump hjump => ?_
  refine .push fun _ _ => .push fun _ _ => .pure fun u hu => ⟨fun n hn => ?_, hu⟩
  cases hn
  omega

theorem loadStopIteration_growing : Growing loadStopIteration := fun _ => .push fun _ _ => .done _

theorem translateDestructureIndex_growing {items : List (Option TranslateDestructure)}
    {rest : Option TranslateDestructure} (hitems : ∀ o ∈ items, ∀ d ∈ o, GrowingDestructure d)
    (hrest : ∀ d ∈ rest, GrowingDestructure d) :
    GrowingDestructure (translateDestructureIndex items rest) := by
  intro valueRegister opcode t
  unfold translateDestructureIndex
  refine .ite ?_ (.done _)
  refine .part .newRegister fun _ => .part .newRegister fun _ => .part .newRegister fun _ => ?_
  extract_lets catch_ iterate
  have hcatch : Emits t (fun _ => Grows t) (catch_ ⟨⟩) := by
    refine .part .enterHandler fun _ => .push fun jump hjump => ?_
    refine .part (.forEach fun i item hitem u => ?_) fun _ => ?_
    · have hitem := translateDestructure_growing (hitems item hitem) 0 opcode
      refine .push fun _ _ => .ite (.push fun _ _ => .push fun _ _ => .push fun _ _ => ?_)
        (.push fun _ _ => .push fun _ _ => ?_)
      · exact .part hitem fun _ => .done _
      · exact .part hitem fun _ => .done _
    · extract_lets finish
      have hfinish : ∀ r, Emits t (fun _ => Grows t) (finish r) := by
        intro r
        refine .part .leaveHandler fun _ => .push fun _ _ => .push fun skip hskip => ?_
        refine .bytecodeSize fun _ _ => .setInstructionCode (by omega) ?_
        refine .fact (translateIsInstance_emits _ loadStopIteration_growing t) fun r hr => ?_
        cases r with
        | none => exact .done _
        | some isStopIteration =>
          refine .bytecodeSize fun _ _ => .setInstructionCode (hr _ rfl) <| .push fun _ _ => ?_
          refine .bytecodeSize fun _ _ => .setInstructionCode (by omega) ?_
          exact Growing.freeRegisters 3 t
      refine .ite ?_ (hfinish ⟨⟩)
      refine .push fun _ _ => .push fun _ _ => .push fun _ _ => .pushInstructionByte fun _ => ?_
      exact .push fun _ _ => .part (translateDestructure_growing hrest _ _) hfinish
  have hiterate : Emits t (fun _ => Grows t) (iterate ⟨⟩) := by
    refine .part .setAssignedRegisters fun _ => .push fun _ _ => .push fun _ _ => .push fun _ _ => ?_
    exact .push fun _ _ => .push fun _ _ => .ite (.push fun _ _ => hcatch) hcatch
  exact .ite (.push fun _ _ => hiterate) hiterate

/-- The key of an item is a name or a value. -/
theorem translateKey_growing {key : ParsedValue × Translate ℕ} (h : Growing key.2) :
    Growing (translateKey siphash key) := by
  have hvalue : Growing (do let _ ← key.2; return !(← isError) : Translate Bool) :=
    fun _ => .part h fun _ => .part .isError fun _ => .done _
  obtain ⟨key, value⟩ := key
  cases key with
  | identifier identifier =>
    exact fun _ => .part (.arenaPush siphash _) fun _ => .part (.setRegisters 1) fun _ =>
      .push fun _ _ => .done _
  | _ => exact hvalue

theorem translateKeyItems_growing (dictionaryRegister : UInt8) (keepKeys : Bool) (opcode : BindOpcode)
    {items : List ((ParsedValue × Translate ℕ) × Option TranslateDestructure)}
    (h : ∀ i ∈ items, Growing i.1.2 ∧ ∀ d ∈ i.2, GrowingDestructure d) :
    Growing (translateKeyItems siphash dictionaryRegister keepKeys opcode items) := by
  induction items with
  | nil => exact .pure _
  | cons item items ih =>
    obtain ⟨key, destructure⟩ := item
    obtain ⟨hkey, hdestructure⟩ := h _ List.mem_cons_self
    intro t
    unfold translateKeyItems
    refine .push fun _ _ => .push fun _ _ => .push fun _ _ => ?_
    refine .part (translateKey_growing siphash hkey) fun _ => .ite (.done _) ?_
    refine .part (.ite (fun u => ?_) (.pure _)) fun keyRegisters => .push fun _ _ => .push fun _ _ => ?_
    · exact .part .newRegister fun _ => .part .setAssignedRegisters fun _ => .push fun _ _ =>
        .push fun _ _ => .done _
    · refine .part (translateDestructure_growing hdestructure _ _) fun _ => .check (.done _) ?_
      exact .part (ih fun i hi => h i (List.mem_cons_of_mem _ hi)) fun _ => .done _

theorem translateDestructureKey_growing
    {items : List ((ParsedValue × Translate ℕ) × Option TranslateDestructure)}
    {rest : Option TranslateDestructure}
    (hitems : ∀ i ∈ items, Growing i.1.2 ∧ ∀ d ∈ i.2, GrowingDestructure d)
    (hrest : ∀ d ∈ rest, GrowingDestructure d) :
    GrowingDestructure (translateDestructureKey siphash items rest) := by
  intro valueRegister opcode t
  unfold translateDestructureKey
  refine .ite ?_ (.done _)
  refine .part .newRegister fun _ => .part .setAssignedRegisters fun _ => .push fun _ _ => ?_
  refine .part (translateKeyItems_growing siphash _ _ _ hitems) fun keyRegisters => ?_
  cases keyRegisters with
  | none => exact .done _
  | some keyRegisters =>
    have hlast : Emits t (fun _ => Grows t) (freeRegisters 1) := Growing.freeRegisters 1 t
    refine .ite ?_ hlast
    refine .part .newRegister fun _ => .part .setAssignedRegisters fun _ => .push fun _ _ => ?_
    refine .push fun _ _ => .push fun _ _ => .push fun _ _ => .push fun _ _ => .push fun _ _ => ?_
    refine .part (.forEach fun _ _ _ u => ?_) fun _ => ?_
    · exact .push fun _ _ => .push fun _ _ => .push fun _ _ => .push fun _ _ => .push fun _ _ =>
        .push fun _ _ => .done _
    · refine .part (translateDestructure_growing hrest _ _) fun _ => ?_
      exact .part (.freeRegisters _) fun _ => .part (.freeRegisters _) fun _ => .check (.done _) hlast

theorem translateDeclarations_growing {i first : ℕ}
    {values : List (Translate ℕ × Option TranslateDestructure)}
    (h : ∀ v ∈ values, Growing v.1 ∧ ∀ d ∈ v.2, GrowingDestructure d) :
    Growing (translateDeclarations i first values) := by
  induction values generalizing i first with
  | nil => exact .pure _
  | cons value values ih =>
    obtain ⟨value, destructure⟩ := value
    obtain ⟨hvalue, hdestructure⟩ := h _ List.mem_cons_self
    intro t
    unfold translateDeclarations
    refine .get fun old hold => .clearJumps <| .part hvalue fun _ => .check (.done _) ?_
    refine .part (translateDestructure_growing hdestructure _ _) fun _ => .restoreJumps hold ?_
    exact ih (fun v hv => h v (List.mem_cons_of_mem _ hv)) t

theorem translateParsedDeclaration_growing {first : Translate ℕ × Option TranslateDestructure}
    {rest : List (Translate ℕ × Option TranslateDestructure)}
    (h : ∀ v ∈ first :: rest, Growing v.1 ∧ ∀ d ∈ v.2, GrowingDestructure d) :
    Growing (translateParsedDeclaration first rest) :=
  fun t => .part (.setRegisters 1) fun _ => translateDeclarations_growing h t

theorem translateParsedClass_growing (name : Name) (line column : UInt64)
    {parent : Option (Translate ℕ)} {body : Translate ℕ} (hparent : ∀ v ∈ parent, Growing v)
    (hbody : Growing body) : Growing (translateParsedClass siphash name line column parent body) := by
  intro t
  unfold translateParsedClass pushDeclare
  refine .part .newRegister fun _ => .part .setAssignedRegisters fun _ => ?_
  refine .part (.arenaPush siphash _) fun _ => .part (.arenaPush siphash _) fun _ => ?_
  refine .part (.arenaPush siphash _) fun _ => .part (fun u => ?_) fun _ => .check (.done _) ?_
  · cases parent with
    | none => exact .last _
    | some parent => exact hparent parent rfl u
  · refine .push fun _ _ => .push fun _ _ => .push fun _ _ => .push fun _ _ => .push fun _ _ => ?_
    refine .part .enterScope fun _ => .push fun _ _ => .push fun _ _ => .push fun _ _ => ?_
    refine .part hbody fun _ => .check (.done _) <| .push fun _ _ => .push fun _ _ => ?_
    exact .part (.freeRegisters 1) fun _ => .part .leaveScope fun _ => .done _

theorem translateParsedImport_growing (loc : SourceLocation) {file : Translate ℕ} (as_ : Option Name)
    (expose : Expose) (h : Growing file) :
    Growing (translateParsedImport siphash loc file as_ expose) := by
  intro t
  unfold translateParsedImport pushDeclare pushSourceLocation
  refine .part h fun first => .check (.done _) <| .push fun _ _ => .push fun _ _ => ?_
  extract_lets declared returned exposed
  have hexposed : Emits t (fun _ => Grows t) (exposed ⟨⟩) := by
    unfold exposed
    cases expose with
    | none => exact .done _
    | all => exact .push fun _ _ => .done _
    | names names =>
      refine .part (.ite (fun u => ?_) (.pure _)) fun registerA => ?_
      · exact .part .newRegister fun _ => .push fun _ _ => .done _
      · refine .part (.forEach fun i expose _ u => ?_) fun _ => ?_
        · extract_lets expose_
          have hexpose : Emits u (fun _ => Grows u) (expose_ ⟨⟩) := by
            refine .part (.arenaPush siphash _) fun pos => .push fun _ _ => ?_
            cases expose.as_ with
            | none => exact .push fun _ _ => .done _
            | some name => exact .part (.arenaPush siphash _) fun _ => .push fun _ _ => .done _
          exact .ite (.push fun _ _ => hexpose) hexpose
        · exact .ite (.part (.freeRegisters 1) fun _ => .done _) (.done _)
  cases as_ with
  | none => exact hexposed
  | some name => exact .part (.arenaPush siphash _) fun _ => .push fun _ _ => hexposed

/-! ### Statements -/

theorem translateThrow_growing (loc : SourceLocation) {value : Translate ℕ} (h : Growing value) :
    Growing (translateThrow loc value) :=
  fun _ => .part h fun _ => .push fun _ _ => .push fun _ _ => .done _

theorem pushTimes_growing (i : Instr) (n : ℕ) : Growing (pushTimes i n) := by
  induction n with
  | zero => exact .pure _
  | succ n ih => exact fun t => .push fun _ _ => ih t

theorem pushUnwinding_growing (scopeDepth exceptionHandlerDepth : ℕ) :
    Growing (pushUnwinding scopeDepth exceptionHandlerDepth) :=
  .get fun _ => (pushTimes_growing _ _).bind fun _ => pushTimes_growing _ _

/-- A place is added to an array that was read before. -/
theorem Emits.pushPosition {α : Type} {t : Translated} {Q : α → Translated → Prop}
    {old positions : Positions} {f : Positions → Translate α} {n : ℕ}
    (h : Positions.Behind t.bytecode.length old positions) (hn : t.bytecode.length ≤ n)
    (hf : ∀ b, Positions.Behind t.bytecode.length old b → Emits t Q (f b)) :
    Emits t Q ((positions.push n : Option Positions) >>= f) := by
  refine .fact (p := fun b => positions.push n = some b) ?_ fun b hb => hf b (h.push hn hb)
  intro u b u' hu hrun
  obtain ⟨c, hc, hrun⟩ := Option.bind_eq_some_iff.mp hrun
  cases hrun
  exact ⟨hc, hu⟩

theorem translateParsedBreak_growing (loc : SourceLocation) : Growing (translateParsedBreak loc) := by
  intro t
  unfold translateParsedBreak
  refine .get fun s hs => .ite (.part (.raise _ _) fun _ => .done _) ?_
  refine .bytecodeSize fun _ _ => .part (pushUnwinding_growing _ _) fun _ => .push fun n hn => ?_
  refine .pushPosition hs.breaks (by omega) fun positions hpositions => ?_
  exact .update (fun u hu => ⟨hu.code, hpositions, hu.returns⟩) <| .done _

theorem translateParsedContinue_growing (loc : SourceLocation) :
    Growing (translateParsedContinue loc) := by
  intro t
  unfold translateParsedContinue
  refine .get fun s hs => ?_
  dsimp only
  cases s.continueJump.pos with
  | none => exact .part (.raise _ _) fun _ => .done _
  | some pos =>
    refine .bytecodeSize fun _ _ => .part (pushUnwinding_growing _ _) fun _ => ?_
    exact .push fun _ _ => .done _

theorem translateParsedReturn_growing (loc : SourceLocation) {value : Translate ℕ}
    (h : Growing value) : Growing (translateParsedReturn loc value) := by
  intro t
  unfold translateParsedReturn
  refine .get fun _ _ => .ite (.part (.raise _ _) fun _ => .done _) ?_
  refine .part h fun _ => .get fun s hs => .part (pushUnwinding_growing _ _) fun _ => ?_
  refine .push fun n hn => .pushPosition hs.returns (by omega) fun positions hpositions => ?_
  exact .update (fun u hu => ⟨hu.code, hu.breaks, hpositions⟩) <| .done _

theorem translate_growing {values : List (Translate ℕ)} (h : ∀ v ∈ values, Growing v) :
    Growing (translate values) := by
  induction values with
  | nil => exact .pure _
  | cons value values ih =>
    refine fun t => .part (h value List.mem_cons_self) fun _ => .check (.done _) ?_
    exact ih (fun v hv => h v (List.mem_cons_of_mem _ hv)) t

theorem translateConditionals_emits
    {conditionals : List (Option (Translate ℕ) × Translate ℕ)}
    (h : ∀ c ∈ conditionals, (∀ v ∈ c.1, Growing v) ∧ Growing c.2) (t : Translated) :
    Emits t (fun r u => (∀ jumps, r = some jumps → ∀ jump ∈ jumps, t.bytecode.length ≤ jump) ∧
      Grows t u) (translateConditionals conditionals) := by
  induction conditionals with
  | nil =>
    refine .pure fun u hu => ⟨fun jumps hjumps jump hjump => ?_, hu⟩
    cases hjumps
    cases hjump
  | cons conditional conditionals ih =>
    obtain ⟨condition, content⟩ := conditional
    obtain ⟨hcondition, hcontent⟩ := h _ List.mem_cons_self
    have hrest : ∀ n, t.bytecode.length ≤ n → Emits t (fun r u => (∀ jumps, r = some jumps →
        ∀ jump ∈ jumps, t.bytecode.length ≤ jump) ∧ Grows t u) (do
          return (← translateConditionals conditionals).map fun jumps => n :: jumps) := by
      intro n hn
      refine .fact (ih fun c hc => h c (List.mem_cons_of_mem _ hc)) fun r hr => ?_
      refine .pure fun u hu => ⟨fun jumps hjumps jump hjump => ?_, hu⟩
      obtain ⟨jumps', hjumps', rfl⟩ := Option.map_eq_some_iff.mp hjumps
      rcases List.mem_cons.mp hjump with rfl | hjump
      · exact hn
      · exact hr jumps' hjumps' jump hjump
    have hnone : Emits t (fun r u => (∀ jumps, r = some jumps → ∀ jump ∈ jumps,
        t.bytecode.length ≤ jump) ∧ Grows t u) (pure none : Translate (Option (List ℕ))) :=
      .pure fun u hu => ⟨fun jumps hjumps => (nomatch hjumps), hu⟩
    unfold translateConditionals
    refine .push fun _ _ => .part .enterScope fun _ => ?_
    cases condition with
    | none =>
      refine .part hcontent fun _ => .push fun _ _ => .push fun n hn => .part .leaveScope fun _ => ?_
      exact hrest (n + 1) (by omega)
    | some condition =>
      refine .part (hcondition condition rfl) fun _ => .check hnone <| .push fun _ _ => ?_
      refine .push fun last hlast => .part hcontent fun _ => .check hnone <| .push fun _ _ => ?_
      refine .push fun n hn => .bytecodeSize fun _ _ => .setInstructionCode (by omega) ?_
      exact .push fun _ _ => .part .leaveScope fun _ => hrest (n + 1) (by omega)

theorem translateParsedIf_growing {conditionals : List (Option (Translate ℕ) × Translate ℕ)}
    (h : ∀ c ∈ conditionals, (∀ v ∈ c.1, Growing v) ∧ Growing c.2) :
    Growing (translateParsedIf conditionals) := by
  intro t
  unfold translateParsedIf
  refine .bytecodeSize fun _ _ => .part (.setRegisters 1) fun _ => ?_
  refine .fact (translateConditionals_emits h t) fun r hr => ?_
  cases r with
  | none => exact .done _
  | some jumps =>
    refine .bytecodeSize fun _ _ => .setInstructionCodes (hr jumps rfl) ?_
    exact .push fun _ _ => .done _

/-! ### Blocks and loops -/

/-- The state of a block with no returns. -/
abbrev Translated.block (s : Translated) : Translated :=
  { s with returnJump := ⟨.live [], s.exceptionHandlerDepth, s.scopeDepth⟩ }

/-- The state of a loop with no breaks. -/
abbrev Translated.loop (s : Translated) : Translated :=
  { s with breakJump := ⟨.live [], s.exceptionHandlerDepth, s.scopeDepth⟩ }

theorem Grows.endBlock {t s u : Translated} {r : BreakOrReturnJump} (hs : Grows t s)
    (hu : Grows s.block u)
    (hr : Positions.Behind t.bytecode.length t.returnJump.positions r.positions) :
    Grows t { u with returnJump := r } where
  code := hs.code.trans hu.code
  breaks := hs.breaks.trans hu.breaks hs.code.length_le
  returns := hr

theorem Grows.endLoop {t s u : Translated} {b : BreakOrReturnJump} (hs : Grows t s)
    (hu : Grows s.loop u)
    (hb : Positions.Behind t.bytecode.length t.breakJump.positions b.positions) :
    Grows t { u with breakJump := b } where
  code := hs.code.trans hu.code
  breaks := hb
  returns := hs.returns.trans hu.returns hs.code.length_le

namespace Emits

variable {α : Type} {t s : Translated} {Q : α → Translated → Prop} {f : Unit → Translate α}

/-- From the start of a loop on, what is emitted is behind it. -/
theorem loop {f : Translated → Unit → Translate α}
    (hf : ∀ s, Grows t s → Emits s.loop Q (f s ⟨⟩)) :
    Emits t Q (MonadState.get >>= fun s => newBreakJump >>= f s) := by
  refine Triple.get_bind_eq fun s hs => ?_
  refine Triple.modify_bind (R := Eq s.loop) (fun u hu => hu ▸ rfl) ?_
  exact (hf s hs).conseq (fun u hu => hu ▸ Grows.refl _) fun _ _ h => h

/-- The loop is left after an error. -/
theorem dropBreakJump (hs : Grows t s) (a : α) :
    Emits s.loop (fun _ => Grows t) (dropBreakJump >>= fun _ => Pure.pure a : Translate α) :=
  Triple.modify_bind (R := Grows t)
    (fun _ hu => hs.endLoop hu <| Positions.behind_of_ne_live nofun) (done a)

/-- The breaks of the loop are behind its start. -/
theorem setBreaks (hf : Emits s.loop Q (f ⟨⟩)) : Emits s.loop Q (setBreaks >>= f) := by
  have hset : Emits s.loop (fun _ => Grows s.loop) Chloride.setBreaks :=
    .bytecodeSize fun _ _ => .get fun _ hu => .positions hu.breaks fun _ hl =>
      .setInstructionCodes_last hl
  exact Triple.bind hset fun _ => hf

/-- The breaks are those of before. -/
theorem endLoop (hs : Grows t s) (hf : Emits t Q (f ⟨⟩)) :
    Emits s.loop Q ((modify fun t => { t with breakJump := s.breakJump }) >>= f) :=
  Triple.modify_bind (fun _ hu => hs.endLoop hu hs.breaks) hf

end Emits

/-- A block without an array of its own leaves its returns to the block around it; one with an array
sets them, and they are behind its start. -/
theorem translateParsedDowrap_growing {body : List (Translate ℕ)} (h : ∀ v ∈ body, Growing v) :
    Growing (translateParsedDowrap body) := by
  intro t
  unfold translateParsedDowrap
  refine .part (.setRegisters 1) fun _ => .bytecodeSize fun first _ => ?_
  refine .ite (Triple.get_bind_eq fun s hs => ?_) (.push fun _ _ => .done _)
  dsimp only
  by_cases hnull : s.returnJump.positions = .null
  · simp only [hnull, if_true]
    refine Triple.modify_bind (R := Eq s.block) (fun u hu => hu ▸ rfl) ?_
    refine Triple.conseq (P := Grows s.block) (Q := fun _ => Grows t) ?_
      (fun u hu => hu ▸ Grows.refl _) fun _ _ h => h
    show Emits _ _ _
    refine .part .enterScope fun _ => .push fun _ _ => ?_
    refine .part (.quiet (fun _ => rfl) (fun _ => rfl) fun _ => rfl) fun _ => ?_
    refine .part (translate_growing h) fun _ => .check ?_ <| .push fun _ _ => .push fun _ _ => ?_
    · exact Triple.modify_bind (R := Grows t)
        (fun _ hu => hs.endBlock hu <| Positions.behind_of_ne_live nofun) (Emits.done _)
    · refine .bytecodeSize fun _ _ => .get fun u hu => .positions hu.returns fun l hl => ?_
      refine .setInstructionCodes hl <| Triple.modify_bind (R := Grows t)
        (fun _ hu => hs.endBlock hu hs.returns) ?_
      exact Emits.part .leaveScope fun _ => .done _
  · simp only [if_neg hnull]
    refine Triple.conseq (P := Grows t) (Q := fun _ => Grows t) ?_ (fun u hu => hu ▸ hs) fun _ _ h => h
    show Emits _ _ _
    refine .part .enterScope fun _ => .push fun _ _ => ?_
    refine .part (.quiet (fun _ => rfl) (fun _ => rfl) fun _ => rfl) fun _ => ?_
    refine .part (translate_growing h) fun _ => .check (.done _) <| .push fun _ _ => .push fun _ _ => ?_
    exact .part .leaveScope fun _ => .done _

theorem translateParsedWhile_growing {condition content : Translate ℕ} (hcondition : Growing condition)
    (hcontent : Growing content) : Growing (translateParsedWhile condition content) := by
  intro t
  unfold translateParsedWhile
  refine .part (.setRegisters 1) fun _ => .loop fun s hs => .push fun _ _ => ?_
  refine .part .enterScope fun _ => .part hcondition fun startOfLoop => .check (.dropBreakJump hs _) ?_
  refine .get fun _ _ => .part (.newContinueJump _) fun _ => .push fun _ _ => .push fun n hn => ?_
  refine .part hcontent fun _ => .push fun _ _ => .push fun _ _ => .bytecodeSize fun _ _ => ?_
  refine .setInstructionCode (by omega) <| .push fun _ _ => .setBreaks <| .endLoop hs ?_
  refine .push fun _ _ => .part (.quiet (fun _ => rfl) (fun _ => rfl) fun _ => rfl) fun _ => ?_
  exact .part .leaveScope fun _ => .done _

theorem translateParsedFor_growing {value : Option TranslateDestructure}
    {iterator content : Translate ℕ} (hvalue : ∀ d ∈ value, GrowingDestructure d)
    (hiterator : Growing iterator) (hcontent : Growing content) :
    Growing (translateParsedFor value iterator content) := by
  intro t
  unfold translateParsedFor
  refine .part .newRegister fun _ => .part .newRegister fun _ => .part .setAssignedRegisters fun _ => ?_
  refine .loop fun s hs => .push fun first hfirst => .push fun _ _ => .part .enterScope fun _ => ?_
  refine .part hiterator fun _ => .check (.dropBreakJump hs _) ?_
  refine .push fun _ _ => .push fun _ _ => .push fun _ _ => .push fun _ _ => .push fun _ _ => ?_
  refine .push fun _ _ => .push fun startOfLoop _ => .push fun _ _ => .get fun _ _ => ?_
  refine .part (.newContinueJump _) fun _ => .part (translateDestructure_growing hvalue _ _) fun _ => ?_
  refine .check (.dropBreakJump hs _) <| .part hcontent fun _ => .push fun _ _ => .setBreaks ?_
  refine .endLoop hs <| .push fun skip hskip => .bytecodeSize fun _ _ => ?_
  have hjump : t.bytecode.length ≤ first := hs.code.length_le.trans hfirst
  refine .setInstructionCode (by omega) ?_
  refine .fact (translateIsInstance_emits _ loadStopIteration_growing t) fun r hr => ?_
  cases r with
  | none => exact .done _
  | some isExceptionType =>
    refine .bytecodeSize fun _ _ => .setInstructionCode (hr _ rfl) <| .push fun _ _ => ?_
    refine .setInstructionCode (by omega) ?_
    refine .part (.quiet (fun _ => rfl) (fun _ => rfl) fun _ => rfl) fun _ => ?_
    exact .part .leaveScope fun _ => .part (.freeRegisters 2) fun _ => .done _

theorem loadExceptionType_growing {exceptionType : Option (Translate ℕ)}
    (h : ∀ v ∈ exceptionType, Growing v) : Growing (loadExceptionType exceptionType) := by
  intro t
  cases exceptionType with
  | none => exact .push fun _ _ => .done _
  | some exceptionType => exact .part (h _ rfl) fun _ => .part .isError fun _ => .done _

theorem translateParsedTry_growing {tryBody catchBody : Translate ℕ}
    {exceptionType : Option (Translate ℕ)} (exceptionName : Option Name) (htry : Growing tryBody)
    (hexception : ∀ v ∈ exceptionType, Growing v) (hcatch : Growing catchBody) :
    Growing (translateParsedTry siphash tryBody exceptionType exceptionName catchBody) := by
  intro t
  unfold translateParsedTry pushDeclare
  refine .part .newRegister fun _ => .part .setAssignedRegisters fun _ => .part .enterHandler fun _ => ?_
  refine .push fun first hfirst => .part .enterScope fun _ => .push fun _ _ => ?_
  refine .part htry fun _ => .check (.done _) <| .part .leaveScope fun _ => .push fun _ _ => ?_
  refine .part .leaveHandler fun _ => .push fun _ _ => .push fun donePos hdone => ?_
  refine .part .enterScope fun _ => .push fun _ _ => .setInstructionCode (by omega) ?_
  have hload := loadExceptionType_growing hexception
  refine .fact (translateIsInstance_emits _ hload t) fun r hr => ?_
  cases r with
  | none => exact .done _
  | some isExceptionType =>
    refine .bytecodeSize fun _ _ => .setInstructionCode (hr _ rfl) ?_
    extract_lets caught
    have hcaught : Emits t (fun _ => Grows t) (caught ⟨⟩) := by
      refine .part hcatch fun _ => .check (.done _) <| .part .leaveScope fun _ => .push fun _ _ => ?_
      refine .bytecodeSize fun _ _ => .setInstructionCode (by omega) ?_
      exact .part (.freeRegisters 1) fun _ => .done _
    cases exceptionName with
    | none => exact hcaught
    | some name =>
      exact .push fun _ _ => .part (.arenaPush siphash _) fun _ => .push fun _ _ => hcaught

/-! ### The recursion -/

section

variable {alg : ParsedAlgebra (Translate ℕ) TranslateDestructure}

theorem forall_foldOption {o : Option ParsedValue} (h : ∀ v ∈ o, Growing (v.fold alg)) :
    ∀ x ∈ foldOption alg o, Growing x := by
  rw [foldOption_eq]
  exact Option.forall_mem_map.mpr h

theorem forall_foldList {vs : List ParsedValue} (h : ∀ v ∈ vs, Growing (v.fold alg)) :
    ∀ x ∈ foldList alg vs, Growing x := by
  rw [foldList_eq]
  exact List.forall_mem_map.mpr h

theorem forall_foldNamed {vs : List (Name × ParsedValue)} (h : ∀ v ∈ vs, Growing (v.2.fold alg)) :
    ∀ x ∈ foldNamed alg vs, Growing x.2 := by
  rw [foldNamed_eq]
  exact List.forall_mem_map.mpr h

theorem forall_foldSubscripts {ss : List (List (Option ParsedValue))}
    (h : ∀ s ∈ ss, ∀ o ∈ s, ∀ v ∈ o, Growing (v.fold alg)) :
    ∀ s ∈ foldSubscripts alg ss, ∀ o ∈ s, ∀ x ∈ o, Growing x := by
  rw [foldSubscripts_eq]
  refine List.forall_mem_map.mpr fun s hs => List.forall_mem_map.mpr fun o ho => ?_
  exact Option.forall_mem_map.mpr (h s hs o ho)

theorem forall_foldDestructureOption {o : Option Destructure}
    (h : ∀ d ∈ o, GrowingDestructure (d.fold alg)) :
    ∀ d ∈ foldDestructureOption alg o, GrowingDestructure d := by
  rw [foldDestructureOption_eq]
  exact Option.forall_mem_map.mpr h

theorem forall_foldDeclarations {vs : List (ParsedValue × Option Destructure)}
    (h : ∀ v ∈ vs, Growing (v.1.fold alg) ∧ ∀ d ∈ v.2, GrowingDestructure (d.fold alg)) :
    ∀ x ∈ foldDeclarations alg vs, Growing x.1 ∧ ∀ d ∈ x.2, GrowingDestructure d := by
  rw [foldDeclarations_eq]
  exact List.forall_mem_map.mpr fun v hv => ⟨(h v hv).1, Option.forall_mem_map.mpr (h v hv).2⟩

theorem growing_foldAssignable {target : Assignable}
    (h : target.All fun v => Growing (v.fold alg)) : GrowingTarget (foldAssignable alg target) := by
  cases target with
  | identifier identifier => exact trivial
  | access toAccess access => exact h
  | itemAccess toAccess subscripts => exact ⟨h.1, forall_foldSubscripts h.2⟩

end

/-- What holds of each node by what holds of its parts. -/
theorem translator_growing : ParsedValue.InductionSteps
    (fun v => Growing (translateParsed siphash v))
    (fun d => GrowingDestructure (d.fold (translator siphash))) where
  string string := translateParsedString_growing siphash string
  assign loc target type value htarget hvalue :=
    translateParsedAssignment_growing siphash loc type (growing_foldAssignable htarget) hvalue
  identifier identifier := translateParsedIdentifier_growing siphash identifier
  class_ name line column parent body hparent hbody :=
    translateParsedClass_growing siphash name line column (forall_foldOption hparent) hbody
  conditional _ _ _ hcondition htrue hfalse :=
    translateConditional_growing hcondition htrue hfalse
  number number := translateParsedNumber_growing siphash number 0
  if_ conditionals h := by
    refine translateParsedIf_growing ?_
    rw [foldConditionals_eq]
    exact List.forall_mem_map.mpr fun c hc => ⟨Option.forall_mem_map.mpr (h c hc).1, (h c hc).2⟩
  access loc _ _ htoAccess haccess := translateAccess_growing loc htoAccess haccess
  itemAccess loc _ _ htoAccess hsubscripts :=
    translateItemAccess_growing loc htoAccess (forall_foldSubscripts hsubscripts)
  call line column _ _ _ _ _ htoCall hargs hvArg hkwargs hkwArg :=
    translateParsedCall_growing siphash line column htoCall (forall_foldList hargs)
      (forall_foldOption hvArg) (forall_foldNamed hkwargs) (forall_foldOption hkwArg)
  declaration first rest h := by
    have hall := forall_foldDeclarations h
    obtain ⟨value, destructure⟩ := first
    exact translateParsedDeclaration_growing hall
  null := translateNull_growing
  boolean value := translateBoolean_growing value
  dowrap _ h := translateParsedDowrap_growing (forall_foldList h)
  operation loc operation _ _ h := translateOperation_growing loc operation (forall_foldList h)
  array _ h := translateArray_growing (forall_foldList h)
  dictionary entries h := by
    refine translateDictionary_growing ?_
    rw [foldEntries_eq]
    exact List.forall_mem_map.mpr h
  function header defaults body hdefaults _ := by
    cases defaults with
    | none => exact translateParsedFunction_growing siphash header nofun
    | some defaults =>
      refine translateParsedFunction_growing siphash header fun vs hvs => ?_
      cases hvs
      exact forall_foldNamed (hdefaults defaults rfl)
  return_ loc _ h := translateParsedReturn_growing loc h
  delete loc _ h := translateParsedDelete_growing siphash loc (growing_foldAssignable h)
  throw loc _ h := translateThrow_growing loc h
  continue_ loc := translateParsedContinue_growing loc
  break_ loc := translateParsedBreak_growing loc
  while_ _ _ hcondition hcontent := translateParsedWhile_growing hcondition hcontent
  template _ values htemplater hvalues := by
    refine translateParsedTemplate_growing siphash (forall_foldOption htemplater) fun v hv => ?_
    rw [foldTemplate_eq] at hv
    obtain ⟨part, hpart, hv⟩ := List.mem_map.mp hv
    cases part with
    | inl string => cases hv
    | inr value =>
      cases hv
      exact hvalues value hpart
  for_ _ _ _ hvalue hiterator hcontent :=
    translateParsedFor_growing (forall_foldDestructureOption hvalue) hiterator hcontent
  toBool invert _ h := translateToBool_growing invert h
  negation _ h := translateNegation_growing h
  import_ loc _ as_ expose h := translateParsedImport_growing siphash loc as_ expose h
  range loc _ _ inclusive hstart hstop := translateRange_growing loc inclusive hstart hstop
  try_ _ _ exceptionName _ htry hexception hcatch :=
    translateParsedTry_growing siphash exceptionName htry (forall_foldOption hexception) hcatch
  identifierDestructure identifier := translateDestructureIdentifier_growing siphash identifier
  indexDestructure items rest hitems hrest := by
    refine translateDestructureIndex_growing ?_ (forall_foldDestructureOption hrest)
    rw [foldDestructures_eq]
    exact List.forall_mem_map.mpr fun o ho => Option.forall_mem_map.mpr (hitems o ho)
  keyDestructure items rest hitems hrest := by
    refine translateDestructureKey_growing siphash ?_ (forall_foldDestructureOption hrest)
    rw [foldKeys_eq]
    exact List.forall_mem_map.mpr fun i hi => ⟨(hitems i hi).1, Option.forall_mem_map.mpr (hitems i hi).2⟩

/-- The translation of any value appends code to that which is there. -/
theorem translateParsed_growing (value : ParsedValue) : Growing (translateParsed siphash value) :=
  (translator_growing siphash).value value

/-- The code of a value stands behind that which was there. -/
theorem translateParsed_code {value : ParsedValue} {t t' : Translated} {n : ℕ}
    (h : translateParsed siphash value t = some (n, t')) :
    ∃ code, t'.bytecode = t.bytecode ++ code := by
  obtain ⟨code, hcode⟩ := (translateParsed_growing siphash value t t n t' (Grows.refl t) h).code
  exact ⟨code, hcode.symm⟩

end

end Chloride
