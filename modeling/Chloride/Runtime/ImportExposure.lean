import Chloride.Runtime.Closures
import Chloride.Runtime.ScopePlaces
import Chloride.Translator.ImportCode

/-!
# What an import binds

The code of an import runs in a frame, from the moment where the module has been run and `OP_IMPORT`
puts its dictionary in register 0. An alias and the names of a list are declared with `OP_DECLARE`,
which writes to the current scope of the frame. `OP_EXPOSE_ALL` writes to the scope that the `runtime`
call was started with instead. The two are the same only in the first frame of the call and outside of
blocks. The register that keeps the module while the names of a list are taken is not counted, so it
can lie outside of the register array (`ImportSite.exposes_iff`).
-/

namespace Chloride

/-! ## The objects -/

/-- A dictionary: its keys with their values. -/
structure Exports where
  entries : List (UInt64 × Value)
  nodup : (entries.map Prod.fst).Nodup

/-- The answers of the objects in an import: the module that is imported, and what the dictionary in
register 0 has. -/
def Shows (contents : Value → Exports) (module : Value) (f : Frame) (a : Answer) : Instr → Prop
  | .op .opImport => a.value = module ∧ a.err = none
  | .op .exposeAll => ∀ v, f.read 0 = some v → a.entries = (contents v).entries
  | .expose _ _ hash => ∀ v, f.read 0 = some v →
    match find (contents v).entries hash with
    | some w => a.value = w ∧ a.err = none
    | none => a.err.isSome
  | _ => True

/-- An error is pending in the innermost `runtime` call. -/
def Machine.raised (m : Machine) : Bool := (m.invocations.head?.bind Invocation.err).isSome

/-- One instruction after the other, until an error is raised. -/
def Machine.execs (m : Machine) : List Answer → Option Machine
  | [] => some m
  | a :: as => if m.raised then some m else (step m (.exec a)).bind fun m' => m'.execs as

/-- The answers are those of the objects all along. -/
def Machine.Answered (contents : Value → Exports) (module : Value) (m : Machine) :
    List Answer → Prop
  | [] => True
  | a :: as => m.raised = false →
    (∀ e ∈ m.executing (.exec a), Shows contents module e.2.2.1 a e.1) ∧
      ∀ m', step m (.exec a) = some m' → m'.Answered contents module as

/-- There are such answers to every instruction. -/
theorem exists_shows (contents : Value → Exports) (module : Value) (f : Frame) (i : Instr) :
    ∃ a, Shows contents module f a i := by
  let quiet : Answer := ⟨module, none, .null, none, [], []⟩
  cases i with
  | op o =>
    cases o with
    | opImport => exact ⟨quiet, rfl, rfl⟩
    | exposeAll =>
      cases hread : f.read 0 with
      | none => exact ⟨quiet, fun v hv => by simp [hread] at hv⟩
      | some v =>
        refine ⟨{ quiet with entries := (contents v).entries }, fun v' hv => ?_⟩
        obtain rfl := Option.some.inj (hread.symm.trans hv)
        rfl
    | _ => exact ⟨quiet, trivial⟩
  | expose length offset hash =>
    cases hread : f.read 0 with
    | none => exact ⟨quiet, fun v hv => by simp [hread] at hv⟩
    | some v =>
      cases hfind : find (contents v).entries hash with
      | none =>
        refine ⟨{ quiet with err := some .null }, fun v' hv => ?_⟩
        obtain rfl := Option.some.inj (hread.symm.trans hv)
        rw [hfind]
        rfl
      | some w =>
        refine ⟨{ quiet with value := w }, fun v' hv => ?_⟩
        obtain rfl := Option.some.inj (hread.symm.trans hv)
        rw [hfind]
        exact ⟨rfl, rfl⟩
  | _ => exact ⟨quiet, trivial⟩

theorem exists_answered (contents : Value → Exports) (module : Value) (n : ℕ) (m : Machine) :
    ∃ answers : List Answer, answers.length = n ∧ m.Answered contents module answers := by
  induction n generalizing m with
  | zero => exact ⟨[], rfl, trivial⟩
  | succ n ih =>
    -- The instruction and its frame are the same for every answer.
    have hexecuting : ∃ a, ∀ e ∈ m.executing (.exec a), Shows contents module e.2.2.1 a e.1 := by
      cases hinvs : m.invocations with
      | nil => exact ⟨nullAnswer, fun e he => by simp [Machine.executing, hinvs] at he⟩
      | cons inv rest =>
        cases hframes : inv.frames with
        | nil => exact ⟨nullAnswer, fun e he => by simp [Machine.executing, hinvs, hframes] at he⟩
        | cons f frames =>
          cases hfetch : f.fetch with
          | none =>
            exact ⟨nullAnswer, fun e he => by simp [Machine.executing, hinvs, hframes, hfetch] at he⟩
          | some p =>
            obtain ⟨a, ha⟩ := exists_shows contents module p.2 p.1
            refine ⟨a, fun e he => ?_⟩
            simp only [Machine.executing, hinvs, hframes, hfetch, Option.map_some,
              Option.mem_some_iff] at he
            rw [← he]
            exact ha
    obtain ⟨a, ha⟩ := hexecuting
    cases hstep : step m (.exec a) with
    | none =>
      refine ⟨a :: List.replicate n nullAnswer, by simp, fun _ => ⟨ha, fun m' hm' => ?_⟩⟩
      rw [hstep] at hm'
      cases hm'
    | some m₁ =>
      obtain ⟨answers, hlength, hanswered⟩ := ih m₁
      refine ⟨a :: answers, by simp [hlength], fun _ => ⟨ha, fun m' hm' => ?_⟩⟩
      obtain rfl := Option.some.inj (hstep.symm.trans hm')
      exact hanswered

/-! ## What is to be bound -/

section

variable (siphash : List UInt8 → UInt64)

/-- The names of a list that a dictionary has, with the values there. -/
def takenBindings (exports : Exports) (names : List ParsedImportExpose) : List (UInt64 × Value) :=
  names.filterMap fun e =>
    (find exports.entries (siphash e.identifier)).map fun v => (siphash e.declared, v)

/-- A dictionary has all names of a list. -/
def Exports.HasAll (exports : Exports) (names : List ParsedImportExpose) : Prop :=
  ∀ e ∈ names, find exports.entries (siphash e.identifier) ≠ none

/-- What an import exposes of a module. -/
def exposedBindings (exports : Exports) : Expose → List (UInt64 × Value)
  | .none => []
  | .all => exports.entries
  | .names names => takenBindings siphash exports names

/-- The names that an import binds with their values: the alias, and what it exposes of the module. -/
def importBindings (module : Value) (exports : Exports) (as_ : Option Name) (expose : Expose) :
    List (UInt64 × Value) :=
  (as_.toList.map fun name => (siphash name, module)) ++ exposedBindings siphash exports expose

/-- The names that an import declares: they must be new in the current scope. -/
def importDeclares (as_ : Option Name) (expose : Expose) : List UInt64 :=
  (as_.toList.map siphash) ++ expose.listed.map fun e => siphash e.declared

end

/-- The number of instructions for what an import exposes. -/
def exposeLength : Expose → ℕ
  | .none => 0
  | .all => 1
  | .names names => if 1 < names.length then 3 * names.length else 2 * names.length

/-- The number of instructions of an import from `OP_IMPORT` on. -/
def importLength (as_ : Option Name) (expose : Expose) : ℕ :=
  1 + as_.toList.length + exposeLength expose

/-- The bindings were made in a scope, the later ones over the earlier ones, and nothing else is bound
otherwise in any scope. -/
structure Heap.Binds (h h' : Heap) (scope : ℕ) (done : List (UInt64 × Value)) : Prop where
  scopes : h'.scopes.length = h.scopes.length
  inner : ∀ hash, h'.binding scope hash = (find done.reverse hash).or (h.binding scope hash)
  outer : ∀ other, other ≠ scope → ∀ hash, h'.binding other hash = h.binding other hash

/-- The names are different, and new in the scope. -/
def Heap.Clean (h : Heap) (scope : ℕ) (hashes : List UInt64) : Prop :=
  hashes.Nodup ∧ ∀ hash ∈ hashes, h.binding scope hash = none

/-- What an import leaves behind in a scope: some first of its bindings, all of them if no error was
raised, and an error exactly if a name is missing or declared already. -/
structure Outcome (h h' : Heap) (scope : ℕ) (bindings : List (UInt64 × Value))
    (hashes : List UInt64) (exported : Prop) (raised : Bool) : Prop where
  binds : ∃ done, done <+: bindings ∧ h.Binds h' scope done ∧ (raised = false → done = bindings)
  completes : raised = false ↔ exported ∧ h.Clean scope hashes

/-! ## Bindings, one after the other -/

/-- A name is bound in a scope: `hashmap_insert_GC`. -/
def Heap.declare (h : Heap) (scope : ℕ) (hash : UInt64) (v : Value) : Heap :=
  h.setScope scope (put (h.scope scope) hash v)

theorem Heap.binding_setScope_of_ne (h : Heap) {scope id : ℕ} (hne : id ≠ scope)
    (vars : List (UInt64 × Value)) (hash : UInt64) :
    (h.setScope id vars).binding scope hash = h.binding scope hash := by
  unfold Heap.binding Heap.scope Heap.setScope
  rw [List.getD_eq_getElem?_getD, List.getD_eq_getElem?_getD, List.getElem?_set_ne hne]

theorem Heap.binding_declare (h : Heap) {scope : ℕ} (hscope : scope < h.scopes.length)
    (hash : UInt64) (v : Value) (hash' : UInt64) :
    (h.declare scope hash v).binding scope hash' =
      if hash = hash' then some v else h.binding scope hash' := by
  unfold Heap.declare
  rw [h.binding_put hscope]
  simp only [and_true]

theorem Heap.length_declare (h : Heap) (scope : ℕ) (hash : UInt64) (v : Value) :
    (h.declare scope hash v).scopes.length = h.scopes.length := List.length_set

theorem Heap.Binds.refl (h : Heap) (scope : ℕ) : h.Binds h scope [] :=
  ⟨rfl, fun _ => rfl, fun _ _ _ => rfl⟩

theorem Heap.binds_declare (h : Heap) {scope : ℕ} (hscope : scope < h.scopes.length) (hash : UInt64)
    (v : Value) : h.Binds (h.declare scope hash v) scope [(hash, v)] := by
  refine ⟨h.length_declare scope hash v, fun hash' => ?_, fun other hne hash' =>
    h.binding_setScope_of_ne hne.symm _ _⟩
  have hfind : find [(hash, v)].reverse hash' = if hash = hash' then some v else none :=
    find_cons (hash, v) [] hash'
  rw [h.binding_declare hscope, hfind]
  split <;> rfl

theorem Heap.Binds.append {h h₁ h' : Heap} {scope : ℕ} {done done' : List (UInt64 × Value)}
    (hbinds : h.Binds h₁ scope done) (hbinds' : h₁.Binds h' scope done') :
    h.Binds h' scope (done ++ done') := by
  refine ⟨hbinds'.scopes.trans hbinds.scopes, fun hash => ?_, fun other hne hash => ?_⟩
  · rw [hbinds'.inner, hbinds.inner, List.reverse_append, find_append, Option.or_assoc]
  · rw [hbinds'.outer other hne, hbinds.outer other hne]

/-- Names are clean behind a new one if they are clean with it. -/
theorem Heap.clean_cons {h : Heap} {scope : ℕ} (hscope : scope < h.scopes.length) {hash : UInt64}
    (v : Value) (hnew : h.binding scope hash = none) (hashes : List UInt64) :
    h.Clean scope (hash :: hashes) ↔ (h.declare scope hash v).Clean scope hashes := by
  unfold Heap.Clean
  rw [List.nodup_cons]
  have hiff : ∀ hash' ∈ hashes, (h.declare scope hash v).binding scope hash' = none ↔
      hash ≠ hash' ∧ h.binding scope hash' = none := by
    intro hash' _
    rw [h.binding_declare hscope]
    by_cases heq : hash = hash'
    · simp [heq]
    · simp [heq]
  constructor
  · rintro ⟨⟨hmem, hnodup⟩, hnone⟩
    refine ⟨hnodup, fun hash' hmem' => (hiff hash' hmem').mpr ⟨?_, ?_⟩⟩
    · rintro rfl
      exact hmem hmem'
    · exact hnone hash' (List.mem_cons_of_mem _ hmem')
  · rintro ⟨hnodup, hnone⟩
    refine ⟨⟨fun hmem => ((hiff hash hmem).mp (hnone hash hmem)).1 rfl, hnodup⟩, ?_⟩
    intro hash' hmem'
    rcases List.mem_cons.mp hmem' with rfl | hmem'
    · exact hnew
    · exact ((hiff hash' hmem').mp (hnone hash' hmem')).2

namespace Outcome

variable {h h₁ h' : Heap} {scope : ℕ} {bindings : List (UInt64 × Value)} {hashes : List UInt64}
  {exported exported' : Prop} {raised : Bool}

/-- A new name, and what follows. -/
theorem fresh (hscope : scope < h.scopes.length) {hash : UInt64} {v : Value}
    (hnew : h.binding scope hash = none)
    (hrest : Outcome (h.declare scope hash v) h' scope bindings hashes exported raised) :
    Outcome h h' scope ((hash, v) :: bindings) (hash :: hashes) exported raised := by
  obtain ⟨⟨done, hinitial, hbinds, hall⟩, hcompletes⟩ := hrest
  refine ⟨⟨(hash, v) :: done, ?_, (h.binds_declare hscope hash v).append hbinds, ?_⟩, ?_⟩
  · exact List.cons_prefix_cons.mpr ⟨rfl, hinitial⟩
  · intro hraised
    rw [hall hraised]
  · rw [hcompletes, Heap.clean_cons hscope v hnew]

/-- A name that is bound already is bound again, and raises an error. -/
theorem bound (hscope : scope < h.scopes.length) {hash : UInt64} {v : Value}
    (hbound : h.binding scope hash ≠ none) :
    Outcome h (h.declare scope hash v) scope ((hash, v) :: bindings) (hash :: hashes) exported
      true := by
  refine ⟨⟨[(hash, v)], ?_, h.binds_declare hscope hash v, fun hraised => by cases hraised⟩, ?_⟩
  · exact List.cons_prefix_cons.mpr ⟨rfl, List.nil_prefix⟩
  · constructor
    · intro hraised
      cases hraised
    · rintro ⟨_, _, hnone⟩
      exact (hbound (hnone hash List.mem_cons_self)).elim

/-- A name that is missing raises an error. -/
theorem missing (hmissing : ¬exported) : Outcome h h scope bindings hashes exported true := by
  refine ⟨⟨[], List.nil_prefix, Heap.Binds.refl h scope, fun hraised => by cases hraised⟩, ?_⟩
  constructor
  · intro hraised
    cases hraised
  · rintro ⟨hexported, _⟩
    exact (hmissing hexported).elim

/-- Nothing is left to bind. -/
theorem nil (hexported : exported) : Outcome h h scope [] [] exported false :=
  ⟨⟨[], List.prefix_rfl, Heap.Binds.refl h scope, fun _ => rfl⟩, by simp [hexported, Heap.Clean]⟩

theorem congr (ho : Outcome h h' scope bindings hashes exported raised)
    (hiff : exported ↔ exported') : Outcome h h' scope bindings hashes exported' raised :=
  ⟨ho.binds, by rw [ho.completes, hiff]⟩

end Outcome

/-! ## The instructions of an import, one after the other -/

/-- The frame behind an instruction. -/
def Frame.past (f : Frame) (i : Instr) : Frame := { f with ip := f.ip + i.encode.length }

/-- The frame is at these instructions. -/
def Frame.At (f : Frame) (code : List Instr) (tail : List UInt8) : Prop :=
  f.bytecode.drop f.ip = code.flatMap Instr.encode ++ tail

theorem Frame.At.fetch {f : Frame} {i : Instr} {code : List Instr} {tail : List UInt8}
    (hat : f.At (i :: code) tail) :
    f.fetch = some (i, f.past i) ∧ f.ip < f.bytecode.length ∧ (f.past i).At code tail := by
  have hbytes : f.bytecode.drop f.ip = i.encode ++ (code.flatMap Instr.encode ++ tail) := by
    unfold Frame.At at hat
    rw [hat, List.flatMap_cons, List.append_assoc]
  have hlength : f.bytecode.length - f.ip =
      i.encode.length + (code.flatMap Instr.encode ++ tail).length := by
    rw [← List.length_drop, hbytes, List.length_append]
  have hpos : 0 < i.encode.length := List.length_pos_of_ne_nil i.encode_ne_nil
  have hip : f.bytecode.length - (code.flatMap Instr.encode ++ tail).length =
      f.ip + i.encode.length := by omega
  refine ⟨?_, by omega, ?_⟩
  · unfold Frame.fetch Frame.past
    rw [hbytes, decode_encode, Option.map_some]
    dsimp only
    rw [hip]
  · show f.bytecode.drop (f.ip + i.encode.length) = _
    rw [← List.drop_drop, hbytes, List.drop_left]

/-- What does not change in a machine while a frame executes an import: the machine, the innermost
`runtime` call, and the frames and the calls below. -/
structure Surroundings where
  machine : Machine
  invocation : Invocation
  frames : List Frame
  invocations : List Invocation

/-- The machine with this heap, this frame and this error. -/
def Surroundings.at (s : Surroundings) (h : Heap) (f : Frame) (err : Option Value) : Machine :=
  { s.machine with
    heap := h
    invocations := { s.invocation with frames := f :: s.frames, err := err } :: s.invocations }

namespace Surroundings

variable {s : Surroundings} {h : Heap} {f : Frame} {i : Instr} {code : List Instr}
  {tail : List UInt8} {contents : Value → Exports} {module : Value} {a : Answer}
  {as : List Answer}

theorem at_inj {h' : Heap} {f' : Frame} {err err' : Option Value}
    (heq : s.at h f err = s.at h' f' err') : h = h' ∧ err = err' := by
  have hinvs := congrArg (fun m => m.invocations.head?.bind Invocation.err) heq
  exact ⟨congrArg Machine.heap heq, hinvs⟩

theorem step_at (hat : f.At (i :: code) tail) (a : Answer) :
    step (s.at h f none) (.exec a) =
      (execInstr h s.invocation.stack f.ip (f.past i) a i).map fun r => s.at r.1 r.2.1 r.2.2 := by
  obtain ⟨hfetch, hip, _⟩ := hat.fetch
  unfold step Surroundings.at
  dsimp only
  rw [if_pos (show Invocation.Running _ f from ⟨rfl, hip⟩), hfetch]
  show (execInstr h s.invocation.stack f.ip (f.past i) a i).bind _ = _
  rw [Option.map_eq_bind]
  rfl

theorem executing_at (hat : f.At (i :: code) tail) (a : Answer) :
    (s.at h f none).executing (.exec a) = some (i, s.invocation.stack, f.past i, a) := by
  unfold Machine.executing Surroundings.at
  dsimp only
  rw [hat.fetch.1]
  rfl

/-- An instruction that leaves a machine without an error. -/
theorem execs_cons (hat : f.At (i :: code) tail) {h' : Heap} {f' : Frame} {err : Option Value}
    (hexec : execInstr h s.invocation.stack f.ip (f.past i) a i = some (h', f', err)) :
    (s.at h f none).execs (a :: as) = (s.at h' f' err).execs as := by
  have hraised : (s.at h f none).raised = false := rfl
  rw [Machine.execs, if_neg (by rw [hraised]; simp), step_at hat, hexec]
  rfl

/-- Nothing is executed after an error. -/
theorem execs_raised {e : Value} : (s.at h f (some e)).execs as = some (s.at h f (some e)) := by
  cases as with
  | nil => rfl
  | cons a as => exact if_pos rfl

theorem answered_cons (hat : f.At (i :: code) tail) {h' : Heap} {f' : Frame} {err : Option Value}
    (hanswered : (s.at h f none).Answered contents module (a :: as))
    (hexec : execInstr h s.invocation.stack f.ip (f.past i) a i = some (h', f', err)) :
    (s.at h' f' err).Answered contents module as := by
  refine (hanswered rfl).2 _ ?_
  rw [step_at hat, hexec]
  rfl

theorem shows_cons (hat : f.At (i :: code) tail)
    (hanswered : (s.at h f none).Answered contents module (a :: as)) :
    Shows contents module (f.past i) a i :=
  (hanswered rfl).1 _ (executing_at hat a)

end Surroundings

/-- A frame that has gone on in the code and has other things in its registers. -/
structure Frame.Follows (f f' : Frame) (registers : List Value) (code : List Instr)
    (tail : List UInt8) : Prop where
  at_ : f'.At code tail
  stack : f'.stack = f.stack
  registers : f'.registers = registers

namespace Surroundings

variable {s : Surroundings} {h : Heap} {f : Frame} {code : List Instr} {tail : List UInt8}
  {contents : Value → Exports} {module : Value} {a b : Answer} {as : List Answer} {scope : ℕ}
  {outer : List ℕ}

/-- `OP_IMPORT` puts the module in register 0. -/
theorem import_ (hat : f.At (.op .opImport :: code) tail) (hregisters : 0 < f.registers.length)
    (hanswered : (s.at h f none).Answered contents module (a :: as)) :
    ∃ f', f.Follows f' (f.registers.set 0 module) code tail ∧
      (s.at h f none).execs (a :: as) = (s.at h f' none).execs as ∧
      (s.at h f' none).Answered contents module as := by
  obtain ⟨hvalue, herr⟩ := shows_cons hat hanswered
  let f' : Frame := { f.past (.op .opImport) with registers := f.registers.set 0 module }
  have hexec : execInstr h s.invocation.stack f.ip (f.past (.op .opImport)) a (.op .opImport) =
      some (h, f', none) := by
    have hwrite : (f.past (.op .opImport)).write 0 a.value = some f' := by
      rw [hvalue]
      exact if_pos hregisters
    show (do return (h, ← (f.past (.op .opImport)).write 0 a.value, a.err)) = _
    rw [hwrite, herr]
    rfl
  exact ⟨f', ⟨hat.fetch.2.2, rfl, rfl⟩, execs_cons hat hexec, answered_cons hat hanswered hexec⟩

/-- A copy between registers. -/
theorem copy {fromRegister toRegister : UInt8} {v : Value}
    (hat : f.At (.copyToRegister fromRegister toRegister :: code) tail)
    (hread : f.read fromRegister = some v) (hregisters : toRegister.toNat < f.registers.length)
    (hanswered : (s.at h f none).Answered contents module (a :: as)) :
    ∃ f', f.Follows f' (f.registers.set toRegister.toNat v) code tail ∧
      (s.at h f none).execs (a :: as) = (s.at h f' none).execs as ∧
      (s.at h f' none).Answered contents module as := by
  let i : Instr := .copyToRegister fromRegister toRegister
  let f' : Frame := { f.past i with registers := f.registers.set toRegister.toNat v }
  have hexec : execInstr h s.invocation.stack f.ip (f.past i) a i = some (h, f', none) := by
    have hwrite : (f.past i).write toRegister v = some f' := if_pos hregisters
    have hread' : (f.past i).read fromRegister = some v := hread
    show (do return (h, ← (f.past i).write toRegister (← (f.past i).read fromRegister), none)) = _
    rw [hread']
    show (do return (h, ← (f.past i).write toRegister v, none)) = _
    rw [hwrite]
    rfl
  exact ⟨f', ⟨hat.fetch.2.2, rfl, rfl⟩, execs_cons hat hexec, answered_cons hat hanswered hexec⟩

/-- A copy to a register that there is not is undefined. -/
theorem copy_undefined {fromRegister toRegister : UInt8}
    (hat : f.At (.copyToRegister fromRegister toRegister :: code) tail)
    (hregisters : ¬toRegister.toNat < f.registers.length) :
    (s.at h f none).execs (a :: as) = none := by
  let i : Instr := .copyToRegister fromRegister toRegister
  have hexec : execInstr h s.invocation.stack f.ip (f.past i) a i = none := by
    have hwrite : ∀ v, (f.past i).write toRegister v = none := fun v => if_neg hregisters
    show (do return (h, ← (f.past i).write toRegister (← (f.past i).read fromRegister), none)) = _
    cases (f.past i).read fromRegister with
    | none => rfl
    | some v =>
      show (do return (h, ← (f.past i).write toRegister v, none)) = _
      rw [hwrite]
      rfl
  have hraised : (s.at h f none).raised = false := rfl
  rw [Machine.execs, if_neg (by rw [hraised]; simp), step_at hat, hexec]
  rfl

/-- A declaration of a name that the scope does not have. -/
theorem declare_fresh {siphash : List UInt8 → UInt64} {name : Name} {position : UInt64} {v : Value}
    (hat : f.At (declareInstr siphash name position :: code) tail) (hstack : f.stack = scope :: outer)
    (hread : f.read 0 = some v) (hnew : h.binding scope (siphash name) = none)
    (hanswered : (s.at h f none).Answered contents module (a :: as)) :
    ∃ f', f.Follows f' f.registers code tail ∧
      (s.at h f none).execs (a :: as) =
        (s.at (h.declare scope (siphash name) v) f' none).execs as ∧
      (s.at (h.declare scope (siphash name) v) f' none).Answered contents module as := by
  let i : Instr := declareInstr siphash name position
  have hexec : execInstr h s.invocation.stack f.ip (f.past i) a i =
      some (h.declare scope (siphash name) v, f.past i, none) := by
    have hread' : (f.past i).read 0 = some v := hread
    have hstack' : (f.past i).stack = scope :: outer := hstack
    have hnone : (find (h.scope scope) (siphash name)).isSome = false := by
      rw [show find (h.scope scope) (siphash name) = none from hnew]
      rfl
    simp only [i, declareInstr, execInstr] at hread' hstack' ⊢
    simp only [hread', hstack', hnone]
    rfl
  exact ⟨f.past i, ⟨hat.fetch.2.2, rfl, rfl⟩, execs_cons hat hexec,
    answered_cons hat hanswered hexec⟩

/-- A declaration of a name that the scope has. -/
theorem declare_bound {siphash : List UInt8 → UInt64} {name : Name} {position : UInt64} {v : Value}
    (hat : f.At (declareInstr siphash name position :: code) tail) (hstack : f.stack = scope :: outer)
    (hread : f.read 0 = some v) (hbound : h.binding scope (siphash name) ≠ none) :
    ∃ f' e, (s.at h f none).execs (a :: as) =
      some (s.at (h.declare scope (siphash name) v) f' (some e)) := by
  let i : Instr := declareInstr siphash name position
  have hexec : execInstr h s.invocation.stack f.ip (f.past i) a i =
      some (h.declare scope (siphash name) v, f.past i, some a.exception) := by
    have hread' : (f.past i).read 0 = some v := hread
    have hstack' : (f.past i).stack = scope :: outer := hstack
    have hsome : (find (h.scope scope) (siphash name)).isSome = true :=
      Option.isSome_iff_ne_none.mpr hbound
    simp only [i, declareInstr, execInstr] at hread' hstack' ⊢
    simp only [hread', hstack', hsome]
    rfl
  exact ⟨f.past i, a.exception, (execs_cons hat hexec).trans execs_raised⟩

/-- A name that the dictionary in register 0 has. -/
theorem expose_found {length offset hash : UInt64} {v w : Value}
    (hat : f.At (.expose length offset hash :: code) tail) (hread : f.read 0 = some v)
    (hfind : find (contents v).entries hash = some w)
    (hanswered : (s.at h f none).Answered contents module (a :: as)) :
    ∃ f', f.Follows f' (f.registers.set 0 w) code tail ∧
      (s.at h f none).execs (a :: as) = (s.at h f' none).execs as ∧
      (s.at h f' none).Answered contents module as := by
  let i : Instr := .expose length offset hash
  have hshows := shows_cons hat hanswered v hread
  rw [hfind] at hshows
  obtain ⟨hvalue, herr⟩ := hshows
  let f' : Frame := { f.past i with registers := f.registers.set 0 w }
  have hregisters : 0 < f.registers.length := by
    have hlt := (List.getElem?_eq_some_iff.mp hread).1
    exact hlt
  have hexec : execInstr h s.invocation.stack f.ip (f.past i) a i = some (h, f', none) := by
    have hwrite : (f.past i).write 0 a.value = some f' := by
      rw [hvalue]
      exact if_pos hregisters
    simp only [i, execInstr] at hwrite ⊢
    rw [herr]
    dsimp only
    rw [hwrite]
    rfl
  exact ⟨f', ⟨hat.fetch.2.2, rfl, rfl⟩, execs_cons hat hexec, answered_cons hat hanswered hexec⟩

/-- A name that it does not have. -/
theorem expose_missing {length offset hash : UInt64} {v : Value}
    (hat : f.At (.expose length offset hash :: code) tail) (hread : f.read 0 = some v)
    (hfind : find (contents v).entries hash = none)
    (hanswered : (s.at h f none).Answered contents module (a :: as)) :
    ∃ f' e, (s.at h f none).execs (a :: as) = some (s.at h f' (some e)) := by
  let i : Instr := .expose length offset hash
  have hshows := shows_cons hat hanswered v hread
  rw [hfind] at hshows
  obtain ⟨e, herr⟩ := Option.isSome_iff_exists.mp hshows
  have hexec : execInstr h s.invocation.stack f.ip (f.past i) a i = some (h, f.past i, some e) := by
    simp only [i, execInstr]
    rw [herr]
  exact ⟨f.past i, e, (execs_cons hat hexec).trans execs_raised⟩

/-- `OP_EXPOSE_ALL` writes to the scope that the `runtime` call was started with. -/
theorem exposeAll {v : Value} {base : ℕ} {rest : List ℕ}
    (hat : f.At (.op .exposeAll :: code) tail) (hread : f.read 0 = some v)
    (hbase : s.invocation.stack = base :: rest)
    (hanswered : (s.at h f none).Answered contents module (a :: as)) :
    ∃ f', (s.at h f none).execs (a :: as) = (s.at (h.setScope base
      ((contents v).entries.foldl (fun vars e => put vars e.1 e.2) (h.scope base))) f' none).execs as := by
  have hentries : a.entries = (contents v).entries := shows_cons hat hanswered v hread
  refine ⟨f.past (.op .exposeAll), execs_cons hat ?_⟩
  simp only [execInstr, execOp, hbase, hentries]

/-- Without such a scope it is undefined. -/
theorem exposeAll_undefined (hat : f.At (.op .exposeAll :: code) tail)
    (hbase : s.invocation.stack = []) : (s.at h f none).execs (a :: as) = none := by
  have hexec : execInstr h s.invocation.stack f.ip (f.past (.op .exposeAll)) a (.op .exposeAll) =
      none := by
    simp only [execInstr, execOp, hbase]
  have hraised : (s.at h f none).raised = false := rfl
  rw [Machine.execs, if_neg (by rw [hraised]; simp), step_at hat, hexec]
  rfl

/-! ## A name of the list -/

variable {siphash : List UInt8 → UInt64} {e : PlacedExpose} {v w : Value}

/-- A name that is missing. -/
theorem take_missing (hat : f.At (e.take siphash ++ code) tail) (hread : f.read 0 = some v)
    (hfind : find (contents v).entries (siphash e.expose.identifier) = none)
    (hanswered : (s.at h f none).Answered contents module (a :: b :: as)) :
    ∃ f' err, (s.at h f none).execs (a :: b :: as) = some (s.at h f' (some err)) := by
  let i : Instr :=
    .expose (u64 e.expose.identifier.length) e.position (siphash e.expose.identifier)
  have hat' : f.At (i :: declareInstr siphash e.expose.declared e.declaredPosition :: code) tail := hat
  exact expose_missing hat' hread hfind hanswered

/-- A name that is declared already. -/
theorem take_bound (hat : f.At (e.take siphash ++ code) tail) (hstack : f.stack = scope :: outer)
    (hread : f.read 0 = some v)
    (hfind : find (contents v).entries (siphash e.expose.identifier) = some w)
    (hbound : h.binding scope (siphash e.expose.declared) ≠ none)
    (hanswered : (s.at h f none).Answered contents module (a :: b :: as)) :
    ∃ f' err, (s.at h f none).execs (a :: b :: as) =
      some (s.at (h.declare scope (siphash e.expose.declared) w) f' (some err)) := by
  let i : Instr :=
    .expose (u64 e.expose.identifier.length) e.position (siphash e.expose.identifier)
  have hat' : f.At (i :: declareInstr siphash e.expose.declared e.declaredPosition :: code) tail := hat
  obtain ⟨f₁, hfollows, hexecs, _⟩ := expose_found hat' hread hfind hanswered
  have hlt := (List.getElem?_eq_some_iff.mp hread).1
  have hread₁ : f₁.read 0 = some w := by
    unfold Frame.read
    rw [hfollows.registers]
    exact List.getElem?_set_self hlt
  rw [hexecs]
  exact declare_bound hfollows.at_ (hfollows.stack.trans hstack) hread₁ hbound

/-- A name that is new. -/
theorem take_fresh (hat : f.At (e.take siphash ++ code) tail) (hstack : f.stack = scope :: outer)
    (hread : f.read 0 = some v)
    (hfind : find (contents v).entries (siphash e.expose.identifier) = some w)
    (hnew : h.binding scope (siphash e.expose.declared) = none)
    (hanswered : (s.at h f none).Answered contents module (a :: b :: as)) :
    ∃ f', f.Follows f' (f.registers.set 0 w) code tail ∧
      (s.at h f none).execs (a :: b :: as) =
        (s.at (h.declare scope (siphash e.expose.declared) w) f' none).execs as ∧
      (s.at (h.declare scope (siphash e.expose.declared) w) f' none).Answered contents module as := by
  let i : Instr :=
    .expose (u64 e.expose.identifier.length) e.position (siphash e.expose.identifier)
  have hat' : f.At (i :: declareInstr siphash e.expose.declared e.declaredPosition :: code) tail := hat
  obtain ⟨f₁, hfollows, hexecs, hanswered₁⟩ := expose_found hat' hread hfind hanswered
  have hlt := (List.getElem?_eq_some_iff.mp hread).1
  have hread₁ : f₁.read 0 = some w := by
    unfold Frame.read
    rw [hfollows.registers]
    exact List.getElem?_set_self hlt
  obtain ⟨f₂, hfollows₂, hexecs₂, hanswered₂⟩ :=
    declare_fresh hfollows.at_ (hfollows.stack.trans hstack) hread₁ hnew hanswered₁
  exact ⟨f₂, ⟨hfollows₂.at_, hfollows₂.stack.trans hfollows.stack,
    hfollows₂.registers.trans hfollows.registers⟩, hexecs.trans hexecs₂, hanswered₂⟩

/-! ## All names of the list -/

/-- The rest of an import ends, and leaves these bindings behind. -/
def Ends (s : Surroundings) (h : Heap) (f : Frame) (answers : List Answer) (scope : ℕ)
    (bindings : List (UInt64 × Value)) (hashes : List UInt64) (exported : Prop) : Prop :=
  ∃ h' f' err, (s.at h f none).execs answers = some (s.at h' f' err) ∧
    Outcome h h' scope bindings hashes exported err.isSome

theorem Ends.of_execs {h' : Heap} {f' : Frame} {answers answers' : List Answer}
    {bindings : List (UInt64 × Value)} {hashes : List UInt64} {exported : Prop} (hheap : h' = h)
    (hexecs : (s.at h f none).execs answers = (s.at h' f' none).execs answers')
    (hends : s.Ends h' f' answers' scope bindings hashes exported) :
    s.Ends h f answers scope bindings hashes exported := by
  subst hheap
  obtain ⟨h₁, f₁, err, hexecs₁, houtcome⟩ := hends
  exact ⟨h₁, f₁, err, hexecs.trans hexecs₁, houtcome⟩

/-- A name of the list, and what follows if no error is raised. -/
theorem ends_take {es : List PlacedExpose} (hscope : scope < h.scopes.length)
    (hat : f.At (e.take siphash ++ code) tail) (hstack : f.stack = scope :: outer)
    (hread : f.read 0 = some v)
    (hanswered : (s.at h f none).Answered contents module (a :: b :: as))
    (hrest : ∀ w f', find (contents v).entries (siphash e.expose.identifier) = some w →
      h.binding scope (siphash e.expose.declared) = none →
      f.Follows f' (f.registers.set 0 w) code tail →
      (s.at (h.declare scope (siphash e.expose.declared) w) f' none).Answered contents module as →
      s.Ends (h.declare scope (siphash e.expose.declared) w) f' as scope
        (takenBindings siphash (contents v) (es.map PlacedExpose.expose))
        (es.map fun e => siphash e.expose.declared)
        ((contents v).HasAll siphash (es.map PlacedExpose.expose))) :
    s.Ends h f (a :: b :: as) scope
      (takenBindings siphash (contents v) ((e :: es).map PlacedExpose.expose))
      ((e :: es).map fun e => siphash e.expose.declared)
      ((contents v).HasAll siphash ((e :: es).map PlacedExpose.expose)) := by
  cases hfind : find (contents v).entries (siphash e.expose.identifier) with
  | none =>
    obtain ⟨f', err, hexecs⟩ := take_missing hat hread hfind hanswered
    refine ⟨h, f', some err, hexecs, Outcome.missing fun hall => ?_⟩
    exact hall e.expose List.mem_cons_self hfind
  | some w =>
    have hbindings : takenBindings siphash (contents v) ((e :: es).map PlacedExpose.expose) =
        (siphash e.expose.declared, w) ::
          takenBindings siphash (contents v) (es.map PlacedExpose.expose) := by
      unfold takenBindings
      rw [List.map_cons, List.filterMap_cons, hfind]
      rfl
    rw [hbindings, List.map_cons, List.map_cons]
    by_cases hnew : h.binding scope (siphash e.expose.declared) = none
    · obtain ⟨f', hfollows, hexecs, hanswered'⟩ :=
        take_fresh hat hstack hread hfind hnew hanswered
      obtain ⟨h₁, f₁, err, hexecs₁, houtcome⟩ := hrest w f' hfind hnew hfollows hanswered'
      refine ⟨h₁, f₁, err, hexecs.trans hexecs₁, Outcome.fresh hscope hnew (houtcome.congr ?_)⟩
      unfold Exports.HasAll
      rw [List.forall_mem_cons, hfind]
      simp
    · obtain ⟨f', err, hexecs⟩ := take_bound hat hstack hread hfind hnew hanswered
      exact ⟨_, f', some err, hexecs, Outcome.bound hscope hnew⟩

theorem exists_cons₃ {α : Type*} {xs : List α} {n : ℕ} (hlength : xs.length = 3 * (n + 1)) :
    ∃ a b c ys, xs = a :: b :: c :: ys ∧ ys.length = 3 * n := by
  match xs, hlength with
  | [], hlength | [_], hlength | [_, _], hlength =>
    simp only [List.length_cons, List.length_nil] at hlength
    omega
  | a :: b :: c :: ys, hlength =>
    simp only [List.length_cons] at hlength
    exact ⟨a, b, c, ys, rfl, by omega⟩

/-- The names behind the first one, with the module in a register of its own. -/
theorem ends_retake {registerA : UInt8} (hregisterA : registerA ≠ 0) (es : List PlacedExpose)
    {h : Heap} {f : Frame} {answers : List Answer} (hscope : scope < h.scopes.length)
    (hat : f.At (es.flatMap (·.retake siphash registerA)) tail) (hstack : f.stack = scope :: outer)
    (hread : f.read registerA = some v) (hlength : answers.length = 3 * es.length)
    (hanswered : (s.at h f none).Answered contents module answers) :
    s.Ends h f answers scope (takenBindings siphash (contents v) (es.map PlacedExpose.expose))
      (es.map fun e => siphash e.expose.declared)
      ((contents v).HasAll siphash (es.map PlacedExpose.expose)) := by
  induction es generalizing h f answers with
  | nil =>
    obtain rfl := List.length_eq_zero_iff.mp hlength
    exact ⟨h, f, none, rfl, Outcome.nil fun e he => (List.not_mem_nil he).elim⟩
  | cons e es ih =>
    obtain ⟨a, b, c, as, rfl, hlength'⟩ := exists_cons₃ hlength
    have hregister : registerA.toNat < f.registers.length :=
      (List.getElem?_eq_some_iff.mp hread).1
    have hpos : (0 : UInt8).toNat < f.registers.length := (Nat.zero_le _).trans_lt hregister
    have hat' : f.At (.copyToRegister registerA 0 ::
        (e.take siphash ++ es.flatMap (·.retake siphash registerA))) tail := hat
    obtain ⟨f₁, hfollows, hexecs, hanswered₁⟩ := copy hat' hread hpos hanswered
    -- The module is in both registers.
    have hread₁ : f₁.read 0 = some v := by
      unfold Frame.read
      rw [hfollows.registers]
      exact List.getElem?_set_self hpos
    refine Ends.of_execs rfl hexecs (ends_take hscope hfollows.at_ (hfollows.stack.trans hstack)
      hread₁ hanswered₁ fun w f₂ _ _ hfollows₂ hanswered₂ => ?_)
    have hne : (0 : UInt8).toNat ≠ registerA.toNat := fun heq =>
      hregisterA (UInt8.toNat_inj.mp heq).symm
    have hread₂ : f₂.read registerA = some v := by
      unfold Frame.read
      rw [hfollows₂.registers, List.getElem?_set_ne (by simpa using hne), hfollows.registers,
        List.getElem?_set_ne hne]
      exact hread
    exact ih (by rw [h.length_declare]; exact hscope) hfollows₂.at_
      (hfollows₂.stack.trans (hfollows.stack.trans hstack)) hread₂ hlength' hanswered₂

/-- All names. With more than one, the register of the module must be there, and it must not be
register 0, unless the first name ends the import. -/
theorem ends_takeAll {registerA : UInt8} (es : List PlacedExpose) {answers : List Answer}
    (hscope : scope < h.scopes.length) (hat : f.At (takeAll siphash registerA es) tail)
    (hstack : f.stack = scope :: outer) (hread : f.read 0 = some v)
    (hlength : answers.length = if 1 < es.length then 3 * es.length else 2 * es.length)
    (hanswered : (s.at h f none).Answered contents module answers)
    (hregister : 1 < es.length → registerA.toNat < f.registers.length ∧
      (registerA = 0 → ∃ e ∈ es.head?, h.binding scope (siphash e.expose.declared) ≠ none)) :
    s.Ends h f answers scope (takenBindings siphash (contents v) (es.map PlacedExpose.expose))
      (es.map fun e => siphash e.expose.declared)
      ((contents v).HasAll siphash (es.map PlacedExpose.expose)) := by
  match es, hlength, hat, hregister with
  | [], hlength, _, _ =>
    obtain rfl := List.length_eq_zero_iff.mp hlength
    exact ⟨h, f, none, rfl, Outcome.nil fun e he => (List.not_mem_nil he).elim⟩
  | [e], hlength, hat, _ =>
    obtain ⟨a, b, rfl⟩ := List.length_eq_two.mp (show answers.length = 2 from hlength)
    have hat' : f.At (e.take siphash ++ []) tail := by
      rw [List.append_nil]
      exact hat
    refine ends_take hscope hat' hstack hread hanswered fun w f' _ _ _ _ => ?_
    exact ⟨_, f', none, rfl, Outcome.nil fun e he => (List.not_mem_nil he).elim⟩
  | e :: e' :: es, hlength, hat, hregister =>
    have hmany : 1 < (e :: e' :: es).length := by simp
    obtain ⟨hregisterA, hzero⟩ := hregister hmany
    rw [if_pos hmany] at hlength
    obtain ⟨a, b, c, as, rfl, hlength'⟩ := exists_cons₃ hlength
    obtain ⟨f₁, hfollows, hexecs, hanswered₁⟩ := copy hat hread hregisterA hanswered
    have hpos : (0 : UInt8).toNat < f.registers.length := (Nat.zero_le _).trans_lt hregisterA
    have hread₁ : ∀ r : UInt8, r = 0 ∨ r = registerA → f₁.read r = some v := by
      rintro r hr
      unfold Frame.read
      rw [hfollows.registers]
      by_cases heq : registerA.toNat = r.toNat
      · rw [heq, List.getElem?_set_self (heq ▸ hregisterA)]
      · rw [List.getElem?_set_ne heq]
        rcases hr with rfl | rfl
        · exact hread
        · exact (heq rfl).elim
    refine Ends.of_execs rfl hexecs (ends_take hscope hfollows.at_ (hfollows.stack.trans hstack)
      (hread₁ 0 (Or.inl rfl)) hanswered₁ fun w f₂ _ hnew hfollows₂ hanswered₂ => ?_)
    -- The first name has not ended the import, so the register is another one.
    have hne : registerA ≠ 0 := by
      intro heq
      obtain ⟨e₁, he₁, hbound⟩ := hzero heq
      obtain rfl := Option.some.inj he₁
      exact hbound hnew
    have hne' : (0 : UInt8).toNat ≠ registerA.toNat := fun heq =>
      hne (UInt8.toNat_inj.mp heq).symm
    have hread₂ : f₂.read registerA = some v := by
      have hread := hread₁ registerA (Or.inr rfl)
      unfold Frame.read at hread ⊢
      rw [hfollows₂.registers, List.getElem?_set_ne (by simpa using hne'), hread]
    exact ends_retake hne (e' :: es) (by rw [h.length_declare]; exact hscope) hfollows₂.at_
      (hfollows₂.stack.trans (hfollows.stack.trans hstack)) hread₂ hlength' hanswered₂

/-! ## The import -/

/-- What is exposed goes to the scope of the frame: when everything is exposed, that is the scope that
the `runtime` call was started with, and when several names are, the module has a register. -/
def Sound (s : Surroundings) (siphash : List UInt8 → UInt64) (h : Heap) (f : Frame) (scope : ℕ)
    (registerA : UInt8) : Expose → Prop
  | .none => True
  | .all => s.invocation.stack.head? = some scope
  | .names names => 1 < names.length → registerA.toNat < f.registers.length ∧
    (registerA = 0 → ∃ e ∈ names.head?, h.binding scope (siphash e.declared) ≠ none)

theorem ends_expose {registerA : UInt8} {expose : Expose} {es : List PlacedExpose}
    {answers : List Answer} (hscope : scope < h.scopes.length)
    (hat : f.At (exposeCode siphash registerA es expose) tail)
    (hes : es.map PlacedExpose.expose = expose.listed) (hstack : f.stack = scope :: outer)
    (hread : f.read 0 = some v) (hlength : answers.length = exposeLength expose)
    (hanswered : (s.at h f none).Answered contents module answers)
    (hsound : s.Sound siphash h f scope registerA expose) :
    s.Ends h f answers scope (exposedBindings siphash (contents v) expose)
      (expose.listed.map fun e => siphash e.declared)
      ((contents v).HasAll siphash expose.listed) := by
  cases expose with
  | none =>
    obtain rfl := List.length_eq_zero_iff.mp hlength
    exact ⟨h, f, none, rfl, Outcome.nil fun e he => (List.not_mem_nil he).elim⟩
  | all =>
    obtain ⟨a, rfl⟩ := List.length_eq_one_iff.mp hlength
    obtain ⟨rest, hbase⟩ := List.head?_eq_some_iff.mp hsound
    obtain ⟨f', hexecs⟩ := exposeAll hat hread hbase hanswered
    refine ⟨_, f', none, hexecs, ⟨(contents v).entries, List.prefix_rfl, ⟨List.length_set, ?_, ?_⟩,
      fun _ => rfl⟩, ?_⟩
    · intro hash
      rw [h.binding_setScope hscope, if_pos rfl, find_foldl_put]
      rfl
    · exact fun other hne hash => h.binding_setScope_of_ne hne.symm _ _
    · exact iff_of_true rfl ⟨fun e he => (List.not_mem_nil he).elim, List.nodup_nil,
        fun hash hmem => (List.not_mem_nil hmem).elim⟩
  | names names =>
    have hnames : names = es.map PlacedExpose.expose := hes.symm
    subst hnames
    have hat' : f.At (takeAll siphash registerA es) tail := hat
    have hends := ends_takeAll es hscope hat' hstack hread (hlength.trans (by simp [exposeLength]))
      hanswered ?_
    · have hdeclared : (es.map PlacedExpose.expose).map (fun e => siphash e.declared) =
          es.map fun e => siphash e.expose.declared := by
        rw [List.map_map]
        rfl
      show s.Ends h f answers scope _ ((es.map PlacedExpose.expose).map fun e => siphash e.declared) _
      rw [hdeclared]
      exact hends
    · intro hmany
      obtain ⟨hlt, hzero⟩ := hsound (by rw [List.length_map]; exact hmany)
      refine ⟨hlt, fun heq => ?_⟩
      obtain ⟨e, he, hbound⟩ := hzero heq
      cases es with
      | nil => cases he
      | cons e₁ es =>
        obtain rfl := Option.some.inj he
        exact ⟨e₁, rfl, hbound⟩

/-- The heap with the alias bound, if there is one. -/
def aliased (siphash : List UInt8 → UInt64) (h : Heap) (scope : ℕ) (module : Value) :
    Option Name → Heap
  | none => h
  | some name => h.declare scope (siphash name) module

theorem length_aliased (h : Heap) (scope : ℕ) (module : Value) (as_ : Option Name) :
    (aliased siphash h scope module as_).scopes.length = h.scopes.length := by
  cases as_ with
  | none => rfl
  | some name => exact h.length_declare scope _ module

/-- An import with a new alias, or none, gets to what it exposes. -/
theorem reach_expose {registerA : UInt8} {placed : Option (Name × UInt64)} {expose : Expose}
    {es : List PlacedExpose} {answers : List Answer}
    (hat : f.At (importCode siphash registerA placed expose es) tail)
    (hstack : f.stack = scope :: outer) (hregisters : 0 < f.registers.length)
    (hlength : answers.length = importLength (placed.map Prod.fst) expose)
    (hanswered : (s.at h f none).Answered contents module answers)
    (hnew : ∀ name ∈ placed.map Prod.fst, h.binding scope (siphash name) = none) :
    ∃ f' answers', f'.At (exposeCode siphash registerA es expose) tail ∧
      f'.stack = scope :: outer ∧ f'.read 0 = some module ∧
      f'.registers.length = f.registers.length ∧ answers'.length = exposeLength expose ∧
      (s.at (aliased siphash h scope module (placed.map Prod.fst)) f' none).Answered contents module
        answers' ∧
      (s.at h f none).execs answers =
        (s.at (aliased siphash h scope module (placed.map Prod.fst)) f' none).execs answers' := by
  unfold importLength at hlength
  match answers, hlength, hanswered with
  | [], hlength, _ =>
    rw [List.length_nil] at hlength
    omega
  | a :: as, hlength, hanswered =>
    obtain ⟨f₁, hfollows, hexecs, hanswered₁⟩ := import_ hat hregisters hanswered
    have hread₁ : f₁.read 0 = some module := by
      unfold Frame.read
      rw [hfollows.registers]
      exact List.getElem?_set_self hregisters
    have hstack₁ : f₁.stack = scope :: outer := hfollows.stack.trans hstack
    have hregisters₁ : f₁.registers.length = f.registers.length := by
      rw [hfollows.registers, List.length_set]
    cases placed with
    | none =>
      have hlength' : as.length = exposeLength expose := by
        simp only [Option.map_none, Option.toList_none, List.length_nil, List.length_cons] at hlength
        omega
      exact ⟨f₁, as, hfollows.at_, hstack₁, hread₁, hregisters₁, hlength', hanswered₁, hexecs⟩
    | some p =>
      match as, hlength, hanswered₁ with
      | [], hlength, _ =>
        simp only [Option.map_some, Option.toList_some, List.length_cons, List.length_nil] at hlength
        omega
      | b :: as, hlength, hanswered₁ =>
        have hlength' : as.length = exposeLength expose := by
          simp only [Option.map_some, Option.toList_some, List.length_cons, List.length_nil]
            at hlength
          omega
        obtain ⟨f₂, hfollows₂, hexecs₂, hanswered₂⟩ :=
          declare_fresh hfollows.at_ hstack₁ hread₁ (hnew p.1 rfl) hanswered₁
        refine ⟨f₂, as, hfollows₂.at_, hfollows₂.stack.trans hstack₁, ?_, ?_, hlength', hanswered₂,
          hexecs.trans hexecs₂⟩
        · unfold Frame.read
          rw [hfollows₂.registers]
          exact hread₁
        · rw [hfollows₂.registers, hregisters₁]

/-- An import with an alias that is bound already ends with its declaration. -/
theorem ends_alias {registerA : UInt8} {p : Name × UInt64} {expose : Expose}
    {es : List PlacedExpose} {answers : List Answer} {bindings : List (UInt64 × Value)}
    {hashes : List UInt64} {exported : Prop} (hscope : scope < h.scopes.length)
    (hat : f.At (importCode siphash registerA (some p) expose es) tail)
    (hstack : f.stack = scope :: outer) (hregisters : 0 < f.registers.length)
    (hlength : answers.length = importLength (some p.1) expose)
    (hanswered : (s.at h f none).Answered contents module answers)
    (hbound : h.binding scope (siphash p.1) ≠ none) :
    s.Ends h f answers scope ((siphash p.1, module) :: bindings) (siphash p.1 :: hashes) exported := by
  unfold importLength at hlength
  match answers, hlength, hanswered with
  | [], hlength, _ | [_], hlength, _ =>
    simp only [Option.toList_some, List.length_cons, List.length_nil] at hlength
    omega
  | a :: b :: as, hlength, hanswered =>
    obtain ⟨f₁, hfollows, hexecs, _⟩ := import_ hat hregisters hanswered
    have hread₁ : f₁.read 0 = some module := by
      unfold Frame.read
      rw [hfollows.registers]
      exact List.getElem?_set_self hregisters
    obtain ⟨f₂, e, hexecs₂⟩ :=
      declare_bound hfollows.at_ (hfollows.stack.trans hstack) hread₁ hbound
    exact ⟨_, f₂, some e, hexecs.trans hexecs₂, Outcome.bound hscope hbound⟩

theorem ends_import {registerA : UInt8} {placed : Option (Name × UInt64)} {expose : Expose}
    {es : List PlacedExpose} {answers : List Answer} (hscope : scope < h.scopes.length)
    (hat : f.At (importCode siphash registerA placed expose es) tail)
    (hes : es.map PlacedExpose.expose = expose.listed) (hstack : f.stack = scope :: outer)
    (hregisters : 0 < f.registers.length)
    (hlength : answers.length = importLength (placed.map Prod.fst) expose)
    (hanswered : (s.at h f none).Answered contents module answers)
    (hsound : (∀ name ∈ placed.map Prod.fst, h.binding scope (siphash name) = none) →
      ∀ f' : Frame, f'.registers.length = f.registers.length →
        s.Sound siphash (aliased siphash h scope module (placed.map Prod.fst)) f' scope registerA
          expose) :
    s.Ends h f answers scope
      (importBindings siphash module (contents module) (placed.map Prod.fst) expose)
      (importDeclares siphash (placed.map Prod.fst) expose)
      ((contents module).HasAll siphash expose.listed) := by
  by_cases hnew : ∀ name ∈ placed.map Prod.fst, h.binding scope (siphash name) = none
  · obtain ⟨f₁, answers₁, hat₁, hstack₁, hread₁, hregisters₁, hlength₁, hanswered₁, hexecs₁⟩ :=
      reach_expose hat hstack hregisters hlength hanswered hnew
    obtain ⟨h₂, f₂, err, hexecs₂, houtcome⟩ := ends_expose
      (by rw [length_aliased]; exact hscope) hat₁ hes hstack₁ hread₁ hlength₁ hanswered₁
      (hsound hnew f₁ hregisters₁)
    refine ⟨h₂, f₂, err, hexecs₁.trans hexecs₂, ?_⟩
    cases placed with
    | none => exact houtcome
    | some p => exact Outcome.fresh hscope (hnew p.1 rfl) houtcome
  · cases placed with
    | none => exact (hnew fun name hname => by cases hname).elim
    | some p =>
      have hbound : h.binding scope (siphash p.1) ≠ none := by
        intro hnone
        refine hnew fun name hname => ?_
        obtain rfl := Option.some.inj hname
        exact hnone
      exact ends_alias hscope hat hstack hregisters hlength hanswered hbound

/-! ## Where it goes wrong -/

/-- The same import with every module: what it leaves behind is as it should be. -/
def Exposes (s : Surroundings) (siphash : List UInt8 → UInt64) (h : Heap) (f : Frame) (scope : ℕ)
    (as_ : Option Name) (expose : Expose) : Prop :=
  ∀ (module : Value) (contents : Value → Exports) (answers : List Answer),
    answers.length = importLength as_ expose → (s.at h f none).Answered contents module answers →
      s.Ends h f answers scope (importBindings siphash module (contents module) as_ expose)
        (importDeclares siphash as_ expose) ((contents module).HasAll siphash expose.listed)

/-- A value that is not the one that a variable has. -/
theorem exists_bool_ne (old : Option Value) : ∃ b : Bool, old ≠ some (.bool b) := by
  by_cases htrue : old = some (.bool true)
  · exact ⟨false, by simp [htrue]⟩
  · exact ⟨true, htrue⟩

theorem exists_object_ne (old : Option Value) : ∃ n : ℕ, old ≠ some (.object n) := by
  by_cases hzero : old = some (.object 0)
  · exact ⟨1, by simp [hzero]⟩
  · exact ⟨0, hzero⟩

theorem binding_aliased_of_ne {w : Value} {as_ : Option Name} {hash : UInt64}
    (hscope : scope < h.scopes.length) (hold : h.binding scope hash ≠ some w) (hw : module ≠ w) :
    (aliased siphash h scope module as_).binding scope hash ≠ some w := by
  cases as_ with
  | none => exact hold
  | some name =>
    show (h.declare scope (siphash name) module).binding scope hash ≠ some w
    rw [h.binding_declare hscope]
    split
    · simpa using hw
    · exact hold

/-- Another scope than that of the frame gets the names. -/
theorem not_exposes_all {registerA : UInt8} {placed : Option (Name × UInt64)}
    {es : List PlacedExpose} (hscope : scope < h.scopes.length)
    (hat : f.At (importCode siphash registerA placed .all es) tail)
    (hstack : f.stack = scope :: outer) (hregisters : 0 < f.registers.length)
    (hnew : ∀ name ∈ placed.map Prod.fst, h.binding scope (siphash name) = none)
    (hbase : s.invocation.stack.head? ≠ some scope) :
    ¬s.Exposes siphash h f scope (placed.map Prod.fst) .all := by
  intro hexposes
  -- A module with one name, and a value that is new for it.
  obtain ⟨b, hb⟩ := exists_bool_ne (h.binding scope 0)
  let contents : Value → Exports := fun _ => ⟨[(0, .bool b)], by simp⟩
  obtain ⟨answers, hlength, hanswered⟩ :=
    exists_answered contents .null (importLength (placed.map Prod.fst) .all) (s.at h f none)
  obtain ⟨h', f', err, hexecs, houtcome⟩ := hexposes .null contents answers hlength hanswered
  obtain ⟨f₁, answers₁, hat₁, _, hread₁, _, hlength₁, hanswered₁, hexecs₁⟩ :=
    reach_expose hat hstack hregisters hlength hanswered hnew
  obtain ⟨a, rfl⟩ := List.length_eq_one_iff.mp hlength₁
  rw [hexecs₁] at hexecs
  cases hstack' : s.invocation.stack with
  | nil =>
    rw [exposeAll_undefined hat₁ hstack'] at hexecs
    cases hexecs
  | cons base rest =>
    obtain ⟨f₂, hexecs₂⟩ := exposeAll hat₁ hread₁ hstack' hanswered₁
    rw [hexecs₂] at hexecs
    have hne : base ≠ scope := by
      rintro rfl
      exact hbase (by rw [hstack']; rfl)
    obtain ⟨rfl, rfl⟩ := at_inj (Option.some.inj hexecs)
    obtain ⟨done, _, hbinds, hall⟩ := houtcome.binds
    -- The name should be bound to its value, and is what it was.
    have hshould := hbinds.inner 0
    have hlast : (importBindings siphash .null (contents .null) (placed.map Prod.fst) .all).reverse =
        (0, .bool b) :: ((placed.map Prod.fst).toList.map fun name => (siphash name, .null)).reverse :=
      List.reverse_append
    rw [hall rfl, Heap.binding_setScope_of_ne _ hne, hlast, find_cons, if_pos rfl] at hshould
    exact binding_aliased_of_ne hscope hb (by simp) hshould

/-- The register for the module is not there. -/
theorem not_exposes_names {registerA : UInt8} {placed : Option (Name × UInt64)}
    {names : List ParsedImportExpose} {es : List PlacedExpose}
    (hat : f.At (importCode siphash registerA placed (.names names) es) tail)
    (hes : es.map PlacedExpose.expose = names) (hstack : f.stack = scope :: outer)
    (hregisters : 0 < f.registers.length)
    (hnew : ∀ name ∈ placed.map Prod.fst, h.binding scope (siphash name) = none)
    (hmany : 1 < names.length) (hregister : ¬registerA.toNat < f.registers.length) :
    ¬s.Exposes siphash h f scope (placed.map Prod.fst) (.names names) := by
  intro hexposes
  let contents : Value → Exports := fun _ => ⟨[], by simp⟩
  obtain ⟨answers, hlength, hanswered⟩ := exists_answered contents .null
    (importLength (placed.map Prod.fst) (.names names)) (s.at h f none)
  obtain ⟨h', f', err, hexecs, _⟩ := hexposes .null contents answers hlength hanswered
  obtain ⟨f₁, answers₁, hat₁, _, _, hregisters₁, hlength₁, _, hexecs₁⟩ :=
    reach_expose hat hstack hregisters hlength hanswered hnew
  rw [hexecs₁] at hexecs
  subst hes
  rw [List.length_map] at hmany
  match es, hmany, hat₁ with
  | e :: e' :: es, hmany, hat₁ =>
    rw [exposeLength, List.length_map, if_pos hmany] at hlength₁
    obtain ⟨a, b, c, as, rfl, _⟩ := exists_cons₃ hlength₁
    rw [copy_undefined hat₁ (by rw [hregisters₁]; exact hregister)] at hexecs
    cases hexecs

theorem exists_mem_of_find {α : Type*} {entries : List (UInt64 × α)} {hash : UInt64} {v : α}
    (hfind : find entries hash = some v) : ∃ e ∈ entries, e.2 = v := by
  obtain ⟨e, he, rfl⟩ := Option.map_eq_some_iff.mp hfind
  exact ⟨e, List.mem_of_find?_eq_some he, rfl⟩

theorem read_zero {f' : Frame} (hregisters : 0 < f.registers.length)
    (hfollows : f.Follows f' (f.registers.set 0 v) code tail) : f'.read 0 = some v := by
  unfold Frame.read
  rw [hfollows.registers]
  exact List.getElem?_set_self hregisters

/-- The names behind the first one when register 0 is to keep the module: the second is what register
0 has for it, and the import ends with it. -/
theorem retake_zero {es : List PlacedExpose} {answers : List Answer}
    (hat : f.At ((e :: es).flatMap (·.retake siphash 0)) tail) (hstack : f.stack = scope :: outer)
    (hread : f.read 0 = some v) (hlength : answers.length = 3 * (e :: es).length)
    (hanswered : (s.at h f none).Answered contents module answers)
    (hfind : find (contents v).entries (siphash e.expose.identifier) = some w)
    (hnothing : (contents w).entries = []) :
    ∃ f' err, (s.at h f none).execs answers =
      some (s.at (h.declare scope (siphash e.expose.declared) w) f' err) := by
  obtain ⟨a, b, c, as, rfl, hlength'⟩ := exists_cons₃ hlength
  have hat' : f.At (.copyToRegister 0 0 ::
      (e.take siphash ++ es.flatMap (·.retake siphash 0))) tail := hat
  have hregisters : 0 < f.registers.length := (List.getElem?_eq_some_iff.mp hread).1
  obtain ⟨f₁, hfollows₁, hexecs₁, hanswered₁⟩ := copy hat' hread hregisters hanswered
  have hread₁ := read_zero hregisters hfollows₁
  have hstack₁ := hfollows₁.stack.trans hstack
  by_cases hnew : h.binding scope (siphash e.expose.declared) = none
  · obtain ⟨f₂, hfollows₂, hexecs₂, hanswered₂⟩ :=
      take_fresh hfollows₁.at_ hstack₁ hread₁ hfind hnew hanswered₁
    have hregisters₁ : 0 < f₁.registers.length := (List.getElem?_eq_some_iff.mp hread₁).1
    have hread₂ := read_zero hregisters₁ hfollows₂
    cases es with
    | nil =>
      obtain rfl := List.length_eq_zero_iff.mp hlength'
      exact ⟨f₂, none, hexecs₁.trans hexecs₂⟩
    | cons e' es =>
      -- A third name is looked for in the second, which has nothing.
      obtain ⟨a', b', c', as', rfl, _⟩ := exists_cons₃ hlength'
      have hat₂ : f₂.At (.copyToRegister 0 0 ::
          (e'.take siphash ++ es.flatMap (·.retake siphash 0))) tail := hfollows₂.at_
      have hregisters₂ : 0 < f₂.registers.length := (List.getElem?_eq_some_iff.mp hread₂).1
      obtain ⟨f₃, hfollows₃, hexecs₃, hanswered₃⟩ := copy hat₂ hread₂ hregisters₂ hanswered₂
      obtain ⟨f₄, err, hexecs₄⟩ := take_missing hfollows₃.at_ (read_zero hregisters₂ hfollows₃)
        (by rw [hnothing]; rfl) hanswered₃
      exact ⟨f₄, some err, hexecs₁.trans (hexecs₂.trans (hexecs₃.trans hexecs₄))⟩
  · obtain ⟨f₂, err, hexecs₂⟩ := take_bound hfollows₁.at_ hstack₁ hread₁ hfind hnew hanswered₁
    exact ⟨f₂, some err, hexecs₁.trans hexecs₂⟩

/-- The register for the module is register 0, which the first name overwrites: the second name is
looked for in the first. -/
theorem not_exposes_zero {placed : Option (Name × UInt64)} {names : List ParsedImportExpose}
    {es : List PlacedExpose} (hscope : scope < h.scopes.length)
    (hat : f.At (importCode siphash 0 placed (.names names) es) tail)
    (hes : es.map PlacedExpose.expose = names) (hstack : f.stack = scope :: outer)
    (hregisters : 0 < f.registers.length)
    (hnew : ∀ name ∈ placed.map Prod.fst, h.binding scope (siphash name) = none)
    (hmany : 1 < names.length)
    (hfirst : ∀ e ∈ names.head?, ∀ module,
      (aliased siphash h scope module (placed.map Prod.fst)).binding scope (siphash e.declared) = none) :
    ¬s.Exposes siphash h f scope (placed.map Prod.fst) (.names names) := by
  intro hexposes
  subst hes
  rw [List.length_map] at hmany
  match es, hmany, hat, hfirst, hexposes with
  | e :: e' :: es, hmany, hat, hfirst, hexposes =>
    -- The module has both names, and what it has for the first has the second name, too.
    obtain ⟨n, hn⟩ := exists_object_ne (h.binding scope (siphash e'.expose.declared))
    let exports : Exports := ⟨put [(siphash e.expose.identifier, .bool true)]
      (siphash e'.expose.identifier) (.bool true), nodup_keys_put _ _ (by simp)⟩
    let inner : Exports := ⟨[(siphash e'.expose.identifier, .object n)], by simp⟩
    let contents : Value → Exports := fun v =>
      if v = .null then exports else if v = .bool true then inner else ⟨[], by simp⟩
    have hexports : contents .null = exports := rfl
    have hinner : contents (.bool true) = inner := rfl
    obtain ⟨answers, hlength, hanswered⟩ := exists_answered contents .null
      (importLength (placed.map Prod.fst) (.names ((e :: e' :: es).map PlacedExpose.expose)))
      (s.at h f none)
    obtain ⟨h', f', err, hexecs, houtcome⟩ := hexposes .null contents answers hlength hanswered
    obtain ⟨f₁, answers₁, hat₁, hstack₁, hread₁, hregisters₁, hlength₁, hanswered₁, hexecs₁⟩ :=
      reach_expose hat hstack hregisters hlength hanswered hnew
    rw [exposeLength, List.length_map, if_pos hmany] at hlength₁
    obtain ⟨a, b, c, as, rfl, hlength₂⟩ := exists_cons₃ hlength₁
    rw [← hregisters₁] at hregisters
    -- The first name is taken.
    obtain ⟨f₂, hfollows₂, hexecs₂, hanswered₂⟩ := copy hat₁ hread₁ hregisters hanswered₁
    have hread₂ := read_zero hregisters hfollows₂
    have hfind : find exports.entries (siphash e.expose.identifier) = some (.bool true) := by
      show find (put _ _ _) _ = _
      rw [find_put, find_cons]
      simp
    obtain ⟨f₃, hfollows₃, hexecs₃, hanswered₃⟩ := take_fresh hfollows₂.at_
      (hfollows₂.stack.trans hstack₁) hread₂ hfind (hfirst e.expose rfl .null) hanswered₂
    have hregisters₂ : 0 < f₂.registers.length := by
      rw [hfollows₂.registers, List.length_set]
      exact hregisters
    have hread₃ := read_zero hregisters₂ hfollows₃
    have hregisters₃ : 0 < f₃.registers.length := by
      rw [hfollows₃.registers, List.length_set]
      exact hregisters₂
    -- The second name is looked for in it.
    obtain ⟨f₄, err₄, hexecs₄⟩ := retake_zero hfollows₃.at_
      (hfollows₃.stack.trans (hfollows₂.stack.trans hstack₁)) hread₃ hlength₂ hanswered₃
      (by rw [hinner]; exact (find_cons _ _ _).trans (if_pos rfl)) rfl
    rw [hexecs₁, hexecs₂, hexecs₃, hexecs₄] at hexecs
    obtain ⟨rfl, rfl⟩ := at_inj (Option.some.inj hexecs)
    obtain ⟨done, hinitial, hbinds, _⟩ := houtcome.binds
    have hshould := hbinds.inner (siphash e'.expose.declared)
    rw [Heap.binding_declare _ (by rw [Heap.length_declare, length_aliased]; exact hscope),
      if_pos rfl] at hshould
    -- None of the values that should be there is this one.
    cases hdone : find done.reverse (siphash e'.expose.declared) with
    | none =>
      rw [hdone] at hshould
      exact hn hshould.symm
    | some v =>
      rw [hdone] at hshould
      obtain rfl := Option.some.inj hshould
      obtain ⟨p, hp, hvalue⟩ := exists_mem_of_find hdone
      rcases List.mem_append.mp (hinitial.subset (List.mem_reverse.mp hp)) with hp | hp
      · obtain ⟨name, _, rfl⟩ := List.mem_map.mp hp
        cases hvalue
      · obtain ⟨e₁, _, he₁⟩ := List.mem_filterMap.mp hp
        obtain ⟨v, hv, rfl⟩ := Option.map_eq_some_iff.mp he₁
        rw [hexports] at hv
        have hv' : find (put [(siphash e.expose.identifier, Value.bool true)]
          (siphash e'.expose.identifier) (.bool true)) (siphash e₁.identifier) = some v := hv
        rw [find_put, find_cons] at hv'
        dsimp only at hvalue
        subst hvalue
        split at hv'
        · cases hv'
        · split at hv'
          · cases hv'
          · cases hv'

theorem binding_aliased_ne_none (hscope : scope < h.scopes.length) (module : Value)
    (as_ : Option Name) (hash : UInt64) :
    (aliased siphash h scope module as_).binding scope hash ≠ none ↔
      (∃ name ∈ as_, siphash name = hash) ∨ h.binding scope hash ≠ none := by
  cases as_ with
  | none => simp [aliased]
  | some name =>
    show (h.declare scope (siphash name) module).binding scope hash ≠ none ↔ _
    rw [h.binding_declare hscope]
    by_cases heq : siphash name = hash
    · simp [heq]
    · simp [heq]

end Surroundings

/-! ## Imports of a program -/

/-- A place in a run of a program where a frame is about to execute the `OP_IMPORT` of an import: the
machine, the import with what the translator was given and gave for it, and the frame with its current
scope. -/
structure ImportSite (siphash : List UInt8 → UInt64) (modules : List Module) where
  machine : Machine
  reachable : machine.Reachable modules
  loc : SourceLocation
  file : ParsedValue
  as_ : Option Name
  expose : Expose
  /-- The translator before the import, behind its file, and behind the import. -/
  before : Translated
  behindFile : Translated
  behind : Translated
  fileStart : ℕ
  start : ℕ
  file_translated : translateParsed siphash file before = some (fileStart, behindFile)
  file_ok : behindFile.err = none
  translated : translateParsed siphash (.import_ loc file as_ expose) before = some (start, behind)
  surroundings : Surroundings
  frame : Frame
  scope : ℕ
  outer : List ℕ
  machine_eq : machine = surroundings.at machine.heap frame none
  /-- The frame is at the code of the import, behind that of the file and `OP_SOURCE_LOCATION`. -/
  tail : List UInt8
  code : behind.bytecode ++ tail = behindFile.bytecode ++
    (Instr.sourceLocation loc.line loc.column loc.length).encode ++ frame.bytecode.drop frame.ip
  stack : frame.stack = scope :: outer

namespace ImportSite

variable {siphash : List UInt8 → UInt64} {modules : List Module}

/-- Whatever the module has, the import binds the alias and the exposed names in the current scope, in
their order and up to the first error, and leaves every other binding and every other scope as it is;
an error is raised exactly if the module does not have one of the names, or one that is declared is
there already. -/
def Exposes (s : ImportSite siphash modules) : Prop :=
  ∀ (module : Value) (contents : Value → Exports) (answers : List Answer),
    answers.length = importLength s.as_ s.expose →
    s.machine.Answered contents module answers →
      ∃ heap frame err,
        s.machine.execs answers = some (s.surroundings.at heap frame err) ∧
        Outcome s.machine.heap heap s.scope
          (importBindings siphash module (contents module) s.as_ s.expose)
          (importDeclares siphash s.as_ s.expose) ((contents module).HasAll siphash s.expose.listed)
          err.isSome

/-- The import ends with the declaration of its alias, or the names go where they should: with
`expose *`, the current scope is the one that the `runtime` call was started with; with several names,
the register for the module is in the register array, and is not register 0 unless the first name ends
the import. -/
def Sound (s : ImportSite siphash modules) : Prop :=
  (∀ name ∈ s.as_, s.machine.heap.binding s.scope (siphash name) = none) →
    match s.expose with
    | .none => True
    | .all => s.surroundings.invocation.stack.head? = some s.scope
    | .names names => 1 < names.length →
      s.behindFile.registerAssignment.toNat < s.frame.registers.length ∧
        (s.behindFile.registerAssignment = 0 → ∃ e ∈ names.head?,
          (∃ name ∈ s.as_, siphash name = siphash e.declared) ∨
            s.machine.heap.binding s.scope (siphash e.declared) ≠ none)

theorem invocations_eq (s : ImportSite siphash modules) :
    ∃ inv rest, s.machine.invocations = inv :: rest ∧ inv.frames = s.frame :: s.surroundings.frames := by
  have hinvs := congrArg Machine.invocations s.machine_eq
  exact ⟨_, _, hinvs, rfl⟩

theorem scope_lt (s : ImportSite siphash modules) : s.scope < s.machine.heap.scopes.length := by
  obtain ⟨inv, rest, hinvs, hframes⟩ := s.invocations_eq
  have hplaced := s.reachable.placed.frames inv (by rw [hinvs]; exact List.mem_cons_self) s.frame
    (by rw [hframes]; exact List.mem_cons_self)
  exact hplaced.stack s.scope (by rw [s.stack]; exact List.mem_cons_self)

theorem registers_pos (s : ImportSite siphash modules) : 0 < s.frame.registers.length := by
  obtain ⟨inv, rest, hinvs, hframes⟩ := s.invocations_eq
  have hshaped := s.reachable.shaped inv (by rw [hinvs]; exact List.mem_cons_self) s.frame
    (by rw [hframes]; exact List.mem_cons_self)
  exact hshaped.registers_pos

/-- The frame is at the instructions of the import. -/
theorem at_ (s : ImportSite siphash modules) :
    ∃ (placed : Option (Name × UInt64)) (es : List PlacedExpose),
      placed.map Prod.fst = s.as_ ∧ es.map PlacedExpose.expose = s.expose.listed ∧
      s.frame.At (importCode siphash s.behindFile.registerAssignment placed s.expose es) s.tail := by
  obtain ⟨placed, es, hplaced, hes, hcode⟩ :=
    translateParsedImport_code s.file_translated s.file_ok s.translated
  refine ⟨placed, es, hplaced, hes, ?_⟩
  have hsite := s.code
  rw [hcode, List.append_assoc, List.append_cancel_left_eq] at hsite
  exact hsite.symm

theorem exposes_surroundings (s : ImportSite siphash modules) : s.Exposes ↔
    s.surroundings.Exposes siphash s.machine.heap s.frame s.scope s.as_ s.expose := by
  unfold Exposes Surroundings.Exposes Surroundings.Ends
  rw [← s.machine_eq]

/-- What is exposed goes to the current scope when the alias has been bound. -/
theorem sound_iff (s : ImportSite siphash modules) (module : Value) {f' : Frame}
    (hlength : f'.registers.length = s.frame.registers.length) :
    s.Sound ↔ ((∀ name ∈ s.as_, s.machine.heap.binding s.scope (siphash name) = none) →
      s.surroundings.Sound siphash
        (Surroundings.aliased siphash s.machine.heap s.scope module s.as_) f' s.scope
        s.behindFile.registerAssignment s.expose) := by
  unfold Sound
  refine imp_congr_right fun _ => ?_
  cases s.expose with
  | none | all => rfl
  | names names =>
    show _ ↔ (1 < names.length → _ ∧ _)
    rw [hlength]
    simp only [Surroundings.binding_aliased_ne_none s.scope_lt]

/-- At an import of a program, names go where they should whatever the module is, exactly if the import
is sound. -/
theorem exposes_iff (s : ImportSite siphash modules) : s.Exposes ↔ s.Sound := by
  obtain ⟨placed, es, hplaced, hes, hat⟩ := s.at_
  have hscope := s.scope_lt
  have hregisters := s.registers_pos
  rw [exposes_surroundings]
  constructor
  · -- An import that is not sound goes wrong with some module.
    intro hexposes
    rw [s.sound_iff .null rfl]
    intro hnew
    by_contra hunsound
    rw [← hplaced] at hexposes hnew
    cases hexpose : s.expose with
    | none =>
      rw [hexpose] at hunsound
      exact hunsound trivial
    | all =>
      rw [hexpose] at hunsound hexposes hat
      exact Surroundings.not_exposes_all hscope hat s.stack hregisters hnew hunsound hexposes
    | names names =>
      rw [hexpose] at hunsound hexposes hat hes
      simp only [Surroundings.Sound, Classical.not_imp, not_and_or] at hunsound
      obtain ⟨hmany, hregister | ⟨hzero, hfirst⟩⟩ := hunsound
      · exact Surroundings.not_exposes_names hat hes s.stack hregisters hnew hmany hregister hexposes
      · rw [hzero] at hat
        refine Surroundings.not_exposes_zero hscope hat hes s.stack hregisters hnew hmany ?_ hexposes
        intro e he module
        by_contra hbound
        rw [hplaced, ← Ne.eq_def, Surroundings.binding_aliased_ne_none hscope] at hbound
        refine hfirst ⟨e, he, ?_⟩
        rw [Surroundings.binding_aliased_ne_none hscope]
        exact hbound
  · intro hsound module contents answers hlength hanswered
    rw [← hplaced] at hlength ⊢
    refine Surroundings.ends_import hscope hat hes s.stack hregisters hlength hanswered ?_
    intro hnew f' hlength'
    rw [hplaced] at hnew ⊢
    exact (s.sound_iff module hlength').mp hsound hnew

/-- A block with `import "m" expose *` in it, with 0 for the hash of every name. -/
def exposingBlock : Module where
  registerCount := 1
  registerCount_pos := Nat.one_pos
  bytecode := [Instr.op .newScope, .loadString 0 1 0 0, .sourceLocation 1 3 6, .op .opImport,
    .op .exposeAll, .op .popScope].flatMap Instr.encode
  constants := [109]

/-- The frame of the block at its `OP_IMPORT`: scope 1 is that of the module, scope 2 that of the
block. -/
def exposingFrame : Frame where
  id := 0
  module := exposingBlock
  bytecode := exposingBlock.bytecode
  registers := [.string [109]]
  ip := 52
  callInstance := []
  catchErrors := []
  loadNumberCache := 0
  cDepth := 0
  stack := [2, 1, 0]
  sourceLocation := ⟨1, 3, 6⟩

/-- The machine at that point. -/
def exposingMachine : Machine where
  modules := [exposingBlock]
  heap := { scopes := [[], [], []], calls := [], functions := [], caches := [[]], frames := 1 }
  invocations := [⟨[exposingFrame], none, [1, 0], .null, false⟩]

theorem exposingMachine_reachable : exposingMachine.Reachable [exposingBlock] := by
  have hrun : Runs.run step (Machine.start [exposingBlock] [])
      [.runModule 0, .exec nullAnswer, .exec nullAnswer, .exec nullAnswer] =
        some exposingMachine := by
    decide
  exact Runs.Reachable.run (Runs.Reachable.init ⟨[], rfl⟩) hrun

/-- The translator behind the start of the block. -/
def blockStart : Translated := { initTranslator with bytecode := (Instr.op .newScope).encode }

/-- The translator behind the file of the import. -/
def blockFile : Translated := { blockStart with
  bytecode := blockStart.bytecode ++ (Instr.loadString 0 1 0 0).encode
  constants := ⟨[109], [(0, 0)]⟩
  registerOperands := [0] }

/-- The translator behind the import. -/
def blockImport : Translated := { blockFile with
  bytecode := blockFile.bytecode ++ (Instr.sourceLocation 1 3 6).encode ++ (Instr.op .opImport).encode ++
    (Instr.op .exposeAll).encode }

/-- The import of the block. -/
def exposingSite : ImportSite (fun _ => 0) [exposingBlock] where
  machine := exposingMachine
  reachable := exposingMachine_reachable
  loc := ⟨1, 3, 6⟩
  file := .string [109]
  as_ := none
  expose := .all
  before := blockStart
  behindFile := blockFile
  behind := blockImport
  fileStart := 1
  start := 1
  file_translated := by decide
  file_ok := rfl
  translated := by decide
  surroundings := ⟨exposingMachine, ⟨[exposingFrame], none, [1, 0], .null, false⟩, [], []⟩
  frame := exposingFrame
  scope := 2
  outer := [1, 0]
  machine_eq := rfl
  tail := (Instr.op .popScope).encode
  code := by decide
  stack := rfl

/-- The names that the import of a block exposes go to the scope of the module around it. -/
theorem not_forall_exposes :
    ¬∀ (siphash : List UInt8 → UInt64) (modules : List Module) (s : ImportSite siphash modules),
      s.Exposes := by
  intro hall
  have hexposes : exposingSite.surroundings.Exposes (fun _ => 0) exposingMachine.heap exposingFrame 2
      ((none : Option (Name × UInt64)).map Prod.fst) .all :=
    exposingSite.exposes_surroundings.mp (hall _ _ exposingSite)
  have hat : exposingFrame.At (importCode (fun _ => 0) 1 none .all []) (Instr.op .popScope).encode := by
    unfold Frame.At
    decide
  exact Surroundings.not_exposes_all (by decide) hat rfl (by decide)
    (fun name hname => by cases hname) (by decide) hexposes

end ImportSite

end Chloride
