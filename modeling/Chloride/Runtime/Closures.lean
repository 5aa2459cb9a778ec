import Chloride.Runtime.Invariants

/-!
# The variables of closures

A function keeps the scope it is made in, `OP_LOAD_FUNCTION` of `src/runtime/runtime.c`, and a loop has
one scope for all its iterations, which `OP_EMPTY_SCOPE` empties between them
(`src/translator/for/for.c`, `src/translator/while/while.c`). So the scope of an iteration is also that
of the closures made in it.

A binding of a scope that is there changes in two ways: a statement that names it writes it, or
`OP_EMPTY_SCOPE` removes it; nothing else that the machine does, no call, jump, return or unwinding,
touches it (`step_binding`). A variable that a closure finds in its scopes when it is made therefore
keeps the value last written to it exactly as long as no `OP_EMPTY_SCOPE` gets at it. In code of the
translator that instruction ends the iterations of the loop whose scope it empties, so the writes
before it are those of the iteration and of its closures.
-/

namespace Chloride

/-- What a scope has for a name. -/
def Heap.binding (h : Heap) (scope : ℕ) (hash : UInt64) : Option Value := find (h.scope scope) hash

/-- What an instruction that names a variable writes to it: a value, or nothing when it deletes it.
`none` when it does not write to this variable. -/
def Instr.written (h : Heap) (base : List ℕ) (f : Frame) (a : Answer) (scope : ℕ) (hash : UInt64) :
    Instr → Option (Option Value)
  | .declare _ _ hash' fromRegister =>
    if hash' = hash ∧ f.stack.head? = some scope then some (f.read fromRegister) else none
  | .assign _ _ hash' fromRegister =>
    if hash' = hash ∧ (((h.resolve f.stack hash').map Prod.fst).or f.stack.head?) = some scope then
      some (f.read fromRegister)
    else none
  | .deleteIdentifier _ _ hash' =>
    if hash' = hash ∧ (h.resolve f.stack hash').map Prod.fst = some scope then some none else none
  | .op .exposeAll =>
    if base.head? = some scope then (find a.entries.reverse hash).map some else none
  | _ => none

/-- `OP_EMPTY_SCOPE` in this scope. -/
def Instr.empties (f : Frame) (scope : ℕ) (i : Instr) : Prop :=
  i = .op .emptyScope ∧ f.stack.head? = some scope

instance (f : Frame) (scope : ℕ) (i : Instr) : Decidable (i.empties f scope) :=
  inferInstanceAs (Decidable (_ ∧ _))

/-! ## What a handler does to a binding -/

theorem Heap.scope_setScope (h : Heap) {scope : ℕ} (hscope : scope < h.scopes.length) (id : ℕ)
    (vars : List (UInt64 × Value)) :
    (h.setScope id vars).scope scope = if id = scope then vars else h.scope scope := by
  unfold Heap.scope Heap.setScope
  by_cases hid : id = scope
  · subst hid
    simp [List.getD_eq_getElem?_getD, hscope]
  · simp [List.getD_eq_getElem?_getD, hid]

theorem Heap.binding_setScope (h : Heap) {scope : ℕ} (hscope : scope < h.scopes.length) (id : ℕ)
    (vars : List (UInt64 × Value)) (hash : UInt64) :
    (h.setScope id vars).binding scope hash =
      if id = scope then find vars hash else h.binding scope hash := by
  unfold Heap.binding
  rw [h.scope_setScope hscope]
  split <;> rfl

/-- A variable that is written to, by its name and in its scope. -/
theorem Heap.binding_put (h : Heap) {scope : ℕ} (hscope : scope < h.scopes.length) (hash : UInt64)
    (id : ℕ) (hash' : UInt64) (v : Value) :
    (h.setScope id (put (h.scope id) hash' v)).binding scope hash =
      if hash' = hash ∧ id = scope then some v else h.binding scope hash := by
  rw [h.binding_setScope hscope, find_put]
  by_cases hid : id = scope
  · subst hid
    by_cases hh : hash' = hash
    · simp [hh]
    · simp [hh, Heap.binding]
  · simp [hid]

/-- The instruction that a step executes, with the scope its `runtime` was started with, its frame and
the answer of the objects. -/
def Machine.executing (m : Machine) (input : Input) : Option (Instr × List ℕ × Frame × Answer) :=
  match input, m.invocations with
  | .exec a, inv :: _ =>
    match inv.frames with
    | f :: _ => f.fetch.map fun (i, f₁) => (i, inv.stack, f₁, a)
    | [] => none
  | _, _ => none

/-- What a step writes to a variable. -/
def Machine.written (m : Machine) (input : Input) (scope : ℕ) (hash : UInt64) :
    Option (Option Value) :=
  (m.executing input).bind fun (i, base, f, a) => i.written m.heap base f a scope hash

/-- The step empties the scope. -/
def Machine.Empties (m : Machine) (input : Input) (scope : ℕ) : Prop :=
  ∃ e ∈ m.executing input, e.1.empties e.2.2.1 scope

/-- The input makes a closure in the run: `OP_LOAD_FUNCTION` adds it to the functions. -/
def Makes (start : Machine) (before : List Input) (input : Input) (m' : Machine)
    (fn : FunctionObject) : Prop :=
  ∃ m, Runs.run step start before = some m ∧ step m input = some m' ∧
    m'.heap.functions = m.heap.functions ++ [fn]

/-- What the objects answer in the loop: the iterator gives `null` again and again. -/
def nullAnswer : Answer := ⟨.null, none, .null, none, [], []⟩

end Chloride
