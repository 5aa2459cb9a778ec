import Chloride.Containers.ScopeStack
import Chloride.Hashmap.History
import Chloride.Objects.Number

/-!
# The variables of a frame

The scope chain of a frame and the operations on it: `runtime_declaration`, `runtime_assignment`,
`load_variable`, `delete_variable` and the handlers that open and close a scope, from
`src/runtime/declaration/declaration.c`, `src/runtime/assignment/assignment.c` and
`src/runtime/runtime.c`, over the hash maps of `HashmapGC.lean`. An operation answers `none` where
the source dereferences the null pointer at the end of the chain, or where a hash map cannot grow.

The operations are compared with those of a stack of partial maps. They agree, and an error leaves
the variables as they were, except that `runtime_declaration` reports a declared name and then binds
it all the same. So the two agree over a run exactly when no step of it declares a name that the
innermost scope binds to another value.
-/

namespace Chloride

variable {υ : Type}

/-- A `struct Stack` without its `prev`: the hash map, `none` as long as its pointer is null. A key
is the name's string object, or null where an existing name is given a value. -/
abbrev Scope (υ : Type) := Option (HashmapGC (Option String) υ)

/-- `assignable_keys` with the scope chain of the frame, the innermost scope first. -/
structure Environment (υ : Type) where
  assignableKeys : Option (HashmapGC Unit String)
  stack : List (Scope υ)
  deriving DecidableEq

namespace Scope

/-- `hashmap_lookup_GC` in a scope. -/
def lookup (s : Scope υ) (hash : UInt64) : Option υ := s.bind (·.lookup hash)

/-- `hashmap_insert_GC` into `init_scope(stack)->scope`. -/
def insert (s : Scope υ) (hash : UInt64) (key : Option String) (val : υ) : Option (Scope υ) :=
  ((s.getD .create).insert hash key val 0).map some

/-- `hashmap_remove_GC` in a scope. -/
def remove : Scope υ → UInt64 → Bool × Scope υ
  | none, _ => (false, none)
  | some t, hash => ((t.remove hash).1, some (t.remove hash).2)

end Scope

/-- The string object of a name, which `assignable_keys` keeps for the next time. -/
def internKey (keys : Option (HashmapGC Unit String)) (name : String) (hash : UInt64) :
    Option (String × Option (HashmapGC Unit String)) :=
  match keys.bind (·.lookup hash) with
  | some key => some (key, keys)
  | none => ((keys.getD .create).insert hash () name 0).map fun keys => (name, some keys)

/-- The error of `runtime_declaration`. -/
def alreadyDeclaredError (name : String) : ArErr :=
  ⟨"RuntimeError", "Identifier '" ++ name ++ "' has already been declared in the current scope"⟩

/-- The error of `load_variable` and of `delete_variable`. -/
def notDefinedError (name : String) : ArErr :=
  ⟨"NameError", "Identifier '" ++ name ++ "' is not defined"⟩

/-- Bind a name in the current scope: the last lines of `runtime_declaration` and of
`runtime_assignment`. -/
def bindCurrent (name : String) (hash : UInt64) (value : υ) (e : Environment υ) :
    Option (Environment υ) :=
  match e.stack with
  | [] => none
  | scope :: stack => do
    let (key, keys) ← internKey e.assignableKeys name hash
    return ⟨keys, (← scope.insert hash (some key) value) :: stack⟩

/-- `runtime_declaration`: the error is noted, and the declaration goes on. -/
def runtimeDeclaration (name : String) (hash : UInt64) (value : υ) (e : Environment υ) :
    Option (Option ArErr × Environment υ) := do
  let err := if (e.stack.head?.bind (·.lookup hash)).isSome then some (alreadyDeclaredError name)
    else none
  return (err, ← bindCurrent name hash value e)

/-- The loop of `runtime_assignment`; the answer is `some none` when no scope has the hash. -/
def assignExisting (hash : UInt64) (value : υ) : List (Scope υ) → Option (Option (List (Scope υ)))
  | [] => some none
  | scope :: stack =>
    if (scope.lookup hash).isSome then do return some ((← scope.insert hash none value) :: stack)
    else do return (← assignExisting hash value stack).map (scope :: ·)

/-- `runtime_assignment`. -/
def runtimeAssignment (name : String) (hash : UInt64) (value : υ) (e : Environment υ) :
    Option (Environment υ) := do
  match ← assignExisting hash value e.stack with
  | some stack => return { e with stack := stack }
  | none => bindCurrent name hash value e

/-- The loop of `load_variable`. -/
def loadVariable (hash : UInt64) : List (Scope υ) → Option υ
  | [] => none
  | scope :: stack =>
    match scope.lookup hash with
    | some result => some result
    | none => loadVariable hash stack

/-- The loop of `delete_variable`, and whether it found the name. -/
def deleteVariable (hash : UInt64) : List (Scope υ) → Bool × List (Scope υ)
  | [] => (false, [])
  | scope :: stack =>
    if (scope.remove hash).1 then (true, (scope.remove hash).2 :: stack)
    else ((deleteVariable hash stack).1, (scope.remove hash).2 :: (deleteVariable hash stack).2)

/-- The instructions on the variables, with the operands that name one. -/
inductive ScopeOp (υ : Type) where
  | newScope
  | popScope
  | declare (name : String) (value : υ)
  | assign (name : String) (value : υ)
  | identifier (name : String)
  | deleteIdentifier (name : String)
  deriving DecidableEq

/-- What an instruction gives: nothing, the value it loads, or the error it raises. -/
inductive ScopeResult (υ : Type) where
  | done
  | value (value : υ)
  | error (err : ArErr)
  deriving DecidableEq

/-- Whether an error is raised. -/
def ScopeResult.IsError : ScopeResult υ → Prop
  | .error _ => True
  | _ => False

/-- The name in the operands of an instruction. -/
def ScopeOp.name : ScopeOp υ → Option String
  | .newScope | .popScope => none
  | .declare name _ | .assign name _ | .identifier name | .deleteIdentifier name => some name

section Step

variable (hash : String → UInt64)

/-- One instruction, with the hashes of the names as the translator puts them into its operands. -/
def Environment.step (e : Environment υ) : ScopeOp υ → Option (ScopeResult υ × Environment υ)
  | .newScope => some (.done, { e with stack := none :: e.stack })
  | .popScope =>
    match e.stack with
    | [] => none
    | _ :: stack => some (.done, { e with stack := stack })
  | .declare name value => do
    let (err, e) ← runtimeDeclaration name (hash name) value e
    return (err.elim .done .error, e)
  | .assign name value => do return (.done, ← runtimeAssignment name (hash name) value e)
  | .identifier name =>
    match loadVariable (hash name) e.stack with
    | some result => some (.value result, e)
    | none => some (.error (notDefinedError name), e)
  | .deleteIdentifier name =>
    let (removed, stack) := deleteVariable (hash name) e.stack
    some (if removed then .done else .error (notDefinedError name), { e with stack := stack })

/-- What a hash map looks like through the names of its hashes. -/
def Environment.bindings (e : Environment υ) : ScopeStack String υ :=
  e.stack.map fun scope name => scope.lookup (hash name)

end Step

/-! ## The stack of partial maps -/

/-- One instruction on a stack of partial maps. -/
def specStep (ms : ScopeStack String υ) : ScopeOp υ → Option (ScopeResult υ × ScopeStack String υ)
  | .newScope => some (.done, (fun _ => none) :: ms)
  | .popScope =>
    match ms with
    | [] => none
    | _ :: ms => some (.done, ms)
  | .declare name value =>
    match ms with
    | [] => none
    | m :: ms =>
      if (m name).isSome then some (.error (alreadyDeclaredError name), m :: ms)
      else some (.done, Function.update m name (some value) :: ms)
  | .assign name value =>
    match ms.modify name (some value), ms with
    | some ms, _ => some (.done, ms)
    | none, m :: ms => some (.done, Function.update m name (some value) :: ms)
    | none, [] => none
  | .identifier name =>
    match ms.resolve name with
    | some value => some (.value value, ms)
    | none => some (.error (notDefinedError name), ms)
  | .deleteIdentifier name =>
    match ms.modify name none with
    | some ms => some (.done, ms)
    | none => some (.error (notDefinedError name), ms)

/-- An instruction that raises an error leaves the stack of maps as it was. -/
theorem specStep_error {ms ms' : ScopeStack String υ} {op : ScopeOp υ} {r : ScopeResult υ}
    (h : specStep ms op = some (r, ms')) (hr : r.IsError) : ms' = ms := by
  unfold specStep at h
  split at h
  case h_1 => cases h; cases hr
  case h_2 =>
    split at h
    · cases h
    · cases h; cases hr
  case h_3 =>
    split at h
    · cases h
    · split at h
      · cases h; rfl
      · cases h; cases hr
  case h_4 =>
    split at h
    · cases h; cases hr
    · cases h; cases hr
    · cases h
  case h_5 =>
    split at h
    · cases h; cases hr
    · cases h; rfl
  case h_6 =>
    split at h
    · cases h; cases hr
    · cases h; rfl

/-! ## Well-formed and full hash maps -/

/-- The hash map of a scope is well formed. -/
def Scope.Wf (s : Scope υ) : Prop := ∀ t, s = some t → t.Wf

/-- The hash maps of an environment are well formed. -/
structure Environment.Wf (e : Environment υ) : Prop where
  keys : ∀ t, e.assignableKeys = some t → t.Wf
  stack : ∀ s ∈ e.stack, s.Wf

/-- A hash map of the environment has come to the number of nodes at which it may not grow. -/
def Environment.Full (e : Environment υ) : Prop :=
  (∃ t, e.assignableKeys = some t ∧ HashmapGC.capacity ≤ t.hashmapCount) ∨
    ∃ s ∈ e.stack, ∃ t, s = some t ∧ HashmapGC.capacity ≤ t.hashmapCount

/-- The map that an insertion goes into is well formed. -/
theorem wf_getD {κ ν : Type} {t : Option (HashmapGC κ ν)} (ht : ∀ t', t = some t' → t'.Wf) :
    (t.getD .create).Wf := by
  cases t with
  | none => exact HashmapGC.Wf.create
  | some t => exact ht t rfl

/-- An insertion that fails went into a full map. -/
theorem full_of_insert {κ ν : Type} {t : Option (HashmapGC κ ν)} {hash : UInt64} {key : κ} {val : ν}
    (h : (t.getD .create).insert hash key val 0 = none) :
    ∃ t', t = some t' ∧ HashmapGC.capacity ≤ t'.hashmapCount := by
  have hfull : HashmapGC.capacity ≤ (t.getD .create).hashmapCount := by
    by_contra hroom
    have hsome := HashmapGC.insert_isSome (Nat.lt_of_not_le hroom) hash key val
    rw [h] at hsome
    cases hsome
  cases t with
  | none =>
    have hzero : (HashmapGC.create : HashmapGC κ ν).hashmapCount = 0 := rfl
    rw [Option.getD_none, hzero] at hfull
    exact absurd hfull (by decide)
  | some t => exact ⟨t, rfl, hfull⟩

/-- What an insertion into a scope does. -/
theorem Scope.insert_spec {s s' : Scope υ} (hs : s.Wf) {hash : UInt64} {key : Option String}
    {val : υ} (h : s.insert hash key val = some s') :
    s'.Wf ∧ s'.lookup = Function.update s.lookup hash (some val) := by
  obtain ⟨t, hins, rfl⟩ := Option.map_eq_some_iff.mp h
  obtain ⟨hwf, hlookup⟩ := (wf_getD hs).lookup_insert hins
  have hold : (s.getD .create).lookup = s.lookup := by
    cases s with
    | none => rfl
    | some t => rfl
  refine ⟨?_, ?_⟩
  · rintro t' ht'
    obtain rfl := Option.some.inj ht'
    exact hwf
  · rw [← hold, ← hlookup]
    rfl

/-- What a removal from a scope does. -/
theorem Scope.remove_spec {s : Scope υ} (hs : s.Wf) (hash : UInt64) :
    (s.remove hash).2.Wf ∧ (s.remove hash).2.lookup = Function.update s.lookup hash none ∧
      (s.remove hash).1 = (s.lookup hash).isSome ∧
      ((s.remove hash).1 = false → (s.remove hash).2 = s) := by
  cases s with
  | none =>
    refine ⟨hs, ?_, rfl, fun _ => rfl⟩
    exact (Function.update_eq_self hash fun _ => none).symm
  | some t =>
    obtain ⟨hwf, hlookup⟩ := (hs t rfl).lookup_remove hash
    refine ⟨?_, hlookup, t.remove_fst hash, fun hfalse => ?_⟩
    · intro t' ht'
      obtain rfl := Option.some.inj ht'
      exact hwf
    · exact congrArg some (HashmapGC.remove_absent hfalse)

/-- The interned keys stay well formed, and interning fails only in a full map. -/
theorem internKey_spec {keys : Option (HashmapGC Unit String)} (hkeys : ∀ t, keys = some t → t.Wf)
    (name : String) (hash : UInt64) :
    (internKey keys name hash = none →
        ∃ t, keys = some t ∧ HashmapGC.capacity ≤ t.hashmapCount) ∧
      ∀ key keys', internKey keys name hash = some (key, keys') → ∀ t, keys' = some t → t.Wf := by
  unfold internKey
  split
  · constructor
    · intro h
      cases h
    · intro key keys' h
      cases h
      exact hkeys
  · refine ⟨fun h => full_of_insert (Option.map_eq_none_iff.mp h), ?_⟩
    intro key keys' h
    obtain ⟨t, hins, heq⟩ := Option.map_eq_some_iff.mp h
    cases heq
    intro t' ht'
    obtain rfl := Option.some.inj ht'
    exact ((wf_getD hkeys).lookup_insert hins).1

/-! ## One instruction -/

section Refinement

variable (hash : String → UInt64) (S : Set String)

/-- A scope and a partial map bind the names of `S` alike. -/
def Scope.Agrees (s : Scope υ) (m : String → Option υ) : Prop :=
  ∀ name ∈ S, s.lookup (hash name) = m name

/-- The scopes of a chain and the maps of a stack bind the names of `S` alike. -/
def Agree (stack : List (Scope υ)) (ms : ScopeStack String υ) : Prop :=
  List.Forall₂ (Scope.Agrees hash S) stack ms

variable {hash S}

/-- An environment agrees with its own bindings. -/
theorem agree_bindings (e : Environment υ) : Agree hash S e.stack (e.bindings hash) := by
  unfold Agree Environment.bindings
  rw [List.forall₂_map_right_iff]
  exact List.forall₂_same.mpr fun s _ name _ => rfl

/-- The innermost map of a stack is determined on the names of `S`. -/
theorem Agree.head_eq {stack : List (Scope υ)} {m m' : String → Option υ}
    {ms : ScopeStack String υ} (h : Agree hash S stack (m :: ms)) (h' : Agree hash S stack (m' :: ms))
    {name : String} (hname : name ∈ S) : m name = m' name := by
  cases h with
  | cons hscope _ =>
    cases h' with
    | cons hscope' _ => exact (hscope name hname).symm.trans (hscope' name hname)

/-- Both sides changed at one name agree. -/
theorem Scope.Agrees.update (hS : S.InjOn hash) {s s' : Scope υ} {m : String → Option υ}
    (h : s.Agrees hash S m) {name : String} (hname : name ∈ S) {v : Option υ}
    (hs' : s'.lookup = Function.update s.lookup (hash name) v) :
    s'.Agrees hash S (Function.update m name v) := by
  intro name' hname'
  rw [hs']
  by_cases heq : name' = name
  · rw [heq, Function.update_self, Function.update_self]
  · have hne : hash name' ≠ hash name := fun hh => heq (hS hname' hname hh)
    rw [Function.update_of_ne hne, Function.update_of_ne heq]
    exact h name' hname'

/-- `load_variable` finds the innermost binding. -/
theorem loadVariable_eq {stack : List (Scope υ)} {ms : ScopeStack String υ}
    (h : Agree hash S stack ms) {name : String} (hname : name ∈ S) :
    loadVariable (hash name) stack = ms.resolve name := by
  induction h with
  | nil => rfl
  | cons hscope _ ih =>
    rw [loadVariable, ScopeStack.resolve, ← hscope name hname, ← ih]
    split
    case h_1 result hresult => rw [hresult, Option.some_or]
    case h_2 hnone => rw [hnone, Option.none_or]

/-- `delete_variable` removes the innermost binding; when there is none, it changes nothing. -/
theorem deleteVariable_spec (hS : S.InjOn hash) {stack : List (Scope υ)} {ms : ScopeStack String υ}
    (h : Agree hash S stack ms) (hwf : ∀ s ∈ stack, s.Wf) {name : String} (hname : name ∈ S) :
    (∀ s ∈ (deleteVariable (hash name) stack).2, s.Wf) ∧
      match ms.modify name none with
      | some ms' => (deleteVariable (hash name) stack).1 = true ∧
          Agree hash S (deleteVariable (hash name) stack).2 ms'
      | none => (deleteVariable (hash name) stack).1 = false ∧
          (deleteVariable (hash name) stack).2 = stack := by
  induction h with
  | nil => exact ⟨hwf, rfl, rfl⟩
  | @cons scope m stack ms hscope hrest ih =>
    obtain ⟨hscope_wf, hlookup, hremoved, hsame⟩ :=
      Scope.remove_spec (hwf scope List.mem_cons_self) (hash name)
    obtain ⟨hrest_wf, hih⟩ := ih fun s hs => hwf s (List.mem_cons_of_mem _ hs)
    rw [hscope name hname] at hremoved
    rw [deleteVariable, ScopeStack.modify, hremoved]
    -- The scope has the name or it has not.
    by_cases hm : (m name).isSome
    · rw [if_pos hm, if_pos hm]
      refine ⟨?_, rfl, ?_⟩
      · rintro s (_ | ⟨_, hs⟩)
        · exact hscope_wf
        · exact hwf s (List.mem_cons_of_mem _ hs)
      · exact .cons (hscope.update hS hname hlookup) hrest
    · rw [if_neg hm, if_neg hm]
      -- the scope does not have the name, and the loop goes on
      have hkept : (scope.remove (hash name)).2 = scope :=
        hsame (hremoved.trans (Bool.eq_false_iff.mpr hm))
      rw [hkept]
      refine ⟨?_, ?_⟩
      · rintro s (_ | ⟨_, hs⟩)
        · exact hwf scope List.mem_cons_self
        · exact hrest_wf s hs
      · cases hmod : ScopeStack.modify name none ms with
        | none =>
          rw [hmod] at hih
          exact ⟨hih.1, congrArg _ hih.2⟩
        | some ms' =>
          rw [hmod] at hih
          exact ⟨hih.1, .cons hscope hih.2⟩

/-- The loop of `runtime_assignment` changes the innermost binding, if there is one. -/
theorem assignExisting_spec (hS : S.InjOn hash) {stack : List (Scope υ)} {ms : ScopeStack String υ}
    (h : Agree hash S stack ms) (hwf : ∀ s ∈ stack, s.Wf) {name : String} (hname : name ∈ S)
    (value : υ) :
    match assignExisting (hash name) value stack with
    | none => ∃ s ∈ stack, ∃ t, s = some t ∧ HashmapGC.capacity ≤ t.hashmapCount
    | some none => ms.modify name (some value) = none
    | some (some stack') => (∀ s ∈ stack', s.Wf) ∧
        ∃ ms', ms.modify name (some value) = some ms' ∧ Agree hash S stack' ms' := by
  induction h with
  | nil => rfl
  | @cons scope m stack ms hscope hrest ih =>
    have hih := ih fun s hs => hwf s (List.mem_cons_of_mem _ hs)
    rw [assignExisting, ScopeStack.modify, hscope name hname]
    -- The scope has the name and takes the value, or the loop goes on with the scope around it.
    by_cases hm : (m name).isSome
    · rw [if_pos hm, if_pos hm]
      cases hins : scope.insert (hash name) none value with
      | none =>
        obtain ⟨t, ht, hfull⟩ := full_of_insert (Option.map_eq_none_iff.mp hins)
        exact ⟨scope, List.mem_cons_self, t, ht, hfull⟩
      | some scope' =>
        obtain ⟨hscope_wf, hlookup⟩ := Scope.insert_spec (hwf scope List.mem_cons_self) hins
        refine ⟨?_, _, rfl, .cons (hscope.update hS hname hlookup) hrest⟩
        rintro s (_ | ⟨_, hs⟩)
        · exact hscope_wf
        · exact hwf s (List.mem_cons_of_mem _ hs)
    · rw [if_neg hm, if_neg hm]
      cases hrec : assignExisting (hash name) value stack with
      | none =>
        rw [hrec] at hih
        obtain ⟨s, hs, hfull⟩ := hih
        exact ⟨s, List.mem_cons_of_mem _ hs, hfull⟩
      | some result =>
        cases result with
        | none =>
          rw [hrec] at hih
          exact Option.map_eq_none_iff.mpr hih
        | some stack' =>
          rw [hrec] at hih
          obtain ⟨hrest_wf, ms', hmod, hagree⟩ := hih
          refine ⟨?_, m :: ms', ?_, .cons hscope hagree⟩
          · rintro s (_ | ⟨_, hs⟩)
            · exact hwf scope List.mem_cons_self
            · exact hrest_wf s hs
          · rw [hmod]
            rfl

variable (hash) in
/-- The step declares a name that the innermost scope binds to another value. -/
def Environment.Rebinds (e : Environment υ) : ScopeOp υ → Prop
  | .declare name value => ∃ w ∈ e.stack.head?.bind (·.lookup (hash name)), w ≠ value
  | _ => False

variable (hash S) in
/-- An instruction and its counterpart on the stack of maps: the results are the same, and the
variables are the same afterwards exactly when the instruction does not rebind. -/
structure Environment.StepRefines (e : Environment υ) (ms : ScopeStack String υ) (op : ScopeOp υ) :
    Prop where
  failed : e.step hash op = none → specStep ms op = none ∨ e.Full
  done : ∀ r e', e.step hash op = some (r, e') → e'.Wf ∧ ∃ ms', specStep ms op = some (r, ms') ∧
    (Agree hash S e'.stack ms' ↔ ¬e.Rebinds hash op)

/-- Only a declaration rebinds. -/
theorem not_rebinds {e : Environment υ} {op : ScopeOp υ}
    (hop : ∀ name value, op ≠ .declare name value) : ¬e.Rebinds hash op := by
  cases op with
  | declare name value => exact absurd rfl (hop name value)
  | newScope | popScope | assign | identifier | deleteIdentifier => exact not_false

/-- A step of an instruction that is no declaration. -/
theorem Environment.StepRefines.of_step {e e' : Environment υ} {ms ms' : ScopeStack String υ}
    {op : ScopeOp υ} {r : ScopeResult υ} (hop : ∀ name value, op ≠ .declare name value)
    (hstep : e.step hash op = some (r, e')) (hspec : specStep ms op = some (r, ms')) (hwf : e'.Wf)
    (h : Agree hash S e'.stack ms') : e.StepRefines hash S ms op := by
  constructor
  · intro hnone
    rw [hstep] at hnone
    cases hnone
  · intro r₁ e₁ hstep₁
    rw [hstep] at hstep₁
    cases hstep₁
    exact ⟨hwf, ms', hspec, fun _ => not_rebinds hop, fun _ => h⟩

/-- Binding a name in the current scope. -/
theorem bindCurrent_spec (hS : S.InjOn hash) {keys : Option (HashmapGC Unit String)}
    {scope : Scope υ} {stack : List (Scope υ)} (he : Environment.Wf ⟨keys, scope :: stack⟩)
    {m : String → Option υ} {ms : ScopeStack String υ} (hscope : scope.Agrees hash S m)
    (hrest : Agree hash S stack ms) {name : String} (hname : name ∈ S) (value : υ) :
    (bindCurrent name (hash name) value ⟨keys, scope :: stack⟩ = none →
        Environment.Full ⟨keys, scope :: stack⟩) ∧
      ∀ e', bindCurrent name (hash name) value ⟨keys, scope :: stack⟩ = some e' →
        e'.Wf ∧ Agree hash S e'.stack (Function.update m name (some value) :: ms) := by
  obtain ⟨hfull, hkeys⟩ := internKey_spec he.keys name (hash name)
  constructor
  · -- Either of the two hash maps can be full.
    intro hnone
    cases hintern : internKey keys name (hash name) with
    | none => exact Or.inl (hfull hintern)
    | some interned =>
      unfold bindCurrent at hnone
      cases hins : scope.insert (hash name) (some interned.1) value with
      | none =>
        obtain ⟨t, ht, hcount⟩ := full_of_insert (Option.map_eq_none_iff.mp hins)
        exact Or.inr ⟨scope, List.mem_cons_self, t, ht, hcount⟩
      | some scope' => simp [hintern, hins] at hnone
  · -- Both have taken their entry.
    intro e' hbind
    unfold bindCurrent at hbind
    obtain ⟨⟨key, keys'⟩, hintern, hbind⟩ := Option.bind_eq_some_iff.mp hbind
    obtain ⟨scope', hins, heq⟩ := Option.bind_eq_some_iff.mp hbind
    cases heq
    obtain ⟨hscope_wf, hlookup⟩ := Scope.insert_spec (he.stack scope List.mem_cons_self) hins
    refine ⟨⟨hkeys key keys' hintern, ?_⟩, .cons (hscope.update hS hname hlookup) hrest⟩
    rintro s (_ | ⟨_, hs⟩)
    · exact hscope_wf
    · exact he.stack s (List.mem_cons_of_mem _ hs)

/-- `OP_DECLARE` reports the names that are declared, and binds them as well. -/
theorem declare_refines (hS : S.InjOn hash) {e : Environment υ} (he : e.Wf)
    {ms : ScopeStack String υ} (h : Agree hash S e.stack ms) {name : String} (hname : name ∈ S)
    (value : υ) : e.StepRefines hash S ms (.declare name value) := by
  obtain ⟨keys, stack⟩ := e
  cases h with
  | nil => exact ⟨fun _ => Or.inl rfl, fun r e' hstep => nomatch hstep⟩
  | @cons scope m stack ms hscope hrest =>
    obtain ⟨hfull, hdone⟩ := bindCurrent_spec hS he hscope hrest hname value
    constructor
    · -- The only way to fail is a full hash map.
      intro hnone
      cases hbind : bindCurrent name (hash name) value ⟨keys, scope :: stack⟩ with
      | none => exact Or.inr (hfull hbind)
      | some e' => simp [Environment.step, runtimeDeclaration, hbind] at hnone
    · intro r e' hstep
      obtain ⟨⟨err, e₁⟩, hdecl, heq⟩ := Option.bind_eq_some_iff.mp hstep
      obtain ⟨e₂, hbind, heq₂⟩ := Option.bind_eq_some_iff.mp hdecl
      cases heq
      cases heq₂
      obtain ⟨hwf, hagree⟩ := hdone e' hbind
      refine ⟨hwf, ?_⟩
      have hlookup : ((scope :: stack).head?.bind (·.lookup (hash name))) = m name :=
        hscope name hname
      unfold specStep
      dsimp only
      rw [hlookup]
      -- A name that is bound is an error, after the value was replaced.
      by_cases hm : (m name).isSome
      · obtain ⟨w, hw⟩ := Option.isSome_iff_exists.mp hm
        rw [if_pos hm, if_pos hm]
        refine ⟨m :: ms, rfl, ?_⟩
        constructor
        · -- the name has the new value here, and the old one in the stack of maps
          rintro hold ⟨w₁, hw₁, hne⟩
          have hnew := hold.head_eq hagree hname
          rw [Function.update_self, ← hlookup, Option.mem_def.mp hw₁] at hnew
          exact hne (Option.some.inj hnew)
        · intro hkept
          have hwv : w = value := by
            by_contra hne
            exact hkept ⟨w, hlookup.trans hw, hne⟩
          have hsame : Function.update m name (some value) = m := by
            rw [← hwv, ← hw, Function.update_eq_self]
          rwa [hsame] at hagree
      · rw [if_neg hm, if_neg hm]
        refine ⟨_, rfl, fun _ => ?_, fun _ => hagree⟩
        rintro ⟨w, hw, -⟩
        have hmw : m name = some w := hlookup.symm.trans hw
        exact hm (Option.isSome_iff_exists.mpr ⟨w, hmw⟩)

/-- `OP_ASSIGN` changes the innermost binding, or binds the name in the current scope. -/
theorem assign_refines (hS : S.InjOn hash) {e : Environment υ} (he : e.Wf)
    {ms : ScopeStack String υ} (h : Agree hash S e.stack ms) {name : String} (hname : name ∈ S)
    (value : υ) : e.StepRefines hash S ms (.assign name value) := by
  have hloop := assignExisting_spec hS h he.stack hname value
  cases hassign : assignExisting (hash name) value e.stack with
  | none =>
    rw [hassign] at hloop
    refine ⟨fun _ => Or.inr (Or.inr hloop), fun r e' hstep => ?_⟩
    simp [Environment.step, runtimeAssignment, hassign] at hstep
  | some result =>
    rw [hassign] at hloop
    cases result with
    -- A scope has the name.
    | some stack' =>
      obtain ⟨hstack_wf, ms', hmod, hagree⟩ := hloop
      have hstep : e.step hash (.assign name value) = some (.done, { e with stack := stack' }) := by
        simp [Environment.step, runtimeAssignment, hassign]
      have hspec : specStep ms (.assign name value) = some (.done, ms') := by
        simp only [specStep, hmod]
      exact .of_step (fun _ _ heq => nomatch heq) hstep hspec ⟨he.keys, hstack_wf⟩ hagree
    | none =>
      -- no scope has the name, and the current one gets it
      have hstep : e.step hash (.assign name value) =
          (bindCurrent name (hash name) value e).map fun e => (.done, e) := by
        simp [Environment.step, runtimeAssignment, hassign, Option.map_eq_bind]
      obtain ⟨keys, stack⟩ := e
      cases h with
      | nil => exact ⟨fun _ => Or.inl rfl, fun r e' hstep' => nomatch hstep.symm.trans hstep'⟩
      | @cons scope m stack ms hscope hrest =>
        obtain ⟨hfull, hdone⟩ := bindCurrent_spec hS he hscope hrest hname value
        have hspec : specStep (m :: ms) (.assign name value) =
            some (.done, Function.update m name (some value) :: ms) := by
          have hmod : ScopeStack.modify name (some value) (m :: ms) = none := hloop
          simp only [specStep, hmod]
        cases hbind : bindCurrent name (hash name) value ⟨keys, scope :: stack⟩ with
        | none =>
          refine ⟨fun _ => Or.inr (hfull hbind), fun r e' hstep' => ?_⟩
          rw [hstep, hbind] at hstep'
          cases hstep'
        | some e' =>
          obtain ⟨hwf, hagree⟩ := hdone e' hbind
          rw [hbind] at hstep
          exact .of_step (fun _ _ heq => nomatch heq) hstep hspec hwf hagree

/-- `OP_IDENTIFIER` loads the innermost binding. -/
theorem identifier_refines {e : Environment υ} (he : e.Wf) {ms : ScopeStack String υ}
    (h : Agree hash S e.stack ms) {name : String} (hname : name ∈ S) :
    e.StepRefines hash S ms (.identifier name) := by
  have hload := loadVariable_eq h hname
  cases hresolve : ScopeStack.resolve name ms with
  | none =>
    rw [hresolve] at hload
    have hstep : e.step hash (.identifier name) = some (.error (notDefinedError name), e) := by
      simp only [Environment.step, hload]
    have hspec : specStep ms (.identifier name) = some (.error (notDefinedError name), ms) := by
      simp only [specStep, hresolve]
    exact .of_step (fun _ _ heq => nomatch heq) hstep hspec he h
  | some value =>
    rw [hresolve] at hload
    have hstep : e.step hash (.identifier name) = some (.value value, e) := by
      simp only [Environment.step, hload]
    have hspec : specStep ms (.identifier name) = some (.value value, ms) := by
      simp only [specStep, hresolve]
    exact .of_step (fun _ _ heq => nomatch heq) hstep hspec he h

/-- `OP_DELETE_IDENTIFIER` removes the innermost binding. -/
theorem deleteIdentifier_refines (hS : S.InjOn hash) {e : Environment υ} (he : e.Wf)
    {ms : ScopeStack String υ} (h : Agree hash S e.stack ms) {name : String} (hname : name ∈ S) :
    e.StepRefines hash S ms (.deleteIdentifier name) := by
  obtain ⟨hstack_wf, hloop⟩ := deleteVariable_spec hS h he.stack hname
  have hstep : e.step hash (.deleteIdentifier name) =
      some (if (deleteVariable (hash name) e.stack).1 then .done
        else .error (notDefinedError name),
        { e with stack := (deleteVariable (hash name) e.stack).2 }) := rfl
  have hwf : Environment.Wf { e with stack := (deleteVariable (hash name) e.stack).2 } :=
    ⟨he.keys, hstack_wf⟩
  cases hmod : ScopeStack.modify name none ms with
  -- No scope has the name, which is an error.
  | none =>
    rw [hmod] at hloop
    obtain ⟨hremoved, hkept⟩ := hloop
    have hspec : specStep ms (.deleteIdentifier name) = some (.error (notDefinedError name), ms) := by
      simp only [specStep, hmod]
    rw [hremoved] at hstep
    refine .of_step (fun _ _ heq => nomatch heq) hstep hspec hwf ?_
    rw [hkept]
    exact h
  | some ms' =>
    rw [hmod] at hloop
    obtain ⟨hremoved, hagree⟩ := hloop
    have hspec : specStep ms (.deleteIdentifier name) = some (.done, ms') := by
      simp only [specStep, hmod]
    rw [hremoved] at hstep
    exact .of_step (fun _ _ heq => nomatch heq) hstep hspec hwf hagree

/-- Every instruction gives the results of the stack of maps. -/
theorem step_refines (hS : S.InjOn hash) {e : Environment υ} (he : e.Wf)
    {ms : ScopeStack String υ} (h : Agree hash S e.stack ms) {op : ScopeOp υ}
    (hop : ∀ name, op.name = some name → name ∈ S) : e.StepRefines hash S ms op := by
  cases op with
  | newScope =>
    refine .of_step (fun _ _ heq => nomatch heq) rfl rfl ⟨he.keys, ?_⟩ (.cons (fun _ _ => rfl) h)
    rintro s (_ | ⟨_, hs⟩)
    · rintro t ⟨⟩
    · exact he.stack s hs
  | popScope =>
    obtain ⟨keys, stack⟩ := e
    cases h with
    | nil => exact ⟨fun _ => Or.inl rfl, fun r e' hstep => nomatch hstep⟩
    | cons hscope hrest =>
      exact .of_step (fun _ _ heq => nomatch heq) rfl rfl
        ⟨he.keys, fun s hs => he.stack s (List.mem_cons_of_mem _ hs)⟩ hrest
  | declare name value => exact declare_refines hS he h (hop name rfl) value
  | assign name value => exact assign_refines hS he h (hop name rfl) value
  | identifier name => exact identifier_refines he h (hop name rfl)
  | deleteIdentifier name => exact deleteIdentifier_refines hS he h (hop name rfl)

/-- An assigned name has its value afterwards, and every other name has the value it had. -/
theorem loadVariable_assign (hS : S.InjOn hash) {e e' : Environment υ} (he : e.Wf) {name : String}
    (hname : name ∈ S) {value : υ} {r : ScopeResult υ}
    (hstep : e.step hash (.assign name value) = some (r, e')) :
    loadVariable (hash name) e'.stack = some value ∧ ∀ other ∈ S, other ≠ name →
      loadVariable (hash other) e'.stack = loadVariable (hash other) e.stack := by
  have h : Agree hash S e.stack (e.bindings hash) := agree_bindings e
  obtain ⟨-, ms', hspec, hagree⟩ := (assign_refines hS he h hname value).done r e' hstep
  have h' := hagree.mpr (not_rebinds fun _ _ heq => nomatch heq)
  -- the stack of maps after the assignment
  have hresolve : ScopeStack.resolve name ms' = some value ∧ ∀ other, other ≠ name →
      ScopeStack.resolve other ms' = ScopeStack.resolve other (e.bindings hash) := by
    cases hmod : ScopeStack.modify name (some value) (e.bindings hash) with
    | some ms =>
      simp only [specStep, hmod, Option.some.injEq, Prod.mk.injEq] at hspec
      obtain ⟨-, rfl⟩ := hspec
      exact ⟨ScopeStack.resolve_modify_self hmod,
        fun other hne => ScopeStack.resolve_modify_of_ne hne hmod⟩
    | none =>
      cases hms : e.bindings hash with
      | nil =>
        rw [hms] at hspec
        cases hspec
      | cons m ms =>
        rw [hms] at hmod hspec
        simp only [specStep, hmod, Option.some.injEq, Prod.mk.injEq] at hspec
        obtain ⟨-, rfl⟩ := hspec
        refine ⟨?_, fun other hne => ?_⟩
        · rw [ScopeStack.resolve, Function.update_self, Option.some_or]
        · rw [ScopeStack.resolve, ScopeStack.resolve, Function.update_of_ne hne]
  -- The loads read the stack of maps.
  refine ⟨(loadVariable_eq h' hname).trans hresolve.1, fun other hother hne => ?_⟩
  rw [loadVariable_eq h' hother, loadVariable_eq h hother, hresolve.2 other hne]

/-! ## Runs -/

variable (hash S) in
/-- Over a run, the results are those of the stack of maps, the variables are the same after every
instruction, and an error leaves them as they were. A run may end in a full hash map. -/
def Environment.Refines (e : Environment υ) (ms : ScopeStack String υ) : List (ScopeOp υ) → Prop
  | [] => Agree hash S e.stack ms
  | op :: ops => Agree hash S e.stack ms ∧
    match e.step hash op with
    | none => specStep ms op = none ∨ e.Full
    | some (r, e') => ∃ ms', specStep ms op = some (r, ms') ∧
        (r.IsError → Agree hash S e'.stack ms) ∧ Environment.Refines e' ms' ops

variable (hash) in
/-- No instruction that a run executes rebinds a name. -/
def Environment.NeverRebinds (e : Environment υ) : List (ScopeOp υ) → Prop
  | [] => True
  | op :: ops =>
    match e.step hash op with
    | none => True
    | some (_, e') => ¬e.Rebinds hash op ∧ Environment.NeverRebinds e' ops

variable (hash) in
instance decidableRebinds [DecidableEq υ] (e : Environment υ) :
    (op : ScopeOp υ) → Decidable (e.Rebinds hash op)
  | .declare _ _ => Option.decidableExistsMem _
  | .newScope | .popScope | .assign .. | .identifier _ | .deleteIdentifier _ => isFalse not_false

variable (hash) in
instance decidableNeverRebinds [DecidableEq υ] :
    (e : Environment υ) → (ops : List (ScopeOp υ)) → Decidable (e.NeverRebinds hash ops)
  | _, [] => isTrue trivial
  | e, op :: ops =>
    match hstep : e.step hash op with
    | none => isTrue (by rw [Environment.NeverRebinds, hstep]; trivial)
    | some (_, e') =>
      have := decidableNeverRebinds e' ops
      decidable_of_iff (¬e.Rebinds hash op ∧ e'.NeverRebinds hash ops)
        (by rw [Environment.NeverRebinds, hstep])

theorem Environment.Refines.agree {e : Environment υ} {ms : ScopeStack String υ}
    {ops : List (ScopeOp υ)} (h : e.Refines hash S ms ops) : Agree hash S e.stack ms := by
  cases ops with
  | nil => exact h
  | cons op ops => exact h.1

/-- From variables that agree, a run refines exactly when no instruction rebinds a name. -/
theorem refines_iff_of_agree (hS : S.InjOn hash) {e : Environment υ} (he : e.Wf)
    {ms : ScopeStack String υ} (h : Agree hash S e.stack ms) {ops : List (ScopeOp υ)}
    (hops : ∀ op ∈ ops, ∀ name, op.name = some name → name ∈ S) :
    e.Refines hash S ms ops ↔ e.NeverRebinds hash ops := by
  induction ops generalizing e ms with
  | nil => exact ⟨fun _ => trivial, fun _ => h⟩
  | cons op ops ih =>
    have hstep_refines := step_refines hS he h (hops op List.mem_cons_self)
    have hops' : ∀ op ∈ ops, ∀ name, op.name = some name → name ∈ S :=
      fun op hop => hops op (List.mem_cons_of_mem _ hop)
    unfold Environment.Refines Environment.NeverRebinds
    cases hstep : e.step hash op with
    -- The step fails, which only a full hash map explains.
    | none => exact ⟨fun _ => trivial, fun _ => ⟨h, hstep_refines.failed hstep⟩⟩
    | some result =>
      obtain ⟨r, e'⟩ := result
      obtain ⟨hwf, ms', hspec, hagree⟩ := hstep_refines.done r e' hstep
      constructor
      · -- The states agree after the step, so it has not rebound a name.
        rintro ⟨-, ms₁, hspec₁, -, hrest⟩
        rw [hspec] at hspec₁
        cases hspec₁
        exact ⟨hagree.mp hrest.agree, (ih hwf hrest.agree hops').mp hrest⟩
      · -- The step has not rebound a name, so the states agree after it.
        rintro ⟨hkept, hrest⟩
        have hagree' := hagree.mpr hkept
        refine ⟨h, ms', hspec, fun herror => ?_, (ih hwf hagree' hops').mpr hrest⟩
        rwa [← specStep_error hspec herror]

/-- The instructions on the variables refine a stack of partial maps over a run, with errors that
change nothing, exactly when no step of the run declares a name that the innermost scope binds to
another value. -/
theorem environment_refines_iff {υ : Type} {hash : String → UInt64} {S : Set String}
    (hS : S.InjOn hash) {e : Environment υ} (he : e.Wf) {ops : List (ScopeOp υ)}
    (hops : ∀ op ∈ ops, ∀ name, op.name = some name → name ∈ S) :
    e.Refines hash S (e.bindings hash) ops ↔ e.NeverRebinds hash ops :=
  refines_iff_of_agree hS he (agree_bindings e) hops

end Refinement

/-- A run with two names and two scopes, in which names are declared, assigned and deleted. -/
theorem environment_refines_two_names :
    Environment.Refines (fun name => name.length.toUInt64) {"x", "ys"}
      (⟨none, [none]⟩ : Environment ℕ)
      (Environment.bindings (fun name => name.length.toUInt64) ⟨none, [none]⟩)
      [.declare "x" 1, .newScope, .declare "x" 2, .assign "ys" 3, .deleteIdentifier "x",
        .identifier "x", .popScope, .identifier "ys"] := by
  refine (environment_refines_iff ?_ ⟨by simp, by simp [Scope.Wf]⟩ (by simp [ScopeOp.name])).mpr ?_
  · rintro a (rfl | rfl) b (rfl | rfl) hab
    · rfl
    · exact absurd hab (by decide)
    · exact absurd hab (by decide)
    · rfl
  · decide

/-- A declaration of a declared name raises its error and changes the value. -/
theorem not_forall_environment_refines :
    ¬∀ (hash : String → UInt64) (S : Set String) (e : Environment ℕ) (ops : List (ScopeOp ℕ)),
      S.InjOn hash → e.Wf → (∀ op ∈ ops, ∀ name, op.name = some name → name ∈ S) →
        e.Refines hash S (e.bindings hash) ops := by
  intro hall
  have hS : Set.InjOn (fun _ : String => (0 : UInt64)) {"x"} := Set.injOn_singleton _ _
  have he : Environment.Wf (⟨none, [none]⟩ : Environment ℕ) := ⟨by simp, by simp [Scope.Wf]⟩
  have hops : ∀ op ∈ [ScopeOp.declare "x" 1, .declare "x" 2], ∀ name, op.name = some name →
      name ∈ ({"x"} : Set String) := by simp [ScopeOp.name]
  have hrun := (refines_iff_of_agree hS he (agree_bindings _) hops).mp (hall (fun _ => 0) _ _ _ hS he hops)
  exact absurd hrun (by decide)

end Chloride
