import Chloride.Containers.Runs
import Chloride.Hashmap.History
import Chloride.Objects.Number

/-!
# Importing modules

`ar_import` of `src/import.c` with its two tables, as a machine. A call of `ar_import` is in one of
two phases while it lasts: it loads the file of the module, or it runs the module's body. What the
file system, the compiler and the bodies do is not part of the machine. It comes in with each step: a
call finds a file or does not, loading and running end with an error or without one, and a body may
call `ar_import` again, as often and with whatever path it likes. So a run of the machine is any
sequence of nested imports of modules that import each other in any way.

A module is what the tables take for one, the hash of a path. A step answers `none` where the source
would not take it, or where a table cannot grow.
-/

namespace Chloride

/-- A call of `ar_import` that has not returned: the path of its module, and its `main_scope` when
the body is running. -/
structure ImportFrame where
  path : String
  mainScope : Option ℕ
  deriving DecidableEq

/-- `importing_hash_table` and `imported_hash_table` with the calls of `ar_import` that have not
returned, the innermost first. A flag is true or the null pointer, and a scope is named by its
number. -/
structure ImportState where
  importing : HashmapGC (Option String) Bool
  imported : HashmapGC String ℕ
  stack : List ImportFrame
  scopes : ℕ
  /-- The bodies that ran without an error, which the source does not keep. -/
  succeeded : List (String × ℕ)
  deriving DecidableEq

/-- What happens to the machine. -/
inductive ImportEvent where
  /-- `ar_import` is called, with the relative path, and finds the file or none. -/
  | call (pathRelative : String) (found : Option String)
  /-- `load_argon_file` returns. -/
  | loaded (err : Option ArErr)
  /-- `runtime` returns. -/
  | finished (err : Option ArErr)
  deriving DecidableEq

/-- The tables at the start of the program. -/
def startImports : ImportState where
  importing := .create
  imported := .create
  stack := []
  scopes := 0
  succeeded := []

/-- The error of a file that is not found. -/
def unableToFindError (pathRelative : String) : ArErr :=
  ⟨"FileError", "Unable to find file '" ++ pathRelative ++ "'"⟩

/-- The error of an import that is going on. -/
def circularImportError (path : String) : ArErr :=
  ⟨"ImportError", "Circular import detected: " ++ path⟩

namespace ImportState

/-- `ar_import` is called by the program, or by a body that is running. -/
def CanCall (s : ImportState) : Prop := ∀ f ∈ s.stack.head?, f.mainScope.isSome

instance (s : ImportState) : Decidable s.CanCall :=
  inferInstanceAs (Decidable (∀ f ∈ s.stack.head?, f.mainScope.isSome))

section Step

variable (hash : String → UInt64)

/-- The innermost call returns with an error: its flag is taken back. -/
def fail (s : ImportState) (path : String) (stack : List ImportFrame) (err : ArErr) :
    Option (Option (Except ArErr ℕ) × ImportState) := do
  return (some (.error err),
    { s with importing := ← s.importing.insert (hash path) none false 0, stack := stack })

/-- One step, and what the call of `ar_import` returns that ends with it, if one does. -/
def step (s : ImportState) : ImportEvent → Option (Option (Except ArErr ℕ) × ImportState)
  | .call pathRelative found =>
    if s.CanCall then
      match found with
      | none => some (some (.error (unableToFindError pathRelative)), s)
      | some path =>
        match s.imported.lookup (hash path) with
        | some scope => some (some (.ok scope), s)
        | none =>
          if s.importing.lookup (hash path) = some true then
            some (some (.error (circularImportError path)), s)
          else do
            return (none,
              { s with
                importing := ← s.importing.insert (hash path) none true 0
                stack := ⟨path, none⟩ :: s.stack })
    else none
  | .loaded err =>
    match s.stack with
    | ⟨path, none⟩ :: stack =>
      match err with
      | some err => s.fail hash path stack err
      | none =>
        some (none, { s with stack := ⟨path, some s.scopes⟩ :: stack, scopes := s.scopes + 1 })
    | _ => none
  | .finished err =>
    match s.stack with
    | ⟨path, some mainScope⟩ :: stack =>
      match err with
      | some err => s.fail hash path stack err
      | none => do
        let imported ← s.imported.insert (hash path) path mainScope 0
        let importing ← s.importing.insert (hash path) (some path) false 0
        return (some (.ok mainScope),
          { s with
            imported := imported
            importing := importing
            stack := stack
            succeeded := s.succeeded ++ [(path, mainScope)] })
    | _ => none

/-- One step without the answer. -/
def next (s : ImportState) (event : ImportEvent) : Option ImportState :=
  (s.step hash event).map Prod.snd

/-- The modules of the calls that have not returned. -/
def stackKeys (s : ImportState) : List UInt64 := s.stack.map fun f => hash f.path

/-- The modules whose body ran without an error. -/
def succeededKeys (s : ImportState) : List UInt64 := s.succeeded.map fun e => hash e.1

/-- Whether a module is flagged as being imported. -/
def IsImporting (s : ImportState) (path : String) : Prop :=
  s.importing.lookup (hash path) = some true

end Step

/-- A table has come to the number of entries at which it may not grow. -/
def Full (s : ImportState) : Prop :=
  HashmapGC.capacity ≤ s.importing.hashmapCount ∨ HashmapGC.capacity ≤ s.imported.hashmapCount

end ImportState

/-! ## The invariant -/

section Invariant

variable (hash : String → UInt64)

/-- What the tables say about the calls that have not returned and the bodies that succeeded. -/
structure ImportState.Inv (s : ImportState) : Prop where
  importing_wf : s.importing.Wf
  imported_wf : s.imported.Wf
  flagged : ∀ key, s.importing.lookup key = some true ↔ key ∈ s.stackKeys hash
  nested : (s.stackKeys hash).Nodup
  recorded : ∀ key scope, s.imported.lookup key = some scope ↔
    ∃ e ∈ s.succeeded, hash e.1 = key ∧ e.2 = scope
  once : (s.succeededKeys hash).Nodup
  running : ∀ key ∈ s.stackKeys hash, s.imported.lookup key = none

variable {hash}

theorem startImports_inv : startImports.Inv hash where
  importing_wf := HashmapGC.Wf.create
  imported_wf := HashmapGC.Wf.create
  flagged key := by simp [startImports, ImportState.stackKeys]
  nested := List.nodup_nil
  recorded key scope := by simp [startImports]
  once := List.nodup_nil
  running key hkey := by cases hkey

/-- A module that has no record has not succeeded. -/
theorem ImportState.Inv.not_succeeded {s : ImportState} (h : s.Inv hash) {key : UInt64}
    (hnone : s.imported.lookup key = none) : key ∉ s.succeededKeys hash := by
  intro hmem
  obtain ⟨e, he, hkey⟩ := List.mem_map.mp hmem
  have hsome := (h.recorded key e.2).mpr ⟨e, he, hkey, rfl⟩
  rw [hnone] at hsome
  cases hsome

/-- Taking the flag of the innermost call back, when it returns. -/
theorem flagged_pop {importing importing' : HashmapGC (Option String) Bool} {keys : List UInt64}
    {k : UInt64} (hwf : importing.Wf) (hflagged : ∀ key, importing.lookup key = some true ↔
      key ∈ k :: keys) (hnodup : (k :: keys).Nodup) {name : Option String}
    (hins : importing.insert k name false 0 = some importing') :
    importing'.Wf ∧ ∀ key, importing'.lookup key = some true ↔ key ∈ keys := by
  obtain ⟨hwf', hlookup⟩ := hwf.lookup_insert hins
  refine ⟨hwf', fun key => ?_⟩
  have hnot : k ∉ keys := (List.nodup_cons.mp hnodup).1
  rw [hlookup]
  by_cases heq : key = k
  · rw [heq, Function.update_self]
    exact ⟨fun hfalse => (nomatch hfalse), fun hmem => absurd hmem hnot⟩
  · rw [Function.update_of_ne heq, hflagged, List.mem_cons, or_iff_right heq]

/-- A call that returns with an error. -/
theorem ImportState.Inv.fail {s s' : ImportState} (h : s.Inv hash) {f : ImportFrame}
    {stack : List ImportFrame} (hstack : s.stack = f :: stack) {err : ArErr}
    {r : Option (Except ArErr ℕ)} (hfail : s.fail hash f.path stack err = some (r, s')) :
    r = some (.error err) ∧ s'.Inv hash ∧ s'.stack = stack ∧ s'.imported = s.imported := by
  obtain ⟨importing, hins, heq⟩ := Option.bind_eq_some_iff.mp hfail
  cases heq
  have hkeys : s.stackKeys hash = hash f.path :: stack.map fun f => hash f.path := by
    rw [ImportState.stackKeys, hstack]
    rfl
  have hnodup := h.nested
  rw [hkeys] at hnodup
  obtain ⟨hwf, hflagged⟩ := flagged_pop h.importing_wf (fun key => hkeys ▸ h.flagged key) hnodup hins
  refine ⟨rfl, ⟨hwf, h.imported_wf, hflagged, (List.nodup_cons.mp hnodup).2, h.recorded, h.once,
    fun key hkey => h.running key ?_⟩, rfl, rfl⟩
  rw [hkeys]
  exact List.mem_cons_of_mem _ hkey

/-- A call that starts. -/
theorem ImportState.Inv.call {s : ImportState} (h : s.Inv hash) {path : String}
    (himported : s.imported.lookup (hash path) = none)
    (himporting : ¬s.importing.lookup (hash path) = some true)
    {importing : HashmapGC (Option String) Bool} {name : Option String}
    (hins : s.importing.insert (hash path) name true 0 = some importing) :
    ImportState.Inv hash { s with importing := importing, stack := ⟨path, none⟩ :: s.stack } := by
  obtain ⟨hwf, hlookup⟩ := h.importing_wf.lookup_insert hins
  rw [h.flagged] at himporting
  refine ⟨hwf, h.imported_wf, fun key => ?_, List.nodup_cons.mpr ⟨himporting, h.nested⟩, h.recorded,
    h.once, fun key hkey => ?_⟩
  · have hkeys : key ∈ ImportState.stackKeys hash
        { s with importing := importing, stack := ⟨path, none⟩ :: s.stack } ↔
        key = hash path ∨ key ∈ s.stackKeys hash := List.mem_cons
    rw [hkeys]
    dsimp only
    rw [hlookup]
    by_cases heq : key = hash path
    · rw [heq, Function.update_self]
      exact ⟨fun _ => Or.inl rfl, fun _ => rfl⟩
    · rw [Function.update_of_ne heq, h.flagged, or_iff_right heq]
  · rcases List.mem_cons.mp hkey with rfl | hkey
    · exact himported
    · exact h.running key hkey

/-- A call whose body succeeds. -/
theorem ImportState.Inv.finish {s : ImportState} (h : s.Inv hash) {path : String} {mainScope : ℕ}
    {stack : List ImportFrame} (hstack : s.stack = ⟨path, some mainScope⟩ :: stack)
    {imported : HashmapGC String ℕ} {name : String}
    (himported : s.imported.insert (hash path) name mainScope 0 = some imported)
    {importing : HashmapGC (Option String) Bool} {name' : Option String}
    (himporting : s.importing.insert (hash path) name' false 0 = some importing) :
    ImportState.Inv hash { s with
      imported := imported
      importing := importing
      stack := stack
      succeeded := s.succeeded ++ [(path, mainScope)] } := by
  have hkeys : s.stackKeys hash = hash path :: stack.map fun f => hash f.path := by
    rw [ImportState.stackKeys, hstack]
    rfl
  have hnodup := h.nested
  rw [hkeys] at hnodup
  have hfree : s.imported.lookup (hash path) = none := by
    refine h.running (hash path) ?_
    rw [hkeys]
    exact List.mem_cons_self
  -- The flag is taken back and the module is recorded.
  obtain ⟨hwf, hflagged⟩ :=
    flagged_pop h.importing_wf (fun key => hkeys ▸ h.flagged key) hnodup himporting
  obtain ⟨hwf', hlookup⟩ := h.imported_wf.lookup_insert himported
  refine ⟨hwf, hwf', hflagged, (List.nodup_cons.mp hnodup).2, fun key scope => ?_, ?_,
    fun key hkey => ?_⟩
  · simp only [List.mem_append, List.mem_singleton]
    rw [hlookup]
    -- Whether the key is the one of the module that has finished.
    by_cases heq : key = hash path
    · rw [heq, Function.update_self]
      constructor
      · intro hscope
        exact ⟨(path, mainScope), Or.inr rfl, rfl, Option.some.inj hscope⟩
      · rintro ⟨e, he | rfl, hkey, hscope⟩
        · -- the module had not succeeded before
          exact absurd (List.mem_map.mpr ⟨e, he, hkey⟩) (h.not_succeeded hfree)
        · exact congrArg some hscope
    · rw [Function.update_of_ne heq, h.recorded]
      constructor
      · rintro ⟨e, he, hkey, hscope⟩
        exact ⟨e, Or.inl he, hkey, hscope⟩
      · rintro ⟨e, he | rfl, hkey, hscope⟩
        · exact ⟨e, he, hkey, hscope⟩
        · exact absurd hkey.symm heq
  · -- It succeeds for the first time.
    have happend : ImportState.succeededKeys hash { s with
        imported := imported
        importing := importing
        stack := stack
        succeeded := s.succeeded ++ [(path, mainScope)] } =
        s.succeededKeys hash ++ [hash path] := List.map_append
    rw [happend, List.nodup_append]
    refine ⟨h.once, List.nodup_singleton _, ?_⟩
    rintro key hkey _ hpath rfl
    rw [List.mem_singleton] at hpath
    exact h.not_succeeded hfree (hpath ▸ hkey)
  · -- The modules below it on the stack are others.
    have hne : key ≠ hash path := by
      rintro rfl
      exact (List.nodup_cons.mp hnodup).1 hkey
    dsimp only
    rw [hlookup, Function.update_of_ne hne]
    refine h.running key ?_
    rw [hkeys]
    exact List.mem_cons_of_mem _ hkey

/-- Every step keeps the invariant. -/
theorem ImportState.Inv.step {s s' : ImportState} (h : s.Inv hash) {event : ImportEvent}
    {r : Option (Except ArErr ℕ)} (hstep : s.step hash event = some (r, s')) : s'.Inv hash := by
  cases event with
  | call pathRelative found =>
    unfold ImportState.step at hstep
    dsimp only at hstep
    split at hstep
    case isFalse => cases hstep
    case isTrue =>
      cases found with
      | none =>
        cases hstep
        exact h
      | some path =>
        dsimp only at hstep
        split at hstep
        -- The module was imported before.
        case h_1 =>
          cases hstep
          exact h
        case h_2 himported =>
          split at hstep
          -- It is being imported now.
          case isTrue =>
            cases hstep
            exact h
          -- Its import begins.
          case isFalse himporting =>
            obtain ⟨importing, hins, heq⟩ := Option.bind_eq_some_iff.mp hstep
            cases heq
            exact h.call himported himporting hins
  | loaded err =>
    obtain ⟨importing, imported, stack, scopes, succeeded⟩ := s
    unfold ImportState.step at hstep
    dsimp only at hstep
    split at hstep
    case h_2 => cases hstep
    case h_1 path stack =>
      cases err with
      -- The file cannot be loaded.
      | some err => exact (h.fail (f := ⟨path, none⟩) rfl hstep).2.1
      | none =>
        cases hstep
        exact ⟨h.importing_wf, h.imported_wf, h.flagged, h.nested, h.recorded, h.once, h.running⟩
  | finished err =>
    obtain ⟨importing, imported, stack, scopes, succeeded⟩ := s
    unfold ImportState.step at hstep
    dsimp only at hstep
    split at hstep
    case h_2 => cases hstep
    case h_1 path mainScope stack =>
      cases err with
      -- The module raises an error.
      | some err => exact (h.fail (f := ⟨path, some mainScope⟩) rfl hstep).2.1
      | none =>
        obtain ⟨imported', himported, hstep⟩ := Option.bind_eq_some_iff.mp hstep
        obtain ⟨importing', himporting, heq⟩ := Option.bind_eq_some_iff.mp hstep
        cases heq
        exact h.finish rfl himported himporting

/-- Every run keeps the invariant. -/
theorem run_inv {s s' : ImportState} (h : s.Inv hash) {events : List ImportEvent}
    (hrun : Runs.run (ImportState.next hash) s events = some s') : s'.Inv hash := by
  refine Runs.run_invariant (P := ImportState.Inv hash) ?_ h hrun
  intro s event s' hs hnext
  obtain ⟨⟨r, s₁⟩, hstep, rfl⟩ := Option.map_eq_some_iff.mp hnext
  exact hs.step hstep

/-! ## What imports do -/

variable (hash) in
/-- What holds of the imports whenever the program has come somewhere. -/
structure ImportState.Coherent (s : ImportState) : Prop where
  /-- A module is flagged exactly when it is on the stack of nested imports. -/
  flagged : ∀ path, s.IsImporting hash path ↔ hash path ∈ s.stackKeys hash
  /-- No module is nested in itself, so the nesting is no deeper than there are modules. -/
  nested : (s.stackKeys hash).Nodup
  /-- No body ran to success twice. -/
  once : (s.succeededKeys hash).Nodup
  /-- Once a body has succeeded, an import returns its scope and changes nothing. -/
  later : ∀ e ∈ s.succeeded, s.CanCall → ∀ path pathRelative, hash path = hash e.1 →
    s.step hash (.call pathRelative (some path)) = some (some (.ok e.2), s)
  /-- An import of a module on the stack raises its error and changes nothing. -/
  circular : ∀ path pathRelative, hash path ∈ s.stackKeys hash → s.CanCall →
    s.step hash (.call pathRelative (some path)) =
      some (some (.error (circularImportError path)), s)
  /-- An import that finds no file raises its error and changes nothing. -/
  notFound : ∀ pathRelative, s.CanCall →
    s.step hash (.call pathRelative none) = some (some (.error (unableToFindError pathRelative)), s)
  /-- An import of any other module starts to load it. -/
  fresh : ∀ path pathRelative, hash path ∉ s.stackKeys hash → hash path ∉ s.succeededKeys hash →
    s.CanCall → s.Full ∨ ∃ s', s.step hash (.call pathRelative (some path)) = some (none, s') ∧
      s'.stack = ⟨path, none⟩ :: s.stack ∧ s'.succeeded = s.succeeded
  /-- An error while a module is loaded or run is returned, and leaves the module without a flag and
  without a record. -/
  failed : ∀ f stack err event r s', s.stack = f :: stack →
    (event = .loaded (some err) ∨ event = .finished (some err)) → s.step hash event = some (r, s') →
      r = some (.error err) ∧ s'.stack = stack ∧ hash f.path ∉ s'.stackKeys hash ∧
      ¬s'.IsImporting hash f.path ∧ hash f.path ∉ s'.succeededKeys hash
  /-- A body that runs without an error is recorded, and its scope is returned. -/
  finished : ∀ path mainScope stack r s', s.stack = ⟨path, some mainScope⟩ :: stack →
    s.step hash (.finished none) = some (r, s') →
      r = some (.ok mainScope) ∧ s'.stack = stack ∧
      s'.succeeded = s.succeeded ++ [(path, mainScope)]

/-- A module that has not succeeded has no record. -/
theorem ImportState.Inv.not_recorded {s : ImportState} (h : s.Inv hash) {key : UInt64}
    (hnot : key ∉ s.succeededKeys hash) : s.imported.lookup key = none := by
  by_contra hsome
  obtain ⟨scope, hscope⟩ := Option.ne_none_iff_exists'.mp hsome
  obtain ⟨e, he, hkey, -⟩ := (h.recorded key scope).mp hscope
  exact hnot (List.mem_map.mpr ⟨e, he, hkey⟩)

/-- The call of `ar_import` for a module that has no record. -/
theorem ImportState.step_call {s : ImportState} (hcall : s.CanCall) {path : String}
    (himported : s.imported.lookup (hash path) = none) (pathRelative : String) :
    s.step hash (.call pathRelative (some path)) =
      if s.importing.lookup (hash path) = some true then
        some (some (.error (circularImportError path)), s)
      else do
        return (none,
          { s with
            importing := ← s.importing.insert (hash path) none true 0
            stack := ⟨path, none⟩ :: s.stack }) := by
  unfold ImportState.step
  dsimp only
  rw [if_pos hcall, himported]

/-- The step that ends a load or a run with an error is a failure. -/
theorem ImportState.step_failed {s s' : ImportState} {f : ImportFrame} {stack : List ImportFrame}
    {err : ArErr} {event : ImportEvent} {r : Option (Except ArErr ℕ)} (hstack : s.stack = f :: stack)
    (hevent : event = .loaded (some err) ∨ event = .finished (some err))
    (hstep : s.step hash event = some (r, s')) : s.fail hash f.path stack err = some (r, s') := by
  obtain ⟨path, mainScope⟩ := f
  unfold ImportState.step at hstep
  rcases hevent with rfl | rfl
  · dsimp only at hstep
    rw [hstack] at hstep
    cases mainScope with
    | none => exact hstep
    | some mainScope => cases hstep
  · dsimp only at hstep
    rw [hstack] at hstep
    cases mainScope with
    | none => cases hstep
    | some mainScope => exact hstep

/-- The invariant has everything that imports do. -/
theorem ImportState.Inv.coherent {s : ImportState} (h : s.Inv hash) : s.Coherent hash where
  flagged path := h.flagged (hash path)
  nested := h.nested
  once := h.once
  later := by
    intro e he hcall path pathRelative hpath
    have hrecord : s.imported.lookup (hash path) = some e.2 :=
      (h.recorded _ _).mpr ⟨e, he, hpath.symm, rfl⟩
    unfold ImportState.step
    dsimp only
    rw [if_pos hcall, hrecord]
  circular := by
    intro path pathRelative hmem hcall
    rw [ImportState.step_call hcall (h.running _ hmem), if_pos ((h.flagged _).mpr hmem)]
  notFound := by
    intro pathRelative hcall
    unfold ImportState.step
    dsimp only
    rw [if_pos hcall]
  fresh := by
    intro path pathRelative hstack hsucceeded hcall
    have hflag : ¬s.importing.lookup (hash path) = some true := fun hf => hstack ((h.flagged _).mp hf)
    rw [ImportState.step_call hcall (h.not_recorded hsucceeded), if_neg hflag]
    cases hins : s.importing.insert (hash path) none true 0 with
    | some importing => exact Or.inr ⟨_, rfl, rfl, rfl⟩
    -- The flag cannot be set, which only a full hash map explains.
    | none =>
      refine Or.inl (Or.inl ?_)
      by_contra hroom
      have hsome := HashmapGC.insert_isSome (Nat.lt_of_not_le hroom) (hash path) none true
      rw [hins] at hsome
      cases hsome
  failed := by
    intro f stack err event r s' hstack hevent hstep
    obtain ⟨hr, h', hstack', himported⟩ := h.fail hstack (ImportState.step_failed hstack hevent hstep)
    have hmem : hash f.path ∈ s.stackKeys hash := by
      rw [ImportState.stackKeys, hstack]
      exact List.mem_cons_self
    -- The failed import is off the stack, where it was only once.
    have hnot : hash f.path ∉ s'.stackKeys hash := by
      have hnodup := h.nested
      rw [ImportState.stackKeys, hstack, List.map_cons, List.nodup_cons] at hnodup
      rw [ImportState.stackKeys, hstack']
      exact hnodup.1
    refine ⟨hr, hstack', hnot, fun hflag => hnot ((h'.flagged _).mp hflag), h'.not_succeeded ?_⟩
    rw [himported]
    exact h.running _ hmem
  finished := by
    intro path mainScope stack r s' hstack hstep
    unfold ImportState.step at hstep
    dsimp only at hstep
    rw [hstack] at hstep
    obtain ⟨imported', -, hstep⟩ := Option.bind_eq_some_iff.mp hstep
    obtain ⟨importing', -, heq⟩ := Option.bind_eq_some_iff.mp hstep
    cases heq
    exact ⟨rfl, rfl, rfl⟩

end Invariant

/-- Wherever the program comes, whatever modules it imports and however their loads and their bodies
end, the imports are coherent. -/
theorem imports_coherent (hash : String → UInt64) {events : List ImportEvent} {s : ImportState}
    (hrun : Runs.run (ImportState.next hash) startImports events = some s) : s.Coherent hash :=
  (run_inv startImports_inv hrun).coherent

/-- Three modules, of which the second imports the third, which imports the first and fails. -/
theorem imports_coherent_three_modules : ∃ s, Runs.run (ImportState.next fun path => path.length.toUInt64)
      startImports
      [.call "a" (some "a"), .loaded none, .call "b" (some "bb"), .loaded none,
        .call "c" (some "ccc"), .loaded none, .call "a" (some "a"),
        .finished (some (circularImportError "a")), .finished none, .finished none] = some s ∧
    s.Coherent fun path => path.length.toUInt64 := by
  have hsome : (Runs.run (ImportState.next fun path => path.length.toUInt64) startImports
      [.call "a" (some "a"), .loaded none, .call "b" (some "bb"), .loaded none,
        .call "c" (some "ccc"), .loaded none, .call "a" (some "a"),
        .finished (some (circularImportError "a")), .finished none, .finished none]).isSome := by
    decide
  obtain ⟨s, hrun⟩ := Option.isSome_iff_exists.mp hsome
  exact ⟨s, hrun, imports_coherent _ hrun⟩

end Chloride
