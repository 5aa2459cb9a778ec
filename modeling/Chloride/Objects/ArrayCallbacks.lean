import Chloride.Objects.SortSafety

/-!
# Callbacks that change the array

`map`, `filter` and `sort` of `src/runtime/objects/array/array.c` for callbacks that can do anything to the
array they are called on. `map` takes as many items as there were at the start, `filter` looks at the
number of items each time but copies an item that it is told to keep through the pointer it had before the
call, and `sort` writes back as many items as there were. `callback_safe_iff` says when all of their
accesses to the array are to its items, and they end.
-/

namespace Chloride

namespace ArrayCallbacks

open Exceptional

variable {Rest α : Type}

/-! ## The methods -/

/-- An access to an item of the array: its index, the number of items at that time, and whether they are
in another block than the one that the pointer is into. -/
structure Touch where
  index : ℕ
  size : ℕ
  moved : Bool
  deriving DecidableEq

/-- What a call of the callback for an item leaves: the error that is pending, the number of items, whether
they are in another block, and whether the item is to be kept. -/
structure Invocation where
  index : ℕ
  raised : Option ArErr
  size : ℕ
  moved : Bool
  keep : Bool
  deriving DecidableEq

/-- The world, the pending error, the items of the array that is made, and what was done so far, the last
first. -/
structure MethodState (Rest α : Type) where
  world : ArrayWorld Rest α
  err : Option ArErr
  object : List α
  touches : List Touch
  invocations : List Invocation

/-- A part of a method, which ends without an answer where the process ends or the code leaves the items. -/
abbrev MethodM (Rest α : Type) := OptionT (StateM (MethodState Rest α))

/-- Whether what a callback gives is true: `true`, `false`, a value with `as_bool`, or an object that is
asked, which is code of the program again. -/
structure Truthiness (Rest α : Type) where
  call : ArrayWorld Rest α → α → Reply (ArrayWorld Rest α) Bool
  wellFormed : ∀ w value, w.WellFormed → (call w value).world.WellFormed

/-- `darray_armem_get` on `self`, and a read of the item. -/
def getItem (index : ℕ) : MethodM Rest α α := do
  modify fun s => { s with touches := ⟨index, s.world.array.size.toNat, false⟩ :: s.touches }
  let s ← get
  (s.world.array.get (UInt64.ofNat index)).getM

/-- A read through the pointer to an item, which is into a block. -/
def readItem (index block : ℕ) : MethodM Rest α α := do
  modify fun s => { s with
    touches := ⟨index, s.world.array.size.toNat, s.world.block != block⟩ :: s.touches }
  let s ← get
  (if s.world.block = block then s.world.array.load index else none).getM

/-- The call in `map`, and the write of its value to the array that is made: whether an error is pending. -/
def apply (callback : Callee (ArrayWorld Rest α) α) (index : ℕ) (item : α) : MethodM Rest α Bool := do
  let s ← get
  let result := callback s.world s.err [item]
  set { s with
    world := result.world
    err := result.err
    object := s.object ++ [result.value]
    invocations := ⟨index, result.err, result.world.array.size.toNat,
      result.world.block != s.world.block, false⟩ :: s.invocations }
  return result.err.isSome

/-- The loop of `map` from an item on, for as many items as are left. -/
def mapFrom (callback : Callee (ArrayWorld Rest α) α) : ℕ → ℕ → MethodM Rest α Unit
  | 0, _ => pure ()
  | count + 1, i => do
    let item ← getItem i
    let raised ← apply callback i item
    if raised then pure () else mapFrom callback count (i + 1)

/-- The call in `filter`, and the truthiness of its value, if there is no error. -/
def verdict (truthiness : Truthiness Rest α) (result : Reply (ArrayWorld Rest α) α) :
    Reply (ArrayWorld Rest α) Bool :=
  if result.err.isSome then ⟨false, result.err, result.world⟩ else truthiness.call result.world result.value

/-- The part of `filter` that runs code of the program: whether the item is to be kept, or none if an error
is pending. -/
def judge (truthiness : Truthiness Rest α) (callback : Callee (ArrayWorld Rest α) α) (index : ℕ)
    (item : α) : MethodM Rest α (Option Bool) := do
  let s ← get
  let result := verdict truthiness (callback s.world s.err [item])
  set { s with
    world := result.world
    err := result.err
    invocations := ⟨index, result.err, result.world.array.size.toNat,
      result.world.block != s.world.block, result.value⟩ :: s.invocations }
  return if result.err.isSome then none else some result.value

/-- `darray_armem_insert(object->value.as_array, -1, item)` -/
def keepItem (index block : ℕ) : MethodM Rest α Unit := do
  let item ← readItem index block
  modify fun s => { s with object := s.object ++ [item] }

/-- The loop of `filter` from an item on, for so many rounds. -/
def filterFrom (truthiness : Truthiness Rest α) (callback : Callee (ArrayWorld Rest α) α) :
    ℕ → ℕ → MethodM Rest α Unit
  | 0, i => do
    let s ← get
    if i < s.world.array.size.toNat then failure else pure ()
  | fuel + 1, i => do
    let s ← get
    if i < s.world.array.size.toNat then
      let item ← getItem i
      match ← judge truthiness callback i item with
      | none => pure ()
      | some keep =>
        if keep then keepItem i s.world.block else pure ()
        filterFrom truthiness callback fuel (i + 1)
    else pure ()

/-- A method is called, with no error pending. -/
def start (w : ArrayWorld Rest α) : MethodState Rest α :=
  { world := w, err := none, object := [], touches := [], invocations := [] }

/-- `ARRAY_TYPE_map` -/
def map (callback : Callback Rest α) (w : ArrayWorld Rest α) : Option Unit × MethodState Rest α :=
  (mapFrom callback.call w.array.size.toNat 0).run.run (start w)

/-- `ARRAY_TYPE_filter` -/
def filter (truthiness : Truthiness Rest α) (callback : Callback Rest α) (fuel : ℕ)
    (w : ArrayWorld Rest α) : Option Unit × MethodState Rest α :=
  (filterFrom truthiness callback.call fuel 0).run.run (start w)

/-! ## What is asked of them -/

/-- An access to an item that the array has. -/
def Touch.Inside (t : Touch) : Prop := t.index < t.size ∧ t.moved = false

/-- After the call, the item after the one it was for is there, if `map` goes on to it. -/
def Invocation.LeavesNext (n : ℕ) (c : Invocation) : Prop :=
  c.raised = none → c.index + 1 < n → c.index + 1 < c.size

/-- After the call, an item that is to be kept is where it was. -/
def Invocation.LeavesKept (c : Invocation) : Prop :=
  c.raised = none → c.keep = true → c.index < c.size ∧ c.moved = false

/-- The call is the last that `filter` makes. -/
def Invocation.Stops (c : Invocation) : Prop := c.raised ≠ none ∨ c.size ≤ c.index + 1

inductive ArrayMethod where
  | map
  | filter
  | sort
  deriving DecidableEq

/-- A call of a method with a callback, and the runtime it is in. -/
structure MethodCall (Rest α : Type) where
  method : ArrayMethod
  number : α → Option Number
  truthiness : Truthiness Rest α
  callback : Callback Rest α
  held : HeldArray Rest α

namespace MethodCall

variable (c : MethodCall Rest α)

/-- What becomes of the call, if the method is the one that is named. -/
def mapped : Option Unit × MethodState Rest α := map c.callback c.held.toArrayWorld

def filtered (fuel : ℕ) : Option Unit × MethodState Rest α :=
  filter c.truthiness c.callback fuel c.held.toArrayWorld

def sorted (more : ℕ) : Option Unit × Sorting.SortState (ArrayWorld Rest α) α :=
  Sorting.result c.number c.callback more c.held.toArrayWorld

/-- The method ends, and accesses only items that the array has; `sort` also keeps to its copy. -/
def Safe (more : ℕ) : Prop :=
  match c.method with
  | .map => c.mapped.1 = some () ∧ ∀ t ∈ c.mapped.2.touches, t.Inside
  | .filter => ∃ fuel, (c.filtered fuel).1 = some () ∧ ∀ t ∈ (c.filtered fuel).2.touches, t.Inside
  | .sort => (c.sorted more).1 = some () ∧ ∀ a ∈ (c.sorted more).2.accesses, a.Inside

/-- The callback leaves what the method goes on with. -/
def LeavesEnough (more : ℕ) : Prop :=
  match c.method with
  | .map => ∀ d ∈ c.mapped.2.invocations, d.LeavesNext c.held.items.length
  | .filter => ∃ fuel, (c.held.items = [] ∨ ∃ d ∈ (c.filtered fuel).2.invocations, d.Stops) ∧
      ∀ d ∈ (c.filtered fuel).2.invocations, d.LeavesKept
  | .sort => (∀ d ∈ (c.sorted more).2.comparisons, ¬d.Overruns) ∧
      ((c.sorted more).2.err = none →
        c.held.items.length ≤ (c.sorted more).2.world.array.size.toNat)

end MethodCall

/-! ## Accesses -/

/-- The number of items of an array is far below the number of sizes. -/
theorem size_lt {w : ArrayWorld Rest α} (h : w.WellFormed) : w.array.size.toNat < 2^61 := by
  obtain ⟨l, hl⟩ := h
  rw [hl.size]
  exact hl.bounded

theorem get_of_lt {w : ArrayWorld Rest α} (h : w.WellFormed) {i : ℕ} (hi : i < w.array.size.toNat) :
    ∃ x, w.array.get (UInt64.ofNat i) = some x := by
  have hsmall := size_lt h
  obtain ⟨l, hl⟩ := h
  have hlt : i < l.length := hl.size ▸ hi
  refine ⟨l[i], ?_⟩
  rw [ArrayMethods.get_spec hl (Sorting.toNat_index (by omega)) hlt, List.getElem?_eq_getElem hlt]

theorem get_of_not_lt {w : ArrayWorld Rest α} {i : ℕ} (hsmall : i < 2^61)
    (hi : ¬i < w.array.size.toNat) : w.array.get (UInt64.ofNat i) = none := by
  have hout : UInt64.ofNat i ≥ w.array.size := by
    rw [ge_iff_le, UInt64.le_iff_toNat_le, Sorting.toNat_index hsmall]
    omega
  exact if_pos hout

theorem load_of_lt {w : ArrayWorld Rest α} (h : w.WellFormed) {i : ℕ} (hi : i < w.array.size.toNat) :
    ∃ x, w.array.load i = some x := by
  obtain ⟨l, hl⟩ := h
  have hlt : i < l.length := hl.size ▸ hi
  exact ⟨l[i], by rw [ArrayMethods.load_spec hl hlt, List.getElem?_eq_getElem hlt]⟩

theorem load_of_not_lt {arr : DArray α} {i : ℕ} (hi : ¬i < arr.size.toNat) : arr.load i = none := by
  have hout : ¬arr.Inside i 1 := by
    rintro (hzero | ⟨_, hsize, _⟩)
    · exact absurd hzero (by omega)
    · omega
  exact if_neg hout

/-- The item is read if the array has it, and otherwise the process ends. -/
theorem getItem_spec {s : MethodState Rest α} (h : s.world.WellFormed) {i : ℕ} (hsmall : i < 2^61) :
    Triple (Eq s) (getItem i)
      (fun _ t => i < s.world.array.size.toNat ∧
        t = { s with touches := ⟨i, s.world.array.size.toNat, false⟩ :: s.touches })
      fun t => ¬i < s.world.array.size.toNat ∧ t.invocations = s.invocations := by
  refine Triple.modify_bind
    (R := Eq { s with touches := ⟨i, s.world.array.size.toNat, false⟩ :: s.touches })
    (fun _ ht => ht ▸ rfl) (Triple.get_bind fun t ht => ?_)
  subst ht
  by_cases hi : i < s.world.array.size.toNat
  · obtain ⟨x, hx⟩ := get_of_lt h hi
    rw [hx]
    exact Triple.pure fun _ ht => ⟨hi, ht.symm⟩
  · rw [get_of_not_lt hsmall hi]
    exact Triple.failure fun _ ht => ⟨hi, ht ▸ rfl⟩

/-- The item is read through the pointer if the array has it where it was. -/
theorem readItem_spec {s : MethodState Rest α} (h : s.world.WellFormed) (i block : ℕ) :
    Triple (Eq s) (readItem i block)
      (fun _ t => (i < s.world.array.size.toNat ∧ (s.world.block != block) = false) ∧
        t = { s with touches := ⟨i, s.world.array.size.toNat, false⟩ :: s.touches })
      fun t => ¬(i < s.world.array.size.toNat ∧ (s.world.block != block) = false) ∧
        t.invocations = s.invocations := by
  refine Triple.modify_bind (R := Eq { s with
      touches := ⟨i, s.world.array.size.toNat, s.world.block != block⟩ :: s.touches })
    (fun _ ht => ht ▸ rfl) (Triple.get_bind fun t ht => ?_)
  subst ht
  by_cases hblock : s.world.block = block
  · have hsame : (s.world.block != block) = false := by simp [hblock]
    rw [if_pos hblock, hsame]
    by_cases hi : i < s.world.array.size.toNat
    · obtain ⟨x, hx⟩ := load_of_lt h hi
      rw [hx]
      exact Triple.pure fun _ ht => ⟨⟨hi, rfl⟩, ht.symm⟩
    · rw [load_of_not_lt hi]
      exact Triple.failure fun _ ht => ⟨fun h => hi h.1, ht ▸ rfl⟩
  · have hmoved : ¬(s.world.block != block) = false := by simp [hblock]
    rw [if_neg hblock]
    exact Triple.failure fun _ ht => ⟨fun h => hmoved h.2, ht ▸ rfl⟩

/-! ## `map` -/

/-- The accesses so far were to items of the array, and the calls so far leave the items that come next. -/
structure Mapping (n : ℕ) (s : MethodState Rest α) : Prop where
  world : s.world.WellFormed
  touches : ∀ t ∈ s.touches, t.Inside
  leaves : ∀ d ∈ s.invocations, d.LeavesNext n

theorem apply_spec (callback : Callee (ArrayWorld Rest α) α) (i : ℕ) (item : α)
    (s : MethodState Rest α) :
    Triple (Eq s) (apply callback i item)
      (fun raised t => ∃ d : Invocation, d.index = i ∧ d.raised = t.err ∧ raised = t.err.isSome ∧
        d.size = t.world.array.size.toNat ∧ t.world = (callback s.world s.err [item]).world ∧
        t.touches = s.touches ∧ t.invocations = d :: s.invocations)
      fun _ => False := by
  rintro _ rfl
  exact ⟨_, rfl, rfl, rfl, rfl, rfl, rfl, rfl⟩

/-- The loop ends in order, or a call does not leave the item that comes next. -/
theorem mapFrom_spec (callback : Callback Rest α) {n : ℕ} (hn : n < 2^61) (count : ℕ) :
    ∀ i, i + count = n → Triple (fun s => Mapping n s ∧ (0 < count → i < s.world.array.size.toNat))
      (mapFrom callback.call count i) (fun _ => Mapping n)
      fun t => ∃ d ∈ t.invocations, ¬d.LeavesNext n := by
  induction count with
  | zero => exact fun i _ => Triple.pure fun s hs => hs.1
  | succ count ih =>
    intro i hcount
    refine Triple.of_state fun s hs => ?_
    have hi : i < s.world.array.size.toNat := hs.2 (Nat.succ_pos count)
    refine Triple.bind ((getItem_spec hs.1.world (by omega)).conseq (fun _ h => h) (fun _ _ h => h)
      fun t ht => absurd hi ht.1) fun item => Triple.of_fact fun _ => ?_
    refine Triple.of_state fun t ht => ?_
    subst ht
    refine Triple.bind ((apply_spec callback.call i item _).conseq (fun _ h => h) (fun _ _ h => h)
      fun _ h => h.elim) fun raised => Triple.of_state fun u hu => ?_
    obtain ⟨d, hindex, hraised, rfl, hsize, hworld, htouches, hinvocations⟩ := hu
    have hwell : u.world.WellFormed := by
      rw [hworld]
      exact callback.wellFormed _ _ _ hs.1.world
    have hinside : ∀ t ∈ u.touches, t.Inside := by
      rw [htouches]
      exact List.forall_mem_cons.mpr ⟨⟨hi, rfl⟩, hs.1.touches⟩
    -- Whatever the loop does next, the call is one that leaves the next item, or is not.
    have hmapping (hleaves : d.LeavesNext n) : Mapping n u := by
      refine ⟨hwell, hinside, ?_⟩
      rw [hinvocations]
      exact List.forall_mem_cons.mpr ⟨hleaves, hs.1.leaves⟩
    refine Triple.ite (fun herr => Triple.pure ?_) fun hcalm => ?_
    · rintro _ rfl
      refine hmapping fun hnone => ?_
      rw [hraised] at hnone
      rw [hnone] at herr
      cases herr
    by_cases hnext : 0 < count → i + 1 < u.world.array.size.toNat
    · refine (ih (i + 1) (by omega)).conseq ?_ (fun _ _ h => h) fun _ h => h
      rintro _ rfl
      refine ⟨hmapping fun _ hmore => ?_, hnext⟩
      rw [hindex] at hmore ⊢
      rw [hsize]
      exact hnext (by omega)
    · obtain ⟨hpos, hout⟩ := Classical.not_imp.mp hnext
      obtain ⟨count, rfl⟩ := Nat.exists_eq_add_one_of_ne_zero (Nat.pos_iff_ne_zero.mp hpos)
      refine Triple.bind ((getItem_spec hwell (by omega)).conseq (fun _ h => h)
        (fun _ t ht => absurd ht.1 hout) fun t ht => ?_) fun _ => Triple.of_false fun _ h => h
      refine ⟨d, by rw [ht.2, hinvocations]; exact List.mem_cons_self, fun hleaves => hout ?_⟩
      have hnone : d.raised = none := by
        rw [hraised]
        exact Option.not_isSome_iff_eq_none.mp hcalm
      have hlt := hleaves hnone (by omega)
      omega

/-! ## `filter` -/

/-- The accesses so far were to items of the array, and the calls so far leave the items that are kept. -/
structure Filtering (s : MethodState Rest α) : Prop where
  world : s.world.WellFormed
  touches : ∀ t ∈ s.touches, t.Inside
  leaves : ∀ d ∈ s.invocations, d.LeavesKept

/-- There is nothing to do, or a call was the last. -/
def Stopped (items : List α) (s : MethodState Rest α) : Prop :=
  items = [] ∨ ∃ d ∈ s.invocations, d.Stops

/-- What the loop of `filter` knows when it looks at the number of items: if there is an item for the next
round then nothing has stopped it. -/
structure Round (items : List α) (i : ℕ) (s : MethodState Rest α) : Prop extends Filtering s where
  goes_on : i < s.world.array.size.toNat → ¬Stopped items s
  stops : ¬i < s.world.array.size.toNat → Stopped items s

theorem verdict_wellFormed (truthiness : Truthiness Rest α) {result : Reply (ArrayWorld Rest α) α}
    (h : result.world.WellFormed) : (verdict truthiness result).world.WellFormed := by
  unfold verdict
  split
  · exact h
  · exact truthiness.wellFormed _ _ h

theorem judge_spec (truthiness : Truthiness Rest α) (callback : Callback Rest α) (i : ℕ) (item : α)
    {s : MethodState Rest α} (h : s.world.WellFormed) :
    Triple (Eq s) (judge truthiness callback.call i item)
      (fun keep t => t.world.WellFormed ∧ t.touches = s.touches ∧ ∃ d : Invocation, d.index = i ∧
        d.size = t.world.array.size.toNat ∧ d.moved = (t.world.block != s.world.block) ∧
        keep = (if d.raised.isSome then none else some d.keep) ∧ t.invocations = d :: s.invocations)
      fun _ => False := by
  rintro _ rfl
  exact ⟨verdict_wellFormed truthiness (callback.wellFormed _ _ _ h), rfl, _, rfl, rfl, rfl, rfl, rfl⟩

/-- After a call that raises nothing the loop goes on if there is an item for the next round. -/
theorem Round.next {items : List α} {i : ℕ} {s t : MethodState Rest α} {d : Invocation}
    (hgoes : ¬Stopped items s) (hfiltering : Filtering t) (hindex : d.index = i) (hcalm : d.raised = none)
    (hsize : d.size = t.world.array.size.toNat) (hinvocations : t.invocations = d :: s.invocations) :
    Round items (i + 1) t := by
  refine ⟨hfiltering, fun hmore => ?_, fun hend => Or.inr ⟨d, ?_, Or.inr (by omega)⟩⟩
  · rintro (hempty | ⟨c, hc, hstops⟩)
    · exact hgoes (Or.inl hempty)
    · rw [hinvocations] at hc
      rcases List.mem_cons.mp hc with rfl | hc
      · rcases hstops with hraised | hfew
        · exact hraised hcalm
        · omega
      · exact hgoes (Or.inr ⟨c, hc, hstops⟩)
  · rw [hinvocations]
    exact List.mem_cons_self

/-- The copy of an item that is kept. -/
theorem keepItem_spec {s : MethodState Rest α} (h : s.world.WellFormed) (i block : ℕ) :
    Triple (Eq s) (keepItem i block)
      (fun _ t => (i < s.world.array.size.toNat ∧ (s.world.block != block) = false) ∧
        t.world = s.world ∧ t.touches = ⟨i, s.world.array.size.toNat, false⟩ :: s.touches ∧
        t.invocations = s.invocations)
      fun t => ¬(i < s.world.array.size.toNat ∧ (s.world.block != block) = false) ∧
        t.invocations = s.invocations := by
  refine Triple.bind (readItem_spec h i block) fun item => Triple.of_modify fun t ht => ?_
  obtain ⟨hin, rfl⟩ := ht
  exact ⟨hin, rfl, rfl, rfl⟩

/-- The loop ends in order, or there are not enough rounds, or a call does not leave the item that is
kept. -/
theorem filterFrom_spec (truthiness : Truthiness Rest α) (callback : Callback Rest α) (items : List α)
    (fuel : ℕ) : ∀ i, Triple (Round items i) (filterFrom truthiness callback.call fuel i)
      (fun _ t => Filtering t ∧ Stopped items t)
      fun t => ¬Stopped items t ∨ ∃ d ∈ t.invocations, ¬d.LeavesKept := by
  induction fuel with
  | zero =>
    refine fun i => Triple.get_bind fun s hs => Triple.ite (fun hi => ?_) fun hi => ?_
    · exact Triple.failure fun t ht => Or.inl (ht ▸ hs.goes_on hi)
    · exact Triple.pure fun t ht => ht ▸ ⟨hs.toFiltering, hs.stops hi⟩
  | succ fuel ih =>
    refine fun i => Triple.get_bind fun s hs => Triple.ite (fun hi => ?_) fun hi => ?_
    rotate_left
    · exact Triple.pure fun t ht => ht ▸ ⟨hs.toFiltering, hs.stops hi⟩
    have hsmall := size_lt hs.world
    refine Triple.bind ((getItem_spec hs.world (by omega)).conseq (fun _ h => h) (fun _ _ h => h)
      fun t ht => absurd hi ht.1) fun item => Triple.of_fact fun _ => ?_
    refine Triple.of_state fun t ht => ?_
    subst ht
    refine Triple.bind ((judge_spec truthiness callback i item (by exact hs.world)).conseq
      (fun _ h => h) (fun _ _ h => h) fun _ h => h.elim) fun keep => Triple.of_state fun u hu => ?_
    obtain ⟨hwell, htouches, d, hindex, hsize, hmoved, hkeep, hinvocations⟩ := hu
    have hinside : ∀ t ∈ u.touches, t.Inside := by
      rw [htouches]
      exact List.forall_mem_cons.mpr ⟨⟨hi, rfl⟩, hs.touches⟩
    have hleaves (hd : d.LeavesKept) : ∀ d ∈ u.invocations, d.LeavesKept := by
      rw [hinvocations]
      exact List.forall_mem_cons.mpr ⟨hd, hs.leaves⟩
    have hmem : d ∈ u.invocations := by
      rw [hinvocations]
      exact List.mem_cons_self
    have hgoes := hs.goes_on hi
    cases herr : d.raised with
    | some e =>
      -- An error ends the loop.
      rw [herr] at hkeep
      subst hkeep
      refine Triple.pure ?_
      rintro _ rfl
      have hraised : d.raised ≠ none := by
        rw [herr]
        exact Option.some_ne_none e
      exact ⟨⟨hwell, hinside, hleaves fun hnone => absurd hnone hraised⟩,
        Or.inr ⟨d, hmem, Or.inl hraised⟩⟩
    | none =>
      rw [herr] at hkeep
      subst hkeep
      cases hkept : d.keep with
      | false =>
        show Triple (Eq u) (filterFrom truthiness callback.call fuel (i + 1)) _ _
        refine (ih (i + 1)).conseq ?_ (fun _ _ h => h) fun _ h => h
        rintro _ rfl
        have hd : d.LeavesKept := fun _ hkeep => by
          rw [hkept] at hkeep
          cases hkeep
        exact Round.next hgoes ⟨hwell, hinside, hleaves hd⟩ hindex herr hsize hinvocations
      | true =>
        show Triple (Eq u) (keepItem i s.world.block >>= fun _ =>
          filterFrom truthiness callback.call fuel (i + 1)) _ _
        refine Triple.bind ((keepItem_spec hwell i s.world.block).conseq (fun _ h => h)
          (fun _ _ h => h) fun v hv => Or.inr ⟨d, by rw [hv.2]; exact hmem, fun hd => hv.1 ?_⟩)
          fun _ => ?_
        · have hleft := hd herr hkept
          rw [hindex, hsize, hmoved] at hleft
          exact hleft
        · refine Triple.of_fact fun hin => (ih (i + 1)).conseq ?_ (fun _ _ h => h) fun _ h => h
          rintro v ⟨hworld, htouches', hinvocations'⟩
          have hd : d.LeavesKept := fun _ _ => by
            rw [hindex, hsize, hmoved]
            exact hin
          have hfiltering : Filtering v := by
            refine ⟨hworld ▸ hwell, ?_, by rw [hinvocations']; exact hleaves hd⟩
            rw [htouches']
            exact List.forall_mem_cons.mpr ⟨⟨hin.1, rfl⟩, hinside⟩
          exact Round.next hgoes hfiltering hindex herr (by rw [hworld]; exact hsize)
            (hinvocations'.trans hinvocations)

/-! ## `sort` -/

/-- A callback does not break the array. -/
theorem wellFormed_kept (number : α → Option Number) (callback : Callback Rest α) :
    Sorting.Kept number callback.call (fun _ => True) (fun s => s.world.WellFormed) where
  access _ _ hs := hs
  elem_of_mem _ _ _ _ := trivial
  write _ _ _ hs _ := hs
  compare site a b _ _ := by
    refine Triple.of_state fun s hs => ?_
    refine (Sorting.compare_spec site a b s).conseq (fun _ h => h) ?_ fun _ h => h.elim
    rintro z t ⟨result, rfl, -, rfl⟩
    exact callback.wellFormed _ _ _ hs

/-- The copy is not written back to an array that has become shorter. -/
theorem writeBack_fails {s : Sorting.SortState (ArrayWorld Rest α) α}
    (h : ¬s.arr.length ≤ s.world.array.size.toNat) :
    Triple (Eq s) (Sorting.writeBack s.arr.length) (fun _ _ => False) (Eq s) := by
  have hout : ¬s.world.array.Inside 0 (s.arr.map some).length := by
    rw [List.length_map]
    rintro (hzero | ⟨_, hsize, _⟩)
    · omega
    · omega
  have hcopy : s.world.array.memcpy 0 (s.arr.map some) = none := if_neg hout
  refine Triple.get_bind fun t ht => ?_
  subst ht
  rw [hcopy]
  exact fun t ht => ht

/-- How a sort ends with any callback: with a scan that left its range, or in order, or with an array that
has become shorter than the copy. -/
theorem sort_outcome (number : α → Option Number) (callback : Callback Rest α) {w : ArrayWorld Rest α}
    {l : List α} (h : Represents w.array l) (more : ℕ) :
    Triple (Eq (Sorting.start w)) (Sorting.sort number callback.call more)
      (fun _ t => Sorting.Overran t ∨
        Sorting.Clean t ∧ (t.err = none → l.length ≤ t.world.array.size.toNat))
      (fun t => Sorting.Overran t ∨ t.err = none ∧ ¬l.length ≤ t.world.array.size.toNat) := by
  have hsize := h.size
  have hclean : Sorting.Clean (Sorting.start w) :=
    ⟨fun a ha => (nomatch ha), fun d hd => (nomatch hd)⟩
  refine Triple.get_bind fun s hs => ?_
  subst hs
  refine Triple.ite (fun _ => Triple.pure fun s hs => Or.inr ?_) fun hmany => ?_
  · subst hs
    exact ⟨hclean, fun _ => hsize.ge⟩
  have hlong : 1 < l.length := by
    rw [UInt64.not_le, UInt64.lt_iff_toNat_lt] at hmany
    exact hsize ▸ hmany
  have hn : (Sorting.start w).world.array.size.toNat = l.length := hsize
  rw [hn]
  refine Triple.bind ((Sorting.copyItems_spec (s := Sorting.start w) h).conseq (fun _ h => h)
    (fun _ _ h => h) fun _ h => h.elim) fun _ => ?_
  have hg := Sorting.guided_any (wellFormed_kept number callback)
  have hqsort := Sorting.qsort_spec hg (l.length + more) l 0 (l.length - 1) (Nat.zero_le _) (by omega)
    (by omega)
  have hstart : ∀ s, s = { Sorting.start w with arr := l } →
      Sorting.At (fun s => s.world.WellFormed) l s := by
    rintro _ rfl
    exact ⟨rfl, ⟨l, h⟩, hclean.accesses, hclean.comparisons⟩
  refine Triple.bind (Triple.conseq hqsort hstart (fun _ _ h => h) fun _ h => Or.inl h) fun _ => ?_
  refine Triple.of_state fun s hs => ?_
  rcases hs with hover | ⟨b, hb, hshuffle, -⟩
  · have hkeeps : Keeps Sorting.Overran (do
        let raised ← Sorting.isError
        if raised then pure () else Sorting.writeBack l.length :
          Sorting.SortM (ArrayWorld Rest α) α Unit) :=
      Sorting.Kept.isError_bind fun e => Keeps.ite (Keeps.pure _)
        (Sorting.writeBack_keeps fun s array hs => ⟨hs.comparison, hs.access, hs.itself⟩)
    exact hkeeps.conseq (fun _ ht => ht ▸ hover) (fun _ _ h => Or.inl h) fun _ h => Or.inl h
  have harr : s.arr.length = l.length := by
    rw [hb.arr]
    exact hshuffle.length
  refine Triple.bind (R := fun e t => e = s.err.isSome ∧ s = t) (fun t ht => ht ▸ ⟨rfl, rfl⟩) fun e => ?_
  refine Triple.of_fact fun he => Triple.ite (fun hraised => Triple.pure ?_) fun hcalm => ?_
  · rintro _ rfl
    refine Or.inr ⟨hb.clean, fun hnone => ?_⟩
    rw [he, hnone] at hraised
    cases hraised
  have hnone : s.err = none := by
    rw [he] at hcalm
    exact Option.not_isSome_iff_eq_none.mp hcalm
  rw [← harr]
  by_cases hroom : s.arr.length ≤ s.world.array.size.toNat
  · obtain ⟨l', hl'⟩ := hb.inv
    have hshort : s.arr.length ≤ l'.length := hl'.size ▸ hroom
    refine (Sorting.writeBack_spec hl' hshort).conseq (fun _ h => h) ?_ fun _ h => h.elim
    rintro _ t ⟨array, rfl, hsorted⟩
    refine Or.inr ⟨⟨hb.clean.accesses, hb.clean.comparisons⟩, fun _ => ?_⟩
    show s.arr.length ≤ array.size.toNat
    rw [hsorted.size, List.length_append]
    exact Nat.le_add_right _ _
  · refine (writeBack_fails hroom).conseq (fun _ h => h) (fun _ _ h => h.elim) ?_
    rintro _ rfl
    exact Or.inr ⟨hnone, hroom⟩

/-! ## All three -/

namespace MethodCall

variable (c : MethodCall Rest α)

theorem map_leaves_iff : (c.mapped.1 = some () ∧ ∀ t ∈ c.mapped.2.touches, t.Inside) ↔
    ∀ d ∈ c.mapped.2.invocations, d.LeavesNext c.held.items.length := by
  have hsize := c.held.represents.size
  have hspec := mapFrom_spec c.callback c.held.represents.bounded c.held.items.length 0 (by omega)
    (start c.held.toArrayWorld)
    ⟨⟨⟨_, c.held.represents⟩, fun t ht => (nomatch ht), fun d hd => (nomatch hd)⟩,
      fun hpos => by show 0 < c.held.array.size.toNat; omega⟩
  rw [← hsize] at hspec
  change Ends _ _ c.mapped at hspec
  rw [hsize] at hspec
  rcases hrun : c.mapped with ⟨_ | _, t⟩
  all_goals rw [hrun] at hspec
  case none =>
    obtain ⟨d, hd, hleaves⟩ := hspec
    exact ⟨fun h => (nomatch h.1), fun h => absurd (h d hd) hleaves⟩
  case some => exact ⟨fun _ => hspec.leaves, fun _ => ⟨rfl, hspec.touches⟩⟩

theorem filter_round :
    Round c.held.items 0 (start c.held.toArrayWorld : MethodState Rest α) where
  world := ⟨_, c.held.represents⟩
  touches t ht := (nomatch ht)
  leaves d hd := (nomatch hd)
  goes_on hpos := by
    rintro (hempty | ⟨d, hd, _⟩)
    · have hsize : c.held.array.size.toNat = 0 := by
        rw [c.held.represents.size, hempty]
        rfl
      have hlt : 0 < c.held.array.size.toNat := hpos
      omega
    · exact (nomatch hd)
  stops hend := by
    have hsize := c.held.represents.size
    have hzero : ¬0 < c.held.array.size.toNat := hend
    exact Or.inl (List.eq_nil_of_length_eq_zero (by omega))

theorem filter_leaves_iff (fuel : ℕ) :
    ((c.filtered fuel).1 = some () ∧ ∀ t ∈ (c.filtered fuel).2.touches, t.Inside) ↔
      (c.held.items = [] ∨ ∃ d ∈ (c.filtered fuel).2.invocations, d.Stops) ∧
        ∀ d ∈ (c.filtered fuel).2.invocations, d.LeavesKept := by
  have hspec := filterFrom_spec c.truthiness c.callback c.held.items fuel 0 _ c.filter_round
  change Ends _ _ (c.filtered fuel) at hspec
  rcases hrun : c.filtered fuel with ⟨_ | _, t⟩
  all_goals rw [hrun] at hspec
  case none =>
    refine ⟨fun h => (nomatch h.1), fun h => ?_⟩
    rcases hspec with hgoes | ⟨d, hd, hleaves⟩
    · exact absurd h.1 hgoes
    · exact absurd (h.2 d hd) hleaves
  case some => exact ⟨fun _ => ⟨hspec.2, hspec.1.leaves⟩, fun _ => ⟨rfl, hspec.1.touches⟩⟩

theorem sort_leaves_iff (more : ℕ) :
    ((c.sorted more).1 = some () ∧ ∀ a ∈ (c.sorted more).2.accesses, a.Inside) ↔
      (∀ d ∈ (c.sorted more).2.comparisons, ¬d.Overruns) ∧ ((c.sorted more).2.err = none →
        c.held.items.length ≤ (c.sorted more).2.world.array.size.toNat) := by
  have hspec := sort_outcome c.number c.callback c.held.represents more _ rfl
  change Ends _ _ (c.sorted more) at hspec
  have hover : ∀ {t : Sorting.SortState (ArrayWorld Rest α) α}, Sorting.Overran t →
      (¬∀ a ∈ t.accesses, a.Inside) ∧ ¬∀ d ∈ t.comparisons, ¬d.Overruns := by
    rintro t ⟨⟨d, hd, hoverruns⟩, ⟨a, ha, hout⟩, _⟩
    exact ⟨fun h => hout (h a ha), fun h => h d hd hoverruns⟩
  rcases hrun : c.sorted more with ⟨_ | _, t⟩
  all_goals rw [hrun] at hspec
  case none =>
    refine ⟨fun h => (nomatch h.1), fun h => ?_⟩
    rcases hspec with hout | ⟨hcalm, hshort⟩
    · exact absurd h.1 (hover hout).2
    · exact absurd (h.2 hcalm) hshort
  case some =>
    rcases hspec with hout | ⟨hclean, hroom⟩
    · exact ⟨fun h => absurd h.2 (hover hout).1, fun h => absurd h.1 (hover hout).2⟩
    · exact ⟨fun _ => ⟨hclean.comparisons, hroom⟩, fun _ => ⟨rfl, hclean.accesses⟩⟩

/-- `map`, `filter` and `sort` end and access only items of the array if and only if the callback leaves
what they go on with. -/
theorem callback_safe_iff (more : ℕ) : c.Safe more ↔ c.LeavesEnough more := by
  unfold Safe LeavesEnough
  cases c.method with
  | map => exact c.map_leaves_iff
  | filter => exact exists_congr c.filter_leaves_iff
  | sort => exact c.sort_leaves_iff more

end MethodCall

/-! ### A callback that removes items -/

/-- `x -> a.pop()` -/
def popping : Callback Unit ℕ where
  call w err _ :=
    match ArrayMethods.pop w.array none with
    | some (.ok out, array) => ⟨out.getD 0, err, { w with array := array }⟩
    | some (.error e, array) => ⟨0, some e, { w with array := array }⟩
    | none => ⟨0, err, w⟩
  wellFormed w err args := by
    rintro ⟨l, hl⟩
    obtain ⟨array, hpop, harray⟩ := ArrayMethods.pop_spec hl 0 none
    rw [hpop]
    split
    · rename_i heq
      obtain ⟨_, rfl⟩ := Prod.mk.inj (Option.some.inj heq)
      exact ⟨_, harray⟩
    · rename_i heq
      obtain ⟨_, rfl⟩ := Prod.mk.inj (Option.some.inj heq)
      exact ⟨_, harray⟩
    · exact ⟨l, hl⟩

/-- `a.map(x -> a.pop())` for an array of two items. -/
def mapPopping : MethodCall Unit ℕ where
  method := .map
  number n := some (.i64 (Int64.ofNat n))
  truthiness := ⟨fun w n => ⟨n != 0, none, w⟩, fun _ _ h => h⟩
  callback := popping
  held :=
    { array := ⟨[some 1, some 2], 2, 2⟩
      block := 0
      rest := ()
      items := [1, 2]
      represents := ⟨by decide, by decide, by decide, by decide, by decide⟩ }

/-- `map` goes on to an item that the callback has removed. -/
theorem not_forall_callback_safe : ¬∀ c : MethodCall Unit ℕ, c.Safe 0 := by
  intro h
  have hsafe : mapPopping.mapped.1 = some () ∧ ∀ t ∈ mapPopping.mapped.2.touches, t.Inside :=
    h mapPopping
  have hends : mapPopping.mapped.1 = none := by decide
  rw [hends] at hsafe
  cases hsafe.1

end ArrayCallbacks

end Chloride
