import Chloride.Containers.Shuffling
import Chloride.Logic.Exceptional
import Chloride.Objects.ArrayMethods
import Chloride.Objects.StringSearch

/-!
# Sorting arrays

`sort` of `src/runtime/objects/array/array.c`: a copy of the items, sorted in place by a quicksort that
leaves short ranges to an insertion sort, and copied back. The comparator is code of the program: it can do
anything to the world it runs in, the array included, and answer or raise what it likes. Every access to the
copy and every comparison is recorded, with the range that is being sorted, and an access outside of the
copy is the end of what can be said.
-/

namespace Chloride

/-- What a call gives: its value, the error that is pending after it and the world it leaves. -/
structure Reply (World β : Type) where
  value : β
  err : Option ArErr
  world : World

/-- `api->call` on an object, for a world, the error that is pending and the arguments. -/
abbrev Callee (World α : Type) := World → Option ArErr → List α → Reply World α

/-- The array that a method is called on, as it is at some time: its value, the address of the block it is
in, and everything else. -/
structure ArrayWorld (Rest α : Type) where
  array : DArray α
  block : ℕ
  rest : Rest

/-- The array holds items. -/
def ArrayWorld.WellFormed {Rest α : Type} (w : ArrayWorld Rest α) : Prop := ∃ l, Represents w.array l

/-- A world together with the items of the array. -/
structure HeldArray (Rest α : Type) extends ArrayWorld Rest α where
  items : List α
  represents : Represents array items

/-- A callback that is given to a method of an array, which it may change as it likes, but not break. -/
structure Callback (Rest α : Type) where
  call : Callee (ArrayWorld Rest α) α
  wellFormed : ∀ w err args, w.WellFormed → (call w err args).world.WellFormed

namespace Sorting

variable {World α : Type}

/-- An access to `arr[index]` while the range from `lo` to `hi` is sorted. -/
structure Access where
  lo : ℕ
  hi : ℕ
  index : ℕ
  deriving DecidableEq

/-- Where a comparison is made: at an index of the scan for items that are not below the pivot, in a range
that ends with `hi`, or elsewhere. -/
inductive Site where
  | forward (index hi : ℕ)
  | other
  deriving DecidableEq

/-- A comparison: what is compared, the errors that are pending before and after, and the answer. -/
structure Comparison (α : Type) where
  site : Site
  first : α
  second : α
  pending : Option ArErr
  raised : Option ArErr
  answer : ℤ
  deriving DecidableEq

/-- The world, the pending error, the copy of the items, and what was done so far, the last first. -/
structure SortState (World α : Type) where
  world : World
  err : Option ArErr
  arr : List α
  accesses : List Access
  comparisons : List (Comparison α)

/-- A part of the sort, which ends without an answer where the code leaves the copy. -/
abbrev SortM (World α : Type) := OptionT (StateM (SortState World α))

/-- A read of `arr[index]`. -/
def load (lo hi index : ℕ) : SortM World α α := do
  modify fun s => { s with accesses := ⟨lo, hi, index⟩ :: s.accesses }
  let s ← get
  s.arr[index]?.getM

/-- A write to `arr[index]`. -/
def store (lo hi index : ℕ) (x : α) : SortM World α Unit := do
  modify fun s => { s with accesses := ⟨lo, hi, index⟩ :: s.accesses }
  let s ← get
  if index < s.arr.length then set { s with arr := s.arr.set index x } else failure

/-- Two items are exchanged, with a `tmp` for the first. -/
def swap (lo hi i j : ℕ) : SortM World α Unit := do
  let tmp ← load lo hi i
  let x ← load lo hi j
  store lo hi i x
  store lo hi j tmp

/-- `api->is_error` -/
def isError : SortM World α Bool := do
  let s ← get
  return s.err.isSome

variable (number : α → Option Number) (callback : Callee World α)

/-- What `argon_array_compare` makes of what the callback gives, with the error that is pending then:
`argon_to_i64` can raise one. -/
def verdict (result : Reply World α) : ℤ × Option ArErr :=
  if result.err.isSome then (0, result.err)
  else
    match number result.value with
    | none => (0, none)
    | some n =>
      match StringSearch.argonToI64 n with
      | .ok n => (if n < 0 then -1 else if n > 0 then 1 else 0, none)
      | .error e => (0, some e)

/-- `argon_array_compare` -/
def compare (site : Site) (a b : α) : SortM World α ℤ := do
  let s ← get
  let result := callback s.world s.err [a, b]
  let (answer, raised) := verdict number result
  set { s with
    world := result.world
    err := raised
    comparisons := ⟨site, a, b, s.err, raised, answer⟩ :: s.comparisons }
  return answer

/-- The inner loop of `argon_insertion_sort`: the place for the key, or none if the function is left. -/
def shift (lo hi : ℕ) (key : α) : ℕ → SortM World α (Option ℕ)
  | 0 => pure (some 0)
  | j + 1 =>
    if lo < j + 1 then do
      let x ← load lo hi j
      let answer ← compare number callback .other x key
      if answer > 0 then do
        if ← isError then return none
        else
          let x ← load lo hi j
          store lo hi (j + 1) x
          shift lo hi key j
      else return some (j + 1)
    else pure (some (j + 1))

/-- `argon_insertion_sort` from `i` on, for as many items as are left. -/
def insertFrom (lo hi : ℕ) : ℕ → ℕ → SortM World α Unit
  | 0, _ => pure ()
  | count + 1, i => do
    let key ← load lo hi i
    match ← shift number callback lo hi key i with
    | none => pure ()
    | some j =>
      store lo hi j key
      insertFrom lo hi count (i + 1)

/-- `argon_insertion_sort` -/
def insertionSort (lo hi : ℕ) : SortM World α Unit := insertFrom number callback lo hi (hi - lo) (lo + 1)

/-- One of the three comparisons for the median. -/
def orderPair (lo hi i j : ℕ) : SortM World α Unit := do
  let x ← load lo hi i
  let y ← load lo hi j
  let answer ← compare number callback .other x y
  if answer > 0 then swap lo hi i j else pure ()

/-- `while (argon_array_compare(&arr[++i], &pivot, ..) < 0 && !api->is_error(err));` -/
def scanForward (lo hi : ℕ) (pivot : α) : ℕ → ℕ → SortM World α ℕ
  | 0, _ => failure
  | fuel + 1, i => do
    let x ← load lo hi (i + 1)
    let answer ← compare number callback (.forward (i + 1) hi) x pivot
    let raised ← isError
    if answer < 0 ∧ !raised then scanForward lo hi pivot fuel (i + 1) else return i + 1

/-- `while (j > lo && argon_array_compare(&pivot, &arr[--j], ..) < 0 && !api->is_error(err));` -/
def scanBackward (lo hi : ℕ) (pivot : α) : ℕ → SortM World α ℕ
  | 0 => pure 0
  | j + 1 =>
    if lo < j + 1 then do
      let x ← load lo hi j
      let answer ← compare number callback .other pivot x
      let raised ← isError
      if answer < 0 ∧ !raised then scanBackward lo hi pivot j else return j
    else pure (j + 1)

/-- The loop around the two scans. -/
def partition (lo hi : ℕ) (pivot : α) (fuel : ℕ) : ℕ → ℕ → ℕ → SortM World α ℕ
  | 0, _, _ => failure
  | rounds + 1, i, j => do
    let i ← scanForward number callback lo hi pivot fuel i
    let j ← scanBackward number callback lo hi pivot j
    let raised ← isError
    if raised ∨ i ≥ j then return i
    else
      swap lo hi i j
      partition lo hi pivot fuel rounds i j

/-- The two calls at the end of `argon_qsort`. -/
def recurse (qsort : ℕ → ℕ → SortM World α Unit) (lo hi i : ℕ) : SortM World α Unit := do
  (if i > 0 ∧ i - 1 > lo then qsort lo (i - 1) else pure ())
  if i + 1 < hi then qsort (i + 1) hi else pure ()

/-- `argon_qsort` for a range that is not short. -/
def split (qsort : ℕ → ℕ → SortM World α Unit) (lo hi : ℕ) : SortM World α Unit := do
  let mid := lo + (hi - lo) / 2
  orderPair number callback lo hi lo mid
  orderPair number callback lo hi lo hi
  orderPair number callback lo hi mid hi
  let raised ← isError
  if raised then pure ()
  else
    let pivot ← load lo hi mid
    swap lo hi mid (hi - 1)
    let s ← get
    let i ← partition number callback lo hi pivot s.arr.length s.arr.length lo (hi - 1)
    swap lo hi i (hi - 1)
    let raised ← isError
    if raised then pure () else recurse qsort lo hi i

/-- `argon_qsort`, as deep as there is fuel for. -/
def qsort : ℕ → ℕ → ℕ → SortM World α Unit
  | 0, _, _ => do
    let raised ← isError
    if raised then pure () else failure
  | fuel + 1, lo, hi => do
    let raised ← isError
    if raised then pure ()
    else if hi - lo < 16 then insertionSort number callback lo hi
    else split number callback (qsort fuel) lo hi

/-- The items are copied to `arr`: `memcpy`, and a loop that takes each of them from the array. -/
def copyItems {Rest : Type} (n : ℕ) : SortM (ArrayWorld Rest α) α Unit := do
  let s ← get
  let self := s.world.array
  if self.Inside 0 n then
    let arr ← ((List.range n).foldlM
      (fun (arr : List α) i => do return arr ++ [← self.get (UInt64.ofNat i)]) []).getM
    set { s with arr := arr }
  else failure

/-- The copy is written back: `memcpy`, and a loop that sets each item of the array. -/
def writeBack {Rest : Type} (n : ℕ) : SortM (ArrayWorld Rest α) α Unit := do
  let s ← get
  let self ← (s.world.array.memcpy 0 (s.arr.map some)).getM
  let self ← ((List.range n).foldlM
    (fun (self : DArray α) i => do self.set (UInt64.ofNat i) (← s.arr[i]?)) self).getM
  set { s with world := { s.world with array := self } }

/-- `ARRAY_TYPE_sort`, with fuel for more calls in one another than there are items. -/
def sort {Rest : Type} (number : α → Option Number) (callback : Callee (ArrayWorld Rest α) α)
    (more : ℕ) : SortM (ArrayWorld Rest α) α Unit := do
  let s ← get
  let n := s.world.array.size
  if n ≤ 1 then pure ()
  else
    copyItems n.toNat
    qsort number callback (n.toNat + more) 0 (n.toNat - 1)
    let raised ← isError
    if raised then pure () else writeBack n.toNat

/-- The sort is called, with no error pending. -/
def start {Rest : Type} (w : ArrayWorld Rest α) : SortState (ArrayWorld Rest α) α :=
  { world := w, err := none, arr := [], accesses := [], comparisons := [] }

/-- What became of a call of `sort`: whether it returned, and the state it left. -/
def result {Rest : Type} (number : α → Option Number) (callback : Callback Rest α) (more : ℕ)
    (w : ArrayWorld Rest α) : Option Unit × SortState (ArrayWorld Rest α) α :=
  (sort number callback.call more).run.run (start w)

end Sorting

end Chloride
