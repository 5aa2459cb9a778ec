import Chloride.Containers.IntIndexed
import Chloride.Logic.Loops
import Chloride.Objects.Number

/-!
# Growing arrays

`darray_armem` of `src/runtime/internals/dynamic_array_armem/darray_armem.c`, for elements that are
pointers: a block of memory, the number of items in it and the number of items it has room for, with sizes
in 64 bits that wrap. An access outside the items, as one outside the block, is undefined. Memory is never
short.
-/

namespace Chloride

/-- `sizeof(ArgonObject *)` -/
def elementSize : UInt64 := 8

/-- `DARRAY_ARMEM_CHUNK_SIZE` -/
def chunkSize : UInt64 := 128

/-- `darray_armem`: the slots of the block, which hold nothing until they are written. The offset is zero
throughout. -/
structure DArray (α : Type) where
  data : List (Option α)
  size : UInt64
  capacity : UInt64
  deriving DecidableEq

namespace DArray

variable {α : Type}

/-- `darray_armem_init` -/
def init (initialSize : UInt64) : DArray α :=
  let bytesNeeded := initialSize * elementSize
  let chunks := (bytesNeeded + chunkSize - 1) / chunkSize
  let allocSize := chunks * chunkSize
  { data := List.replicate (allocSize / elementSize).toNat none
    size := initialSize
    capacity := allocSize / elementSize }

/-- `darray_armem_resize_nolock`, with `ar_realloc` on the block. -/
def resize (arr : DArray α) (newSize : UInt64) : DArray α :=
  let requiredBytes := newSize * elementSize
  let newCapacityBytes := requiredBytes * 2
  let newCapacity := newCapacityBytes / elementSize
  if newCapacity ≠ 0 ∧ newCapacity ≠ arr.capacity then
    { data := arr.data.take newCapacity.toNat ++
        List.replicate (newCapacity.toNat - arr.data.length) none
      size := newSize
      capacity := newCapacity }
  else { arr with size := newSize }

/-- Slots that an access can touch. -/
def Inside (arr : DArray α) (first : ℤ) (count : ℕ) : Prop :=
  count = 0 ∨ (0 ≤ first ∧ first + count ≤ arr.size.toNat ∧ first + count ≤ arr.data.length)

instance (arr : DArray α) (first : ℤ) (count : ℕ) : Decidable (arr.Inside first count) :=
  inferInstanceAs (Decidable (_ ∨ _))

/-- `memcpy` into the block. -/
def memcpy (arr : DArray α) (dst : ℤ) (values : List (Option α)) : Option (DArray α) :=
  if arr.Inside dst values.length then
    some { arr with
      data := arr.data.take dst.toNat ++ values ++ arr.data.drop (dst.toNat + values.length) }
  else none

/-- `memmove` within the block. -/
def memmove (arr : DArray α) (dst src : ℤ) (count : ℕ) : Option (DArray α) :=
  if arr.Inside src count then arr.memcpy dst ((arr.data.drop src.toNat).take count) else none

/-- A slot, read; a slot that holds nothing is no object. -/
def load (arr : DArray α) (i : ℤ) : Option α :=
  if arr.Inside i 1 then (arr.data[i.toNat]?).join else none

/-- A slot, written. -/
def store (arr : DArray α) (i : ℤ) (a : α) : Option (DArray α) := arr.memcpy i [some a]

/-- `darray_armem_insert` -/
def insert (arr : DArray α) (pos : UInt64) (element : α) : Option (DArray α) := do
  let pos := if pos > arr.size then arr.size else pos
  let arr := if arr.size ≥ arr.capacity then arr.resize (arr.size + 1)
    else { arr with size := arr.size + 1 }
  let arr ←
    if pos < arr.size - 1 then arr.memmove (pos.toNat + 1) pos.toNat (arr.size - pos - 1).toNat
    else some arr
  arr.store pos.toNat element

/-- `darray_armem_pop`, with the element that is removed, if there is one. -/
def pop (arr : DArray α) (pos : UInt64) : Option (Option α × DArray α) := do
  if arr.size = 0 then return (none, arr)
  else
    let pos := if pos ≥ arr.size then arr.size - 1 else pos
    let out ← arr.load pos.toNat
    let arr ←
      if pos < arr.size - 1 then arr.memmove pos.toNat (pos.toNat + 1) (arr.size - pos - 1).toNat
      else some arr
    return (some out, { arr with size := arr.size - 1 })

/-- `darray_armem_get`, which ends the process for an index outside, and a read of what it points to. -/
def get (arr : DArray α) (index : UInt64) : Option α :=
  if index ≥ arr.size then none else arr.load index.toNat

/-- `darray_armem_get`, and a write to what it points to. -/
def set (arr : DArray α) (index : UInt64) (a : α) : Option (DArray α) :=
  if index ≥ arr.size then none else arr.store index.toNat a

/-! ## What the operations on the block do -/

/-- A new array has room for its items. -/
theorem init_spec {n : UInt64} (hn : n.toNat < 2^61 - 15) :
    n.toNat ≤ (init n : DArray α).capacity.toNat ∧
      (init n : DArray α).data = List.replicate (init n : DArray α).capacity.toNat none := by
  refine ⟨?_, rfl⟩
  have hbytes : (n * elementSize).toNat = n.toNat * 8 := by
    rw [UInt64.toNat_mul]
    exact Nat.mod_eq_of_lt (by unfold elementSize; show n.toNat * 8 < _; omega)
  have hround : (n * elementSize + chunkSize - 1).toNat = n.toNat * 8 + 127 := by
    rw [UInt64.toNat_sub, UInt64.toNat_add, hbytes]
    show (2^64 - 1 + (n.toNat * 8 + 128) % 2^64) % 2^64 = _
    omega
  show n.toNat ≤ ((n * elementSize + chunkSize - 1) / chunkSize * chunkSize / elementSize).toNat
  rw [UInt64.toNat_div, UInt64.toNat_mul, UInt64.toNat_div, hround]
  show n.toNat ≤ (n.toNat * 8 + 127) / 128 * 128 % 2^64 / 8
  omega

/-- An array that is resized has room for twice as many items, and keeps those it has. -/
theorem resize_spec {arr : DArray α} (hblock : arr.data.length = arr.capacity.toNat) {n : UInt64}
    (hpos : 0 < n.toNat) (hn : n.toNat < 2^60) :
    (arr.resize n).size = n ∧ (arr.resize n).capacity.toNat = 2 * n.toNat ∧
      (arr.resize n).data.length = (arr.resize n).capacity.toNat ∧
      ∀ j < arr.data.length, j < 2 * n.toNat → (arr.resize n).data[j]? = arr.data[j]? := by
  have hcapacity : (n * elementSize * 2 / elementSize).toNat = 2 * n.toNat := by
    rw [UInt64.toNat_div, UInt64.toNat_mul, UInt64.toNat_mul]
    show n.toNat * 8 % 2^64 * 2 % 2^64 / 8 = _
    omega
  have hzero : n * elementSize * 2 / elementSize ≠ 0 := fun h => by
    rw [h] at hcapacity
    have : (0 : UInt64).toNat = 0 := rfl
    omega
  unfold resize
  dsimp only
  split
  case isTrue h =>
    refine ⟨rfl, hcapacity, ?_, fun j hj hlt => ?_⟩
    · show _ = (n * elementSize * 2 / elementSize).toNat
      rw [List.length_append, List.length_take, List.length_replicate]
      omega
    · rw [List.getElem?_append_left (by rw [List.length_take]; omega),
        List.getElem?_take_of_lt (by omega)]
  case isFalse h =>
    have hsame : n * elementSize * 2 / elementSize = arr.capacity := by
      by_contra hne
      exact h ⟨hzero, hne⟩
    exact ⟨rfl, hsame ▸ hcapacity, hblock, fun j _ _ => rfl⟩

theorem memcpy_spec (arr : DArray α) (dst : ℕ) (values : List (Option α))
    (hsize : dst + values.length ≤ arr.size.toNat) (hblock : dst + values.length ≤ arr.data.length) :
    ∃ r, arr.memcpy dst values = some r ∧ r.size = arr.size ∧ r.capacity = arr.capacity ∧
      r.data.length = arr.data.length ∧ ∀ j, r.data[j]? =
        if dst ≤ j ∧ j < dst + values.length then values[j - dst]? else arr.data[j]? := by
  have hinside : arr.Inside dst values.length := Or.inr ⟨by omega, by omega, by omega⟩
  refine ⟨_, if_pos hinside, rfl, rfl, ?_, fun j => ?_⟩
  · simp only [List.length_append, List.length_take, List.length_drop, Int.toNat_natCast]
    omega
  · have hlength : (arr.data.take dst).length = dst := List.length_take_of_le (by omega)
    simp only [Int.toNat_natCast, List.getElem?_append, List.length_append, hlength]
    by_cases hlow : j < dst
    · rw [if_pos (by omega), if_pos hlow, if_neg (by omega), List.getElem?_take_of_lt hlow]
    · by_cases hmid : j < dst + values.length
      · rw [if_pos hmid, if_neg hlow, if_pos (by omega)]
      · rw [if_neg hmid, if_neg (by omega), List.getElem?_drop]
        congr 1
        omega

theorem memmove_spec (arr : DArray α) (dst src count : ℕ) (hdst : dst + count ≤ arr.size.toNat)
    (hsrc : src + count ≤ arr.size.toNat) (hblock : arr.size.toNat ≤ arr.data.length) :
    ∃ r, arr.memmove dst src count = some r ∧ r.size = arr.size ∧ r.capacity = arr.capacity ∧
      r.data.length = arr.data.length ∧ ∀ j, r.data[j]? =
        if dst ≤ j ∧ j < dst + count then arr.data[src + (j - dst)]? else arr.data[j]? := by
  have hinside : arr.Inside src count := Or.inr ⟨by omega, by omega, by omega⟩
  have hlength : ((arr.data.drop src).take count).length = count := by
    rw [List.length_take, List.length_drop]
    omega
  obtain ⟨r, hr, hsize, hcapacity, hsame, hget⟩ := memcpy_spec arr dst ((arr.data.drop src).take count) (by omega) (by omega)
  refine ⟨r, ?_, hsize, hcapacity, hsame, fun j => ?_⟩
  · unfold memmove
    rw [if_pos hinside, Int.toNat_natCast, hr]
  · rw [hget, hlength]
    by_cases hj : dst ≤ j ∧ j < dst + count
    · rw [if_pos hj, if_pos hj, List.getElem?_take_of_lt (by omega), List.getElem?_drop]
    · rw [if_neg hj, if_neg hj]

end DArray

end Chloride
