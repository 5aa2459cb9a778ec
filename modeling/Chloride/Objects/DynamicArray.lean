import Mathlib

/-!
# The arrays of the compiler

`DArray` of `src/dynamic_array/darray.c`: a block of bytes, the size of an element, the number of elements and the
number that there is room for, with sizes in 64 bits that wrap. A byte of the block is indeterminate until it is
written, an access outside of the block is undefined, and a call that the functions refuse ends the process. Memory is
never short.

`refines_iff` compares the arrays with lists: they agree after every step, up to the first one that takes the last
element away, which `darray_resize` does not do.
-/

namespace Chloride

/-- `DArray` -/
structure DynamicArray where
  data : List (Option UInt8)
  elementSize : UInt64
  size : UInt64
  capacity : UInt64
  resizable : Bool
  deriving DecidableEq

/-- The bytes of an element. -/
abbrev Element := List (Option UInt8)

namespace DynamicArray

/-- `CHUNK_SIZE` -/
def chunkSize : UInt64 := 16

/-- `darray_init` -/
def init (elementSize : UInt64) : DynamicArray where
  data := List.replicate chunkSize.toNat none
  elementSize := elementSize
  size := 0
  capacity := chunkSize / elementSize
  resizable := true

/-- `realloc` -/
def realloc (data : List (Option UInt8)) (bytes : ℕ) : List (Option UInt8) :=
  data.take bytes ++ List.replicate (bytes - data.length) none

/-- `darray_resize` -/
def resize (arr : DynamicArray) (newSize : UInt64) : Option DynamicArray :=
  if arr.resizable = false then none
  else
    let requiredBytes := newSize * arr.elementSize
    let newCapacityBytes := requiredBytes * 2
    let newCapacity := newCapacityBytes / arr.elementSize
    if newCapacity = 0 then some arr
    else if newCapacity ≠ arr.capacity then
      some { arr with data := realloc arr.data newCapacityBytes.toNat, capacity := newCapacity, size := newSize }
    else some { arr with size := newSize }

/-- The place of an element in the block. -/
def offset (arr : DynamicArray) (index : ℕ) : ℕ := index * arr.elementSize.toNat

/-- The bytes of an element. -/
def element (arr : DynamicArray) (index : ℕ) : Element :=
  (arr.data.drop (arr.offset index)).take arr.elementSize.toNat

/-- The bytes of an element, read. -/
def load (arr : DynamicArray) (index : ℕ) : Option Element :=
  if arr.offset (index + 1) ≤ arr.data.length then some (arr.element index) else none

/-- `memcpy` of an element into the block. -/
def store (arr : DynamicArray) (index : ℕ) (element : Element) : Option DynamicArray :=
  if arr.offset (index + 1) ≤ arr.data.length then
    some { arr with
      data := arr.data.take (arr.offset index) ++ element.take arr.elementSize.toNat ++
        arr.data.drop (arr.offset (index + 1)) }
  else none

/-- `darray_push` -/
def push (arr : DynamicArray) (element : Element) : Option DynamicArray := do
  if arr.resizable = false then none
  else
    let arr ← if arr.size ≥ arr.capacity then arr.resize (arr.size + 1) else some { arr with size := arr.size + 1 }
    arr.store (arr.size.toNat - 1) element

/-- `darray_pop`, with the element that `free_data` gets. -/
def pop (arr : DynamicArray) : Option (List Element × DynamicArray) := do
  if arr.resizable = false then none
  else if arr.size = 0 then return ([], arr)
  else return ([← arr.load (arr.size.toNat - 1)], ← arr.resize (arr.size - 1))

/-- `darray_get`, and a read of what it points to. -/
def get (arr : DynamicArray) (index : UInt64) : Option Element :=
  if index ≥ arr.size then none else arr.load index.toNat

/-- `darray_slice` -/
def slice (arr : DynamicArray) (start stop : UInt64) : Option DynamicArray :=
  if start > stop ∨ stop > arr.size then none
  else some {
    data := arr.data.drop (arr.offset start.toNat)
    elementSize := arr.elementSize
    size := stop - start
    capacity := (stop - start + chunkSize) / chunkSize * chunkSize
    resizable := false }

/-- The elements, as `darray_get` reads them one after the other. -/
def contents (arr : DynamicArray) : Option (List Element) :=
  (List.range arr.size.toNat).mapM fun i => arr.get (UInt64.ofNat i)

end DynamicArray

/-! ## Operations -/

/-- A call of a function. -/
inductive DynamicArray.Call where
  | push (element : Element)
  | pop
  | resize (newSize : UInt64)
  | get (index : UInt64)
  | slice (start stop : UInt64)

namespace DynamicArray

/-- A call on an array: the elements that it gives, and the array afterwards. -/
def step (arr : DynamicArray) : Call → Option (List Element × DynamicArray)
  | .push element => do return ([], ← arr.push element)
  | .pop => arr.pop
  | .resize newSize => do return ([], ← arr.resize newSize)
  | .get index => do return ([← arr.get index], arr)
  | .slice start stop => do return (← (← arr.slice start stop).contents, arr)

/-- Calls one after the other. -/
def run (arr : DynamicArray) : List Call → Option (List (List Element) × DynamicArray)
  | [] => some ([], arr)
  | call :: calls => do
    let (given, arr) ← arr.step call
    let (rest, arr) ← arr.run calls
    return (given :: rest, arr)

end DynamicArray

/-- A call on a list; the elements that a list is longer by after `resize` can be any. -/
inductive ListCall : DynamicArray.Call → List Element → List Element → List Element → Prop where
  | push {element : Element} {l : List Element} : ListCall (.push element) l [] (l ++ [element])
  | pop {l : List Element} : ListCall .pop l l.getLast?.toList l.dropLast
  | resize {newSize : UInt64} {l l' : List Element} : l'.length = newSize.toNat →
    (∀ i < l.length, i < newSize.toNat → l'[i]? = l[i]?) → ListCall (.resize newSize) l [] l'
  | get {index : UInt64} {l : List Element} {element : Element} : l[index.toNat]? = some element →
    ListCall (.get index) l [element] l
  | slice {start stop : UInt64} {l : List Element} :
    ListCall (.slice start stop) l ((l.drop start.toNat).take (stop.toNat - start.toNat)) l

/-- Calls on a list one after the other. -/
inductive ListCalls : List DynamicArray.Call → List Element → List (List Element) → List Element → Prop where
  | nil {l : List Element} : ListCalls [] l [] l
  | cons {call : DynamicArray.Call} {calls : List DynamicArray.Call} {l l₁ l' given : List Element}
      {rest : List (List Element)} : ListCall call l given l₁ → ListCalls calls l₁ rest l' →
    ListCalls (call :: calls) l (given :: rest) l'

namespace DynamicArray.Call

/-- The number of elements after a call. -/
def lengthAfter (n : ℕ) : Call → ℕ
  | push _ => n + 1
  | pop => n - 1
  | resize newSize => newSize.toNat
  | get _ | slice _ _ => n

/-- A call within bounds: what is pushed has the size of an element, and what is read is there. -/
def Bounded (elementSize : UInt64) (n : ℕ) : Call → Prop
  | push element => element.length = elementSize.toNat
  | pop | resize _ => True
  | get index => index.toNat < n
  | slice start stop => start ≤ stop ∧ stop.toNat ≤ n

/-- Twice the elements that there are afterwards fit. -/
def Fits (elementSize : UInt64) (n : ℕ) (call : Call) : Prop :=
  2 * (call.lengthAfter n) * elementSize.toNat < 2^64

/-- The call takes all elements away. -/
def Empties (n : ℕ) (call : Call) : Prop := 0 < n ∧ call.lengthAfter n = 0

instance (elementSize : UInt64) (n : ℕ) (call : Call) : Decidable (call.Fits elementSize n) :=
  inferInstanceAs (Decidable (_ < _))

instance (n : ℕ) (call : Call) : Decidable (call.Empties n) := inferInstanceAs (Decidable (_ ∧ _))

/-- All of some calls have a property, of the number of elements before them. -/
def All (P : ℕ → Call → Prop) : ℕ → List Call → Prop
  | _, [] => True
  | n, call :: calls => P n call ∧ All P (call.lengthAfter n) calls

instance All.decidable {P : ℕ → Call → Prop} [∀ n call, Decidable (P n call)] :
    ∀ (n : ℕ) (calls : List Call), Decidable (All P n calls)
  | _, [] => inferInstanceAs (Decidable True)
  | n, call :: calls =>
    have := All.decidable (P := P) (call.lengthAfter n) calls
    inferInstanceAs (Decidable (_ ∧ _))

end DynamicArray.Call

/-- After some calls the array gives what a list gives and has its elements, with room for them. -/
def DynamicArray.Refines (elementSize : UInt64) (calls : List DynamicArray.Call) : Prop :=
  ∃ given arr l, (init elementSize).run calls = some (given, arr) ∧ ListCalls calls [] given l ∧
    arr.contents = some l ∧ arr.size ≤ arr.capacity

/-! ## The block -/

section

variable {β : Type*} {a b : List β} {m n k : ℕ}

/-- A part of a block is a part of what comes before its end. -/
theorem slot_congr (h : a.take k = b.take k) (hk : m + n ≤ k) : (a.drop m).take n = (b.drop m).take n := by
  have hcut : ∀ l : List β, (l.drop m).take n = ((l.take k).drop m).take n := by
    intro l
    rw [List.drop_take, List.take_take, min_eq_left (by omega)]
  rw [hcut a, hcut b, h]

/-- A part of a block behind one that is replaced. -/
theorem slot_behind {e : List β} (hm : m ≤ a.length) (hk : m + e.length ≤ k) :
    ((a.take m ++ e ++ a.drop (m + e.length)).drop k).take n = (a.drop k).take n := by
  have hlength : (a.take m ++ e).length = m + e.length := by
    rw [List.length_append, List.length_take, min_eq_left hm]
  rw [List.drop_append, List.drop_eq_nil_of_le (by omega), List.nil_append, List.drop_drop, hlength]
  congr 2
  omega

end

namespace DynamicArray

theorem take_realloc {data : List (Option UInt8)} {bytes k : ℕ} (hbytes : k ≤ bytes) (hdata : k ≤ data.length) :
    (realloc data bytes).take k = data.take k := by
  rw [realloc, List.take_append_of_le_length, List.take_take, min_eq_left hbytes]
  rw [List.length_take]
  exact le_min hbytes hdata

theorem length_realloc (data : List (Option UInt8)) (bytes : ℕ) : (realloc data bytes).length = bytes := by
  rw [realloc, List.length_append, List.length_take, List.length_replicate]
  omega

/-- An array that has the elements of a list. -/
structure Valid (elementSize : UInt64) (arr : DynamicArray) (l : List Element) : Prop where
  width : arr.elementSize = elementSize
  resizable : arr.resizable = true
  size : arr.size.toNat = l.length
  room : arr.size.toNat ≤ arr.capacity.toNat
  block : arr.capacity.toNat * elementSize.toNat ≤ arr.data.length
  elements : ∀ i < l.length, l[i]? = some (arr.element i)

variable {elementSize : UInt64} {arr : DynamicArray} {l : List Element}

theorem valid_init (elementSize : UInt64) : Valid elementSize (init elementSize) [] where
  width := rfl
  resizable := rfl
  size := rfl
  room := Nat.zero_le _
  block := by
    show (chunkSize / elementSize).toNat * elementSize.toNat ≤ _
    rw [UInt64.toNat_div, init, List.length_replicate]
    exact Nat.div_mul_le_self _ _
  elements i hi := absurd hi (Nat.not_lt_zero i)

namespace Valid

/-- An element lies in the block. -/
theorem offset_le (h : Valid elementSize arr l) {i : ℕ} (hi : i < arr.capacity.toNat) :
    arr.offset (i + 1) ≤ arr.data.length := by
  rw [offset, h.width]
  exact (Nat.mul_le_mul_right _ hi).trans h.block

theorem load (h : Valid elementSize arr l) {i : ℕ} (hi : i < l.length) : arr.load i = l[i]? := by
  have hroom := h.room
  have hsize := h.size
  rw [DynamicArray.load, if_pos (h.offset_le (by omega)), h.elements i hi]

/-- What `darray_get` reads is the element. -/
theorem get (h : Valid elementSize arr l) {index : UInt64} (hindex : index.toNat < l.length) :
    arr.get index = l[index.toNat]? := by
  have hlt : ¬index ≥ arr.size := by
    rw [ge_iff_le, UInt64.le_iff_toNat_le, h.size]
    omega
  rw [DynamicArray.get, if_neg hlt, h.load hindex]

theorem mapM_get {arr : DynamicArray} {l : List Element} {n : ℕ} (hn : n ≤ l.length) (hlength : l.length < 2^64)
    (hget : ∀ index : UInt64, index.toNat < n → arr.get index = l[index.toNat]?) :
    ((List.range n).mapM fun i => arr.get (UInt64.ofNat i)) = some (l.take n) := by
  induction n with
  | zero => rfl
  | succ n ih =>
    have hindex : (UInt64.ofNat n).toNat = n := UInt64.toNat_ofNat_of_lt' (by show n < 2^64; omega)
    have hlast : arr.get (UInt64.ofNat n) = some l[n] := by
      rw [hget _ (by rw [hindex]; exact n.lt_succ_self), hindex, List.getElem?_eq_getElem]
    rw [List.range_succ, List.mapM_append, ih (by omega) fun index hlt => hget index (by omega)]
    simp only [List.mapM_cons, List.mapM_nil, hlast, Option.bind_eq_bind, Option.bind_some, Option.pure_def,
      List.take_succ_eq_append_getElem (show n < l.length by omega)]

/-- The elements are read back. -/
theorem contents (h : Valid elementSize arr l) : arr.contents = some l := by
  have hlength : l.length < 2^64 := h.size ▸ arr.size.toNat_lt
  rw [DynamicArray.contents, h.size, mapM_get le_rfl hlength fun index hindex => h.get hindex, List.take_length]

/-- The array with another list of elements, from what the block has. -/
theorem of_elements {r : DynamicArray} (hwidth : r.elementSize = elementSize) (hresizable : r.resizable = true)
    (hroom : r.size.toNat ≤ r.capacity.toNat) (hblock : r.capacity.toNat * elementSize.toNat ≤ r.data.length) :
    Valid elementSize r ((List.range r.size.toNat).map r.element) where
  width := hwidth
  resizable := hresizable
  size := by rw [List.length_map, List.length_range]
  room := hroom
  block := hblock
  elements i hi := by
    rw [List.length_map, List.length_range] at hi
    rw [List.getElem?_map, List.getElem?_range hi, Option.map_some]

end Valid

/-! ## What the functions do -/

/-- The elements below a new size stay. -/
theorem resize_spec (h : Valid elementSize arr l) {n : UInt64} (hn : 0 < n.toNat)
    (hfits : 2 * n.toNat * elementSize.toNat < 2^64) (hpos : 0 < elementSize) :
    ∃ r l', arr.resize n = some r ∧ Valid elementSize r l' ∧ l'.length = n.toNat ∧
      ∀ i < l.length, i < n.toNat → l'[i]? = l[i]? := by
  have hes : 0 < elementSize.toNat := UInt64.lt_iff_toNat_lt.mp hpos
  have hproduct : 2 * n.toNat * elementSize.toNat = n.toNat * elementSize.toNat * 2 := by ring
  have hbytes : (n * elementSize * 2).toNat = 2 * n.toNat * elementSize.toNat := by
    rw [UInt64.toNat_mul, UInt64.toNat_mul, Nat.mod_eq_of_lt (a := n.toNat * elementSize.toNat) (by omega), hproduct]
    exact Nat.mod_eq_of_lt (by show _ * 2 < 2^64; omega)
  have hcapacity : (n * elementSize * 2 / elementSize).toNat = 2 * n.toNat := by
    rw [UInt64.toNat_div, hbytes, Nat.mul_div_cancel _ hes]
  have hzero : n * elementSize * 2 / elementSize ≠ 0 := by
    intro hzero
    rw [hzero] at hcapacity
    have : (0 : UInt64).toNat = 0 := rfl
    omega
  -- the block afterwards, whose first elements are as they were
  have hnew : ∃ r, arr.resize n = some r ∧ r.elementSize = elementSize ∧ r.resizable = true ∧ r.size = n ∧
      r.capacity.toNat = 2 * n.toNat ∧ 2 * n.toNat * elementSize.toNat ≤ r.data.length ∧
      ∀ k ≤ 2 * n.toNat * elementSize.toNat, k ≤ arr.data.length → r.data.take k = arr.data.take k := by
    rw [resize, if_neg (by rw [h.resizable]; decide), h.width]
    dsimp only
    rw [if_neg hzero]
    by_cases hsame : n * elementSize * 2 / elementSize = arr.capacity
    · rw [if_neg (not_not.mpr hsame)]
      have hblock := h.block
      rw [← hsame, hcapacity] at hblock
      exact ⟨_, rfl, rfl, h.resizable, rfl, hsame ▸ hcapacity, hblock, fun _ _ _ => rfl⟩
    · rw [if_pos hsame]
      refine ⟨_, rfl, rfl, h.resizable, rfl, hcapacity, ?_, fun k hk hdata => take_realloc (by rw [hbytes]; exact hk) hdata⟩
      rw [length_realloc, hbytes]
  obtain ⟨r, hr, hwidth, hresizable, hsize, hroom, hblock, htake⟩ := hnew
  have hvalid := Valid.of_elements hwidth hresizable (by rw [hsize, hroom]; omega) (by rw [hroom]; exact hblock)
  refine ⟨r, _, hr, hvalid, by rw [← hvalid.size, hsize], fun i hi hin => ?_⟩
  have hend : arr.offset i + elementSize.toNat = (i + 1) * elementSize.toNat := by
    rw [offset, h.width]
    ring
  have hold : (i + 1) * elementSize.toNat ≤ arr.data.length := by
    have hle := h.offset_le (i := i) (by have := h.room; have := h.size; omega)
    rwa [offset, h.width] at hle
  have hbelow : (i + 1) * elementSize.toNat ≤ 2 * n.toNat * elementSize.toNat := Nat.mul_le_mul_right _ (by omega)
  rw [h.elements i hi, hvalid.elements i (by rw [← hvalid.size, hsize]; exact hin), element, element, offset, offset,
    hwidth, h.width]
  exact congrArg some (slot_congr (htake _ hbelow hold) (by rw [add_mul, one_mul]))

/-- An element is written. -/
theorem store_spec (h : Valid elementSize arr l) {i : ℕ} (hi : i < l.length) {e : Element}
    (he : e.length = elementSize.toNat) : ∃ r, arr.store i e = some r ∧ Valid elementSize r (l.set i e) := by
  have hoffset := h.offset_le (i := i) (by have := h.room; have := h.size; omega)
  have hstep : arr.offset (i + 1) = arr.offset i + e.length := by
    rw [offset, offset, h.width, he, add_mul, one_mul]
  have htake : e.take arr.elementSize.toNat = e := by rw [h.width, ← he, List.take_length]
  rw [store, if_pos hoffset, htake]
  refine ⟨_, rfl, ⟨h.width, h.resizable, ?_, h.room, ?_, fun j hj => ?_⟩⟩
  · rw [List.length_set]
    exact h.size
  · have hlength : (arr.data.take (arr.offset i) ++ e ++ arr.data.drop (arr.offset (i + 1))).length =
        arr.data.length := by
      rw [List.length_append, List.length_append, List.length_take, List.length_drop, hstep]
      omega
    show arr.capacity.toNat * elementSize.toNat ≤ List.length (_ ++ _ ++ _)
    rw [hlength]
    exact h.block
  · rw [List.length_set] at hj
    rw [List.getElem?_set]
    have hbefore : arr.offset i ≤ arr.data.length := by omega
    show _ = some (((arr.data.take (arr.offset i) ++ e ++ arr.data.drop (arr.offset (i + 1))).drop
      (arr.offset j)).take arr.elementSize.toNat)
    rw [hstep, h.width]
    rcases lt_trichotomy i j with hlt | rfl | hgt
    · rw [if_neg hlt.ne, h.elements j hj, element, h.width, slot_behind hbefore]
      rw [← hstep]
      exact Nat.mul_le_mul_right _ hlt
    · rw [if_pos rfl, if_pos hi, List.append_assoc, List.drop_append_of_le_length (by rw [List.length_take]; omega),
        List.drop_take, Nat.sub_self, List.take_zero, List.nil_append, ← he, List.take_left]
    · have hend : arr.offset j + elementSize.toNat ≤ arr.offset i := by
        rw [offset, offset, h.width]
        calc j * elementSize.toNat + elementSize.toNat = (j + 1) * elementSize.toNat := by ring
          _ ≤ i * elementSize.toNat := Nat.mul_le_mul_right _ hgt
      rw [if_neg hgt.ne', h.elements j hj, element, h.width]
      refine congrArg some (slot_congr ?_ hend)
      rw [List.append_assoc, List.take_append_of_le_length (by rw [List.length_take]; omega), List.take_take,
        min_self]

/-- Nothing is done where no element is to be left. -/
theorem resize_zero (h : Valid elementSize arr l) : arr.resize 0 = some arr := by
  have hzero : (0 : UInt64) * arr.elementSize * 2 / arr.elementSize = 0 := by
    rw [UInt64.zero_mul, UInt64.zero_mul, UInt64.zero_div]
  rw [resize, if_neg (by rw [h.resizable]; decide)]
  exact if_pos hzero

theorem push_eq (arr : DynamicArray) (e : Element) : arr.push e =
    if arr.resizable = false then none
    else (if arr.size ≥ arr.capacity then arr.resize (arr.size + 1) else some { arr with size := arr.size + 1 }).bind
      fun arr => arr.store (arr.size.toNat - 1) e := by
  unfold push
  split
  · rfl
  · split <;> rfl

/-- A part of the array is read in place. -/
theorem slice_spec (h : Valid elementSize arr l) {start stop : UInt64} (hle : start ≤ stop)
    (hstop : stop.toNat ≤ l.length) : ∃ r, arr.slice start stop = some r ∧
      r.contents = some ((l.drop start.toNat).take (stop.toNat - start.toNat)) := by
  have hlength : l.length < 2^64 := h.size ▸ arr.size.toNat_lt
  have hroom := h.room
  have hsize := h.size
  have hcount : (stop - start).toNat = stop.toNat - start.toNat := UInt64.toNat_sub_of_le _ _ hle
  have hinside : ¬(start > stop ∨ stop > arr.size) := by
    rintro (hgt | hgt)
    · exact absurd hle (UInt64.not_le.mpr hgt)
    · rw [gt_iff_lt, UInt64.lt_iff_toNat_lt] at hgt
      omega
  have hview : ((l.drop start.toNat).take (stop.toNat - start.toNat)).length = stop.toNat - start.toNat := by
    rw [List.length_take, List.length_drop]
    omega
  rw [slice, if_neg hinside]
  refine ⟨_, rfl, ?_⟩
  rw [contents]
  dsimp only
  rw [hcount, Valid.mapM_get (l := (l.drop start.toNat).take (stop.toNat - start.toNat)) (by omega) (by omega)]
  · exact congrArg some (List.take_of_length_le (by rw [hview]))
  · intro index hindex
    have helement := h.elements (start.toNat + index.toNat) (by omega)
    have hend := h.offset_le (i := start.toNat + index.toNat) (by omega)
    have hlt : ¬index ≥ stop - start := by
      rw [ge_iff_le, UInt64.le_iff_toNat_le, hcount]
      omega
    have hplace : arr.offset (start.toNat + index.toNat) = arr.offset start.toNat + arr.offset index.toNat := by
      rw [offset, offset, offset, add_mul]
    have hnext : arr.offset (start.toNat + index.toNat + 1) = arr.offset start.toNat + arr.offset (index.toNat + 1) := by
      rw [offset, offset, offset, ← add_mul, add_assoc]
    rw [DynamicArray.get, if_neg hlt, DynamicArray.load, if_pos, List.getElem?_take_of_lt hindex, List.getElem?_drop,
      helement, element, element, hplace, ← List.drop_drop]
    · rfl
    · rw [List.length_drop]
      show arr.offset (index.toNat + 1) ≤ _
      omega

section

variable (hpos : 0 < elementSize) (h : Valid elementSize arr l)
include hpos h

theorem push_spec {e : Element} (he : e.length = elementSize.toNat)
    (hfits : 2 * (l.length + 1) * elementSize.toNat < 2^64) :
    ∃ r, arr.push e = some r ∧ Valid elementSize r (l ++ [e]) := by
  have hes : 0 < elementSize.toNat := UInt64.lt_iff_toNat_lt.mp hpos
  have hlt : l.length + 1 < 2^64 :=
    calc l.length + 1 ≤ 2 * (l.length + 1) * 1 := by omega
      _ ≤ 2 * (l.length + 1) * elementSize.toNat := Nat.mul_le_mul_left _ hes
      _ < 2^64 := hfits
  have hsize : (arr.size + 1).toNat = l.length + 1 := by
    rw [UInt64.toNat_add, h.size]
    exact Nat.mod_eq_of_lt hlt
  -- there is room for one element more, and the others stay
  have hroom : ∃ r l', (if arr.size ≥ arr.capacity then arr.resize (arr.size + 1)
      else some { arr with size := arr.size + 1 }) = some r ∧ Valid elementSize r l' ∧ l'.length = l.length + 1 ∧
      ∀ i < l.length, l'[i]? = l[i]? := by
    by_cases hfull : arr.size ≥ arr.capacity
    · rw [if_pos hfull]
      obtain ⟨r, l', hr, hvalid, hlength, hsame⟩ :=
        resize_spec h (n := arr.size + 1) (by omega) (by rw [hsize]; exact hfits) hpos
      exact ⟨r, l', hr, hvalid, by rw [hlength, hsize], fun i hi => hsame i hi (by omega)⟩
    · rw [if_neg hfull]
      have hcapacity : arr.size.toNat < arr.capacity.toNat := by
        rw [ge_iff_le, UInt64.le_iff_toNat_le] at hfull
        omega
      have hvalid := Valid.of_elements (r := { arr with size := arr.size + 1 }) h.width h.resizable
        (by rw [hsize, ← h.size]; exact hcapacity) h.block
      refine ⟨_, _, rfl, hvalid, by rw [← hvalid.size, hsize], fun i hi => ?_⟩
      rw [hvalid.elements i (by rw [← hvalid.size, hsize]; omega), h.elements i hi]
      rfl
  obtain ⟨r, l', hr, hvalid, hlength, hsame⟩ := hroom
  have hlast : r.size.toNat - 1 = l.length := by rw [hvalid.size, hlength, Nat.add_sub_cancel]
  obtain ⟨r', hr', hvalid'⟩ := store_spec hvalid (i := l.length) (by omega) he
  refine ⟨r', ?_, ?_⟩
  · rw [push_eq, if_neg (by rw [h.resizable]; decide), hr, Option.bind_some, hlast, hr']
  · have hlist : l'.set l.length e = l ++ [e] := by
      apply List.ext_getElem?
      intro i
      rw [List.getElem?_set]
      rcases lt_trichotomy i l.length with hlt | rfl | hgt
      · rw [if_neg hlt.ne', hsame i hlt, List.getElem?_append_left hlt]
      · rw [if_pos rfl, if_pos (by omega), List.getElem?_concat_length]
      · rw [if_neg hgt.ne, List.getElem?_eq_none (by omega), List.getElem?_eq_none]
        rw [List.length_append, List.length_singleton]
        omega
    rw [← hlist]
    exact hvalid'

theorem pop_spec (hone : l.length ≠ 1) (hfits : 2 * (l.length - 1) * elementSize.toNat < 2^64) :
    ∃ r, arr.pop = some (l.getLast?.toList, r) ∧ Valid elementSize r l.dropLast := by
  rw [pop, if_neg (by rw [h.resizable]; decide)]
  by_cases hempty : l = []
  · subst hempty
    have hsize : arr.size = 0 := UInt64.toNat_inj.mp h.size
    rw [if_pos hsize]
    exact ⟨arr, rfl, h⟩
  · have hlength : 0 < l.length := List.length_pos_iff.mpr hempty
    have hsize : (arr.size - 1).toNat = l.length - 1 := by
      rw [UInt64.toNat_sub_of_le, h.size]
      · rfl
      · rw [UInt64.le_iff_toNat_le, h.size]
        exact hlength
    have hzero : arr.size ≠ 0 := by
      intro hzero
      have hcast := h.size
      rw [hzero] at hcast
      exact absurd hcast.symm hlength.ne'
    obtain ⟨r, l', hr, hvalid, hlength', hsame⟩ :=
      resize_spec h (n := arr.size - 1) (by omega) (by rw [hsize]; exact hfits) hpos
    have hlist : l' = l.dropLast := by
      apply List.ext_getElem?
      intro i
      rw [List.getElem?_dropLast]
      by_cases hi : i < l.length - 1
      · rw [if_pos hi, hsame i (by omega) (by omega)]
      · rw [if_neg hi, List.getElem?_eq_none (by omega)]
    subst hlist
    have hget : l.getLast? = some l[l.length - 1] := by
      rw [List.getLast?_eq_getElem?, List.getElem?_eq_getElem]
    refine ⟨r, ?_, hvalid⟩
    rw [if_neg hzero, h.size, h.load (by omega), List.getElem?_eq_getElem (by omega), hr, hget]
    rfl

/-- A call that does not take the last element away has the effect and the results of the call on a list. -/
theorem step_spec {call : Call} (hbounded : call.Bounded elementSize l.length) (hfits : call.Fits elementSize l.length)
    (hleft : ¬call.Empties l.length) : ∃ given r l', arr.step call = some (given, r) ∧ ListCall call l given l' ∧
      Valid elementSize r l' ∧ l'.length = call.lengthAfter l.length := by
  cases call with
  | push e =>
    obtain ⟨r, hr, hvalid⟩ := push_spec hpos h hbounded hfits
    exact ⟨[], r, _, by rw [step, hr]; rfl, .push, hvalid, by rw [List.length_append]; rfl⟩
  | pop =>
    have hone : l.length ≠ 1 := fun hone => hleft ⟨by omega, by rw [hone]; rfl⟩
    obtain ⟨r, hr, hvalid⟩ := pop_spec hpos h hone hfits
    exact ⟨_, r, _, hr, .pop, hvalid, List.length_dropLast⟩
  | resize n =>
    rcases Nat.eq_zero_or_pos n.toNat with hzero | hn
    · obtain rfl : n = 0 := UInt64.toNat_inj.mp hzero
      have hempty : l = [] := by
        by_contra hne
        exact hleft ⟨List.length_pos_iff.mpr hne, rfl⟩
      subst hempty
      exact ⟨[], arr, [], by rw [step, resize_zero h]; rfl, .resize rfl fun i hi => absurd hi (Nat.not_lt_zero i), h,
        rfl⟩
    · obtain ⟨r, l', hr, hvalid, hlength, hsame⟩ := resize_spec h hn hfits hpos
      exact ⟨[], r, l', by rw [step, hr]; rfl, .resize hlength hsame, hvalid, hlength⟩
  | get index =>
    have hget := List.getElem?_eq_getElem hbounded
    exact ⟨_, arr, l, by rw [step, h.get hbounded, hget]; rfl, .get hget, h, rfl⟩
  | slice start stop =>
    obtain ⟨r, hr, hcontents⟩ := slice_spec h hbounded.1 hbounded.2
    refine ⟨_, arr, l, ?_, .slice, h, rfl⟩
    rw [step, hr, Option.bind_eq_bind, Option.bind_some, hcontents]
    rfl

end

/-- A call that takes the last element away leaves the array as it is. -/
theorem step_empties {call : Call} (h : Valid elementSize arr l) (hempties : call.Empties l.length) :
    ∃ given, arr.step call = some (given, arr) := by
  obtain ⟨hlength, hafter⟩ := hempties
  cases call with
  | push e => cases hafter
  | pop =>
    change l.length - 1 = 0 at hafter
    have hone : arr.size = 1 := UInt64.toNat_inj.mp (h.size.trans (by show l.length = 1; omega))
    have hload := h.load (i := 0) hlength
    rw [List.getElem?_eq_getElem hlength] at hload
    refine ⟨[l[0]], ?_⟩
    rw [step, pop, if_neg (by rw [h.resizable]; decide), hone, if_neg (by decide)]
    have hindex : (1 : UInt64).toNat - 1 = 0 := rfl
    have hzero : (1 : UInt64) - 1 = 0 := rfl
    rw [hindex, hload, hzero, resize_zero h]
    rfl
  | resize n =>
    obtain rfl : n = 0 := UInt64.toNat_inj.mp hafter
    exact ⟨[], by rw [step, resize_zero h]; rfl⟩
  | get | slice => exact absurd hafter hlength.ne'

theorem run_cons {call : Call} {calls : List Call} {given : List Element} {r : DynamicArray}
    (hstep : arr.step call = some (given, r)) :
    arr.run (call :: calls) = (r.run calls).map fun p => (given :: p.1, p.2) := by
  rw [run, hstep, Option.bind_eq_bind, Option.bind_some]
  dsimp only
  cases r.run calls <;> rfl

/-- Calls none of which takes the last element away have the effects and the results of calls on a list. -/
theorem run_spec (hpos : 0 < elementSize) {calls : List Call} (h : Valid elementSize arr l)
    (hbounded : Call.All (Call.Bounded elementSize) l.length calls) (hfits : Call.All (Call.Fits elementSize) l.length calls)
    (hleft : Call.All (fun n call => ¬call.Empties n) l.length calls) : ∃ given r l',
      arr.run calls = some (given, r) ∧ ListCalls calls l given l' ∧ Valid elementSize r l' := by
  induction calls generalizing arr l with
  | nil => exact ⟨[], arr, l, rfl, .nil, h⟩
  | cons call calls ih =>
    obtain ⟨given, r, l₁, hstep, hlist, hvalid, hlength⟩ := step_spec hpos h hbounded.1 hfits.1 hleft.1
    obtain ⟨rest, r', l', hrun, hlists, hvalid'⟩ := ih hvalid (by rw [hlength]; exact hbounded.2)
      (by rw [hlength]; exact hfits.2) (by rw [hlength]; exact hleft.2)
    refine ⟨given :: rest, r', l', ?_, .cons hlist hlists, hvalid'⟩
    rw [run_cons hstep, hrun]
    rfl

namespace Call

/-- The number of elements after some calls. -/
def lengthsAfter (n : ℕ) (calls : List Call) : ℕ := calls.foldl lengthAfter n

theorem All.take {P : ℕ → Call → Prop} {n k : ℕ} {calls : List Call} (h : All P n calls) :
    All P n (calls.take k) := by
  induction calls generalizing n k with
  | nil => rwa [List.take_nil]
  | cons call calls ih =>
    cases k with
    | zero => trivial
    | succ k => exact ⟨h.1, ih h.2⟩

end Call

end DynamicArray

open DynamicArray

theorem ListCall.length {call : DynamicArray.Call} {l given l' : List Element} (h : ListCall call l given l') :
    l'.length = call.lengthAfter l.length := by
  cases h with
  | push => rw [List.length_append]; rfl
  | pop => exact List.length_dropLast
  | resize hlength => exact hlength
  | get | slice => rfl

theorem ListCalls.length {calls : List DynamicArray.Call} {l l' : List Element} {given : List (List Element)}
    (h : ListCalls calls l given l') : l'.length = Call.lengthsAfter l.length calls := by
  induction h with
  | nil => rfl
  | cons hcall _ ih => rw [ih, hcall.length]; rfl

namespace DynamicArray

theorem size_of_contents {arr : DynamicArray} {l : List Element} (h : arr.contents = some l) :
    arr.size.toNat = l.length := by
  have hlength : ∀ (is : List ℕ) (l : List Element), is.mapM (fun i => arr.get (UInt64.ofNat i)) = some l →
      is.length = l.length := by
    intro is
    induction is with
    | nil =>
      intro l h
      cases h
      rfl
    | cons i is ih =>
      intro l h
      rw [List.mapM_cons] at h
      simp only [Option.bind_eq_bind, Option.bind_eq_some_iff, Option.pure_def, Option.some.injEq] at h
      obtain ⟨e, -, es, hes, rfl⟩ := h
      rw [List.length_cons, List.length_cons, ih es hes]
  rw [← hlength _ l h, List.length_range]

/-- The size is that of the list only as long as the last element is not taken away. -/
theorem not_empties_of_sizes {elementSize : UInt64} (hpos : 0 < elementSize) {calls : List Call} {arr : DynamicArray}
    {l : List Element} (h : Valid elementSize arr l) (hbounded : Call.All (Call.Bounded elementSize) l.length calls)
    (hfits : Call.All (Call.Fits elementSize) l.length calls)
    (hsizes : ∀ n, ∃ given r, arr.run (calls.take n) = some (given, r) ∧
      r.size.toNat = Call.lengthsAfter l.length (calls.take n)) :
    Call.All (fun n call => ¬call.Empties n) l.length calls := by
  induction calls generalizing arr l with
  | nil => trivial
  | cons call calls ih =>
    have hleft : ¬call.Empties l.length := by
      intro hempties
      obtain ⟨given, hstep⟩ := step_empties h hempties
      obtain ⟨_, r, hrun, hsize⟩ := hsizes 1
      rw [List.take_succ_cons, List.take_zero, run_cons hstep] at hrun
      obtain ⟨-, rfl⟩ := Prod.mk.inj (Option.some.inj hrun)
      have hzero : arr.size.toNat = 0 := hsize.trans hempties.2
      have hlength := h.size
      have hsome := hempties.1
      omega
    obtain ⟨given, r, l₁, hstep, -, hvalid, hlength⟩ := step_spec hpos h hbounded.1 hfits.1 hleft
    refine ⟨hleft, ?_⟩
    rw [← hlength]
    refine ih hvalid (by rw [hlength]; exact hbounded.2) (by rw [hlength]; exact hfits.2) fun n => ?_
    obtain ⟨_, r', hrun, hsize⟩ := hsizes (n + 1)
    rw [List.take_succ_cons, run_cons hstep, Option.map_eq_some_iff] at hrun
    obtain ⟨⟨rest, _⟩, hrun, heq⟩ := hrun
    obtain ⟨-, rfl⟩ := Prod.mk.inj heq
    refine ⟨rest, _, hrun, ?_⟩
    rw [hsize, List.take_succ_cons, hlength]
    rfl

/-! ## The result -/

/-- The arrays refine lists in a run of calls, after each of them, if and only if none of the calls takes the last
element away. -/
theorem refines_iff {elementSize : UInt64} (hpos : 0 < elementSize) {calls : List Call}
    (hbounded : Call.All (Call.Bounded elementSize) 0 calls) (hfits : Call.All (Call.Fits elementSize) 0 calls) :
    (∀ n, Refines elementSize (calls.take n)) ↔ Call.All (fun n call => ¬call.Empties n) 0 calls := by
  constructor
  · intro hrefines
    refine not_empties_of_sizes hpos (valid_init elementSize) hbounded hfits fun n => ?_
    obtain ⟨given, arr, l, hrun, hlists, hcontents, -⟩ := hrefines n
    exact ⟨given, arr, hrun, by rw [size_of_contents hcontents, hlists.length]⟩
  · intro hleft n
    obtain ⟨given, arr, l, hrun, hlists, hvalid⟩ :=
      run_spec hpos (valid_init elementSize) hbounded.take hfits.take (hleft.take (k := n))
    exact ⟨given, arr, l, hrun, hlists, hvalid.contents, UInt64.le_iff_toNat_le.mpr hvalid.room⟩

/-- Two bytes are pushed, one is popped, and one is pushed again. -/
theorem refines_iff_byte : (∀ n, Refines 1 ([.push [some 1], .push [some 2], .pop, .push [some 3]].take n)) ↔
    Call.All (fun n call => ¬call.Empties n) 0 [.push [some 1], .push [some 2], .pop, .push [some 3]] :=
  refines_iff (by decide) ⟨rfl, rfl, trivial, rfl, trivial⟩ (by decide)

/-- An array of bytes keeps the only one that was pushed when it is popped. -/
theorem not_forall_refines : ¬∀ (elementSize : UInt64) (calls : List Call), 0 < elementSize →
    Call.All (Call.Bounded elementSize) 0 calls → Call.All (Call.Fits elementSize) 0 calls →
    Refines elementSize calls := by
  intro h
  obtain ⟨given, arr, l, hrun, hlists, hcontents, -⟩ :=
    h 1 [.push [some 7], .pop] (by decide) ⟨rfl, trivial, trivial⟩ (by decide)
  have hsize : ((init 1).run [.push [some 7], .pop]).map (fun p => p.2.size) = some 1 := by decide
  rw [hrun, Option.map_some, Option.some.injEq] at hsize
  have hlength := size_of_contents hcontents
  rw [hlists.length, hsize] at hlength
  exact absurd hlength (by decide)

end DynamicArray

end Chloride
