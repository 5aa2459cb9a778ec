import Chloride.Numerics.Signed64
import Chloride.Objects.DArray

/-!
# The methods of arrays

The operations on arrays that are not given a slice, of `src/runtime/objects/array/array.c`, on the
growing arrays of `DArray.lean`, and the operations on lists that they stand for. In a run whose steps
leave out what the methods do not check (`Safe`), every operation has the effect and the result of the one
on lists, and no slot outside the items is read or written (`arrays_refine_lists`).
-/

namespace Chloride

variable {α : Type}

/-- An operation that makes an array or works on the one at hand. -/
inductive ArrayOp (α : Type) where
  | create (argv : List α)
  | new (items : List α)
  | ofSize (size : Int64)
  | append (values : List α)
  | insert (pos : Int64) (values : List α)
  | pop (pos : Option Int64)
  | getitem (index : Int64)
  | setitem (index : Int64) (value : α)
  | delitem (index : Int64)

/-- What an operation gives, if it gives an item. -/
abbrev ArrayResult (α : Type) := Except ArErr (Option α)

def indexError : ArErr := ⟨"IndexError", "index out of range"⟩

/-- What a negative size should be answered with; the code has no such error. -/
def sizeError : ArErr := ⟨"ValueError", "size cannot be negative"⟩

def emptyError : ArErr := ⟨"IndexError", "pop from empty array"⟩

namespace ArrayMethods

/-- `create_array` -/
def createArray (argv : List α) : Option (DArray α) :=
  (DArray.init (UInt64.ofNat argv.length)).memcpy 0 (argv.map some)

/-- `ARRAY_TYPE___new__`, for an iterator that gives the items. -/
def new (items : List α) : Option (DArray α) :=
  items.foldlM (fun arr item => arr.insert arr.size item) (DArray.init 0)

/-- `ARRAY_TYPE_of_size` -/
def ofSize (null : α) (size : Int64) : Option (DArray α) :=
  Loop.up 0 size.toInt (fun i arr => arr.store i null) (DArray.init size.toUInt64)

/-- `ARRAY_TYPE_append` -/
def append (arr : DArray α) (values : List α) : Option (DArray α) :=
  if values.length = 0 then some arr
  else
    let start := arr.size
    (arr.resize (start + UInt64.ofNat values.length)).memcpy start.toNat (values.map some)

/-- `ARRAY_TYPE_insert` -/
def insert (arr : DArray α) (pos : Int64) (values : List α) : Option (DArray α) :=
  if pos > arr.size.toInt64 ∧ 0 < pos then some arr
  else if values.length = 0 then some arr
  else do
    let size := UInt64.ofNat values.length
    let moveSize := arr.size - pos.toUInt64
    let oldSize := arr.size
    let arr := arr.resize (oldSize + size)
    let arr ← arr.memmove (pos.toInt + size.toNat) pos.toInt moveSize.toNat
    arr.memcpy pos.toInt (values.map some)

/-- `ARRAY_TYPE_pop` -/
def pop (arr : DArray α) (pos : Option Int64) : Option (ArrayResult α × DArray α) := do
  let pos := pos.elim (-1) Int64.toUInt64
  match ← arr.pop pos with
  | (none, arr) => some (.error emptyError, arr)
  | (some out, arr) => some (.ok (some out), arr)

/-- The index that counts from the end, brought to one from the start. -/
def countIndex (arr : DArray α) (index : Int64) : Int64 :=
  if index < 0 then index + arr.size.toInt64 else index

/-- The branch of `ARRAY_TYPE___getitem__` for a number. -/
def getitem (arr : DArray α) (index : Int64) : Option (ArrayResult α × DArray α) :=
  let index := countIndex arr index
  if index ≥ arr.size.toInt64 ∨ index < 0 then some (.error indexError, arr)
  else do return (.ok (some (← arr.get index.toUInt64)), arr)

/-- The branch of `ARRAY_TYPE___setitem__` for a number. -/
def setitem (arr : DArray α) (index : Int64) (value : α) : Option (ArrayResult α × DArray α) :=
  let index := countIndex arr index
  if index ≥ arr.size.toInt64 ∨ index < 0 then some (.error indexError, arr)
  else do return (.ok (some value), ← arr.set index.toUInt64 value)

/-- The branch of `ARRAY_TYPE___delitem__` for a number. -/
def delitem (arr : DArray α) (index : Int64) : Option (ArrayResult α × DArray α) :=
  let index := countIndex arr index
  if index ≥ arr.size.toInt64 ∨ index < 0 then some (.error indexError, arr)
  else do
    let arr ← Loop.up index.toInt (arr.size.toInt64.toInt - 1)
      (fun i arr => do arr.set (UInt64.ofInt i) (← arr.get (UInt64.ofInt (i + 1)))) arr
    return (.ok none, { arr with size := arr.size - 1 })

/-- One operation. -/
def step (null : α) : ArrayOp α → DArray α → Option (ArrayResult α × DArray α)
  | .create argv, _ => do return (.ok none, ← createArray argv)
  | .new items, _ => do return (.ok none, ← new items)
  | .ofSize size, _ => do return (.ok none, ← ofSize null size)
  | .append values, arr => do return (.ok none, ← append arr values)
  | .insert pos values, arr => do return (.ok none, ← insert arr pos values)
  | .pop pos, arr => pop arr pos
  | .getitem index, arr => getitem arr index
  | .setitem index value, arr => setitem arr index value
  | .delitem index, arr => delitem arr index

/-- A sequence of operations: their results, and the array. -/
def run (null : α) : List (ArrayOp α) → DArray α → Option (List (ArrayResult α) × DArray α)
  | [], arr => some ([], arr)
  | op :: ops, arr => do
    let (result, arr) ← step null op arr
    let (results, arr) ← run null ops arr
    return (result :: results, arr)

end ArrayMethods

/-! ## The operations on lists -/

namespace ListOp

/-- The position of an index, which counts from the end if it is negative, if there is an item. -/
def position (l : List α) (index : Int64) : Option ℕ :=
  let i := if index.toInt < 0 then index.toInt + l.length else index.toInt
  if 0 ≤ i ∧ i < l.length then some i.toNat else none

/-- An operation on the item at an index. -/
def atIndex (l : List α) (index : Int64) (f : ℕ → Option α × List α) : ArrayResult α × List α :=
  match position l index with
  | none => (.error indexError, l)
  | some i => (.ok (f i).1, (f i).2)

/-- The place of the item that `pop` takes: the last one if no other is asked for. -/
def popped (l : List α) (pos : Option Int64) : ℕ :=
  match pos with
  | none => l.length - 1
  | some p => if 0 ≤ p.toInt ∧ p.toInt < l.length then p.toInt.toNat else l.length - 1

/-- The operation on lists that an array operation stands for. -/
def step (null : α) : ArrayOp α → List α → ArrayResult α × List α
  | .create argv, _ => (.ok none, argv)
  | .new items, _ => (.ok none, items)
  | .ofSize size, l =>
    if size.toInt < 0 then (.error sizeError, l) else (.ok none, List.replicate size.toInt.toNat null)
  | .append values, l => (.ok none, l ++ values)
  | .insert pos values, l =>
    (.ok none, if 0 ≤ pos.toInt ∧ pos.toInt ≤ l.length then
      l.take pos.toInt.toNat ++ values ++ l.drop pos.toInt.toNat else l)
  | .pop pos, l =>
    if l = [] then (.error emptyError, l)
    else (.ok l[popped l pos]?, l.eraseIdx (popped l pos))
  | .getitem index, l => atIndex l index fun i => (l[i]?, l)
  | .setitem index value, l => atIndex l index fun i => (some value, l.set i value)
  | .delitem index, l => atIndex l index fun i => (none, l.eraseIdx i)

/-- A sequence of operations: their results, and the list. -/
def run (null : α) : List (ArrayOp α) → List α → List (ArrayResult α) × List α
  | [], l => ([], l)
  | op :: ops, l =>
    let (result, l) := step null op l
    let (results, l) := run null ops l
    (result :: results, l)

/-- An operation that the methods do not check enough to leave out. -/
def Safe : ArrayOp α → List α → Prop
  | .create argv, _ => argv.length < 2^61 - 15
  | .new items, _ => items.length ≤ 2^61 - 2
  | .ofSize size, _ => 0 ≤ size.toInt ∧ size.toInt < 2^61 - 15
  | .append values, l => values = [] ∨ l.length + values.length < 2^60
  | .insert pos values, l => values = [] ∨ l.length < pos.toInt ∨
    (0 ≤ pos.toInt ∧ l.length + values.length < 2^60)
  | _, _ => True

/-- A sequence of operations each of which is safe where it is done. -/
def SafeRun (null : α) : List (ArrayOp α) → List α → Prop
  | [], _ => True
  | op :: ops, l => Safe op l ∧ SafeRun null ops (step null op l).2

end ListOp

/-- An array holds the items of a list, and no more than it has room for. -/
structure Represents (arr : DArray α) (l : List α) : Prop where
  size : arr.size.toNat = l.length
  block : arr.data.length = arr.capacity.toNat
  room : l.length ≤ arr.capacity.toNat
  items : ∀ j < l.length, arr.data[j]? = some l[j]?
  bounded : l.length < 2^61

namespace ArrayMethods

/-! ## Arrays that are made -/

/-- What is written behind the items of an array is behind the items of its list. -/
theorem represents_append {arr r : DArray α} {l values : List α}
    (hblock : r.data.length = r.capacity.toNat) (hsize : r.size.toNat = l.length + values.length)
    (hroom : l.length + values.length ≤ r.capacity.toNat) (hbounded : l.length + values.length < 2^61)
    (hitems : ∀ j < l.length, arr.data[j]? = some l[j]?)
    (hget : ∀ j, r.data[j]? = if l.length ≤ j ∧ j < l.length + values.length then
      (values.map some)[j - l.length]? else arr.data[j]?) : Represents r (l ++ values) := by
  refine ⟨by rw [hsize, List.length_append], hblock, by rwa [List.length_append], fun j hj => ?_,
    by rwa [List.length_append]⟩
  rw [List.length_append] at hj
  rw [hget]
  by_cases hlow : j < l.length
  · rw [if_neg (by omega), hitems j hlow, List.getElem?_append_left hlow]
  · rw [if_pos (by omega), List.getElem?_append_right (by omega), List.getElem?_map,
      List.getElem?_eq_getElem (by omega)]
    rfl

theorem createArray_spec {argv : List α} (h : argv.length < 2^61 - 15) :
    ∃ arr, createArray argv = some arr ∧ Represents arr argv := by
  have hsize : (UInt64.ofNat argv.length).toNat = argv.length :=
    UInt64.toNat_ofNat_of_lt' (by show argv.length < 2^64; omega)
  have hinit : (DArray.init (UInt64.ofNat argv.length) : DArray α).size.toNat = argv.length := hsize
  obtain ⟨hroom, hdata⟩ := DArray.init_spec (α := α) (n := UInt64.ofNat argv.length) (by omega)
  have hblock := congrArg List.length hdata
  rw [List.length_replicate] at hblock
  obtain ⟨r, hr, hsize', hcapacity, hlength, hget⟩ := DArray.memcpy_spec
    (DArray.init (UInt64.ofNat argv.length)) 0 (argv.map some)
    (by rw [List.length_map]; omega) (by rw [List.length_map]; omega)
  rw [List.length_map] at hget
  refine ⟨r, hr, ?_⟩
  have h : Represents r ([] ++ argv) := represents_append
    (by rw [hlength, hblock, hcapacity]) (by rw [hsize', hinit, List.length_nil, zero_add])
    (by rw [hcapacity, List.length_nil]; omega) (by rw [List.length_nil]; omega)
    (fun j hj => absurd hj (Nat.not_lt_zero j)) hget
  rwa [List.nil_append] at h

/-- An item that is added at the end. The capacities are those that doubling gives. -/
theorem insert_end_spec {arr : DArray α} {l : List α} (h : Represents arr l) {k : ℕ}
    (hcapacity : arr.capacity.toNat + 2 = 2^(k + 1)) (hlength : l.length < 2^61 - 2) (item : α) :
    ∃ arr', arr.insert arr.size item = some arr' ∧ Represents arr' (l ++ [item]) ∧
      ∃ k', arr'.capacity.toNat + 2 = 2^(k' + 1) := by
  have hsize := h.size
  have hroom := h.room
  have hone : (1 : UInt64).toNat = 1 := rfl
  have hsucc : (arr.size + 1).toNat = l.length + 1 := by
    rw [UInt64.toNat_add, hsize, hone]
    exact Nat.mod_eq_of_lt (by omega)
  -- With room for one more, whether it is there or made.
  obtain ⟨grown, hgrown, hsize', hblock, hroom', hkept, hpower⟩ : ∃ grown : DArray α,
      (if arr.size ≥ arr.capacity then arr.resize (arr.size + 1)
        else { arr with size := arr.size + 1 }) = grown ∧ grown.size = arr.size + 1 ∧
      grown.data.length = grown.capacity.toNat ∧ l.length + 1 ≤ grown.capacity.toNat ∧
      (∀ j < l.length, grown.data[j]? = arr.data[j]?) ∧
      ∃ k', grown.capacity.toNat + 2 = 2^(k' + 1) := by
    by_cases hfull : arr.size ≥ arr.capacity
    · have hfull' : arr.capacity.toNat ≤ arr.size.toNat := hfull
      have hk : k + 1 ≤ 60 := by
        by_contra hlarge
        have hpow : 2^61 ≤ 2^(k + 1) := Nat.pow_le_pow_right (by decide) (by omega)
        omega
      have hpow : 2^(k + 1) ≤ 2^60 := Nat.pow_le_pow_right (by decide) hk
      obtain ⟨hs, hc, hb, hkept⟩ := DArray.resize_spec h.block (n := arr.size + 1) (by omega) (by omega)
      refine ⟨_, if_pos hfull, hs, hb, by omega, fun j hj => ?_, k + 1, ?_⟩
      · exact hkept j (by rw [h.block]; omega) (by omega)
      · rw [hc, hsucc, pow_succ]
        omega
    · have hfull' : ¬arr.capacity.toNat ≤ arr.size.toNat := hfull
      exact ⟨_, if_neg hfull, rfl, h.block, by show _ ≤ arr.capacity.toNat; omega, fun _ _ => rfl, k,
        hcapacity⟩
  obtain ⟨r, hr, hrsize, hrcapacity, hrlength, hget⟩ := DArray.memcpy_spec grown l.length [some item]
    (by rw [hsize', hsucc, List.length_singleton]) (by rw [hblock, List.length_singleton]; omega)
  refine ⟨r, ?_, ?_, ?_⟩
  · have hpos : ¬arr.size > arr.size := UInt64.lt_irrefl _
    have hlast : ¬arr.size < grown.size - 1 := by
      rw [hsize', UInt64.add_sub_cancel]
      exact UInt64.lt_irrefl _
    unfold DArray.insert
    dsimp only
    rw [if_neg hpos, hgrown, if_neg hlast, Option.bind_eq_bind, Option.bind_some, hsize]
    exact hr
  · refine represents_append (by rw [hrlength, hblock, hrcapacity]) (by rw [hrsize, hsize', hsucc]; rfl)
      (by rw [hrcapacity]; exact hroom') (by rw [List.length_singleton]; omega) (fun j hj => ?_) hget
    rw [hkept j hj]
    exact h.items j hj
  · obtain ⟨k', hk'⟩ := hpower
    exact ⟨k', by rw [hrcapacity, hk']⟩

theorem foldlM_insert_spec (items : List α) : ∀ (arr : DArray α) (l : List α), Represents arr l →
    (∃ k, arr.capacity.toNat + 2 = 2^(k + 1)) → l.length + items.length ≤ 2^61 - 2 →
    ∃ arr', items.foldlM (fun arr item => arr.insert arr.size item) arr = some arr' ∧
      Represents arr' (l ++ items) := by
  induction items with
  | nil =>
    intro arr l h _ _
    exact ⟨arr, rfl, by rwa [List.append_nil]⟩
  | cons item items ih =>
    intro arr l h ⟨k, hk⟩ hlength
    rw [List.length_cons] at hlength
    obtain ⟨arr', hinsert, h', hpower⟩ := insert_end_spec h hk (by omega) item
    obtain ⟨arr'', hfold, h''⟩ := ih arr' (l ++ [item]) h' hpower (by
      rw [List.length_append, List.length_singleton]
      omega)
    refine ⟨arr'', ?_, by rwa [List.append_assoc] at h''⟩
    rw [List.foldlM_cons, hinsert]
    exact hfold

theorem represents_init_zero : Represents (DArray.init 0 : DArray α) [] :=
  ⟨rfl, rfl, Nat.zero_le _, fun j hj => absurd hj (Nat.not_lt_zero j), Nat.two_pow_pos 61⟩

theorem new_spec {items : List α} (h : items.length ≤ 2^61 - 2) :
    ∃ arr, new items = some arr ∧ Represents arr items :=
  foldlM_insert_spec items _ [] represents_init_zero ⟨0, rfl⟩ (by rwa [List.length_nil, zero_add])

/-! ## Arrays that grow -/

/-- Resized to a larger size, an array keeps its items. -/
theorem resize_represents {arr : DArray α} {l : List α} (h : Represents arr l) {n : ℕ} (hn : 0 < n)
    (hbound : l.length + n < 2^60) :
    ∃ r, arr.resize (arr.size + UInt64.ofNat n) = r ∧ r.size.toNat = l.length + n ∧
      r.data.length = r.capacity.toNat ∧ l.length + n ≤ r.capacity.toNat ∧
      ∀ j < l.length, r.data[j]? = arr.data[j]? := by
  have hsize := h.size
  have hroom := h.room
  have hcast : (UInt64.ofNat n).toNat = n := UInt64.toNat_ofNat_of_lt' (by show n < 2^64; omega)
  have hsum : (arr.size + UInt64.ofNat n).toNat = l.length + n := by
    rw [UInt64.toNat_add, hsize, hcast]
    exact Nat.mod_eq_of_lt (by omega)
  obtain ⟨hs, hc, hb, hkept⟩ := DArray.resize_spec h.block (n := arr.size + UInt64.ofNat n) (by omega)
    (by omega)
  refine ⟨_, rfl, by rw [hs, hsum], hb, by omega, fun j hj => hkept j ?_ (by omega)⟩
  rw [h.block]
  omega

theorem append_spec {arr : DArray α} {l values : List α} (h : Represents arr l)
    (hsafe : values = [] ∨ l.length + values.length < 2^60) :
    ∃ arr', append arr values = some arr' ∧ Represents arr' (l ++ values) := by
  unfold append
  by_cases hempty : values.length = 0
  · rw [if_pos hempty, List.length_eq_zero_iff.mp hempty, List.append_nil]
    exact ⟨arr, rfl, h⟩
  have hbound := hsafe.resolve_left fun h => hempty (List.length_eq_zero_iff.mpr h)
  obtain ⟨r, hr, hsize, hblock, hroom, hkept⟩ := resize_represents h (n := values.length) (by omega) hbound
  obtain ⟨r', hr', hsize', hcapacity, hlength, hget⟩ := DArray.memcpy_spec r l.length (values.map some)
    (by rw [List.length_map]; omega) (by rw [List.length_map]; omega)
  rw [List.length_map] at hget
  rw [if_neg hempty]
  dsimp only
  rw [hr, h.size]
  refine ⟨r', hr', represents_append (by rw [hlength, hblock, hcapacity]) (by rw [hsize', hsize])
    (by rw [hcapacity]; exact hroom) (by omega) (fun j hj => ?_) hget⟩
  rw [hkept j hj]
  exact h.items j hj

/-- The items behind the place of an insertion are moved, and the values are written between. -/
theorem insert_spec {arr : DArray α} {l values : List α} (h : Represents arr l) {pos : Int64}
    (hsafe : ListOp.Safe (.insert pos values) l) :
    ∃ arr', insert arr pos values = some arr' ∧
      Represents arr' (if 0 ≤ pos.toInt ∧ pos.toInt ≤ l.length then
        l.take pos.toInt.toNat ++ values ++ l.drop pos.toInt.toNat else l) := by
  have hsize := h.size
  have hbounded := h.bounded
  have hcast : arr.size.toInt64.toInt = l.length := by
    rw [Signed64.toInt_toInt64 (by omega), hsize]
  have hbehind : pos > arr.size.toInt64 ↔ l.length < pos.toInt := by
    rw [gt_iff_lt, Int64.lt_iff_toInt_lt, hcast]
  have hpositive : 0 < pos ↔ 0 < pos.toInt := Int64.lt_iff_toInt_lt
  unfold insert
  by_cases hout : pos > arr.size.toInt64 ∧ 0 < pos
  · have hlarge := hbehind.mp hout.1
    rw [if_pos hout, if_neg (by omega)]
    exact ⟨arr, rfl, h⟩
  rw [if_neg hout]
  have hle : pos.toInt ≤ l.length := by
    by_contra hlarge
    exact hout ⟨hbehind.mpr (by omega), hpositive.mpr (by omega)⟩
  by_cases hempty : values.length = 0
  · have hnil := List.length_eq_zero_iff.mp hempty
    have hsame : (if 0 ≤ pos.toInt ∧ pos.toInt ≤ l.length then
        l.take pos.toInt.toNat ++ values ++ l.drop pos.toInt.toNat else l) = l := by
      rw [hnil, List.append_nil, List.take_append_drop, ite_self]
    rw [if_pos hempty, hsame]
    exact ⟨arr, rfl, h⟩
  rw [if_neg hempty]
  have hsafe' : 0 ≤ pos.toInt ∧ l.length + values.length < 2^60 := by
    rcases hsafe with h | h | h
    · exact absurd (List.length_eq_zero_iff.mpr h) hempty
    · omega
    · exact h
  obtain ⟨p, hp⟩ := Int.eq_ofNat_of_zero_le hsafe'.1
  have hmove : (arr.size - pos.toUInt64).toNat = l.length - p := by
    have hpos : (pos.toUInt64.toNat : ℤ) = p := by
      rw [Signed64.toNat_toUInt64, if_neg, hp]
      rw [Int64.lt_iff_toInt_lt, Int64.toInt_zero]
      omega
    rw [UInt64.toNat_sub_of_le _ _ (by rw [UInt64.le_iff_toNat_le]; omega)]
    omega
  have hcount : (UInt64.ofNat values.length).toNat = values.length :=
    UInt64.toNat_ofNat_of_lt' (by show values.length < 2^64; omega)
  obtain ⟨r, hr, hrsize, hblock, hroom, hkept⟩ :=
    resize_represents h (n := values.length) (by omega) hsafe'.2
  obtain ⟨m, hm, hmsize, hmcapacity, hmlength, hmget⟩ := DArray.memmove_spec r (p + values.length) p
    (l.length - p) (by omega) (by omega) (by omega)
  obtain ⟨r', hr', hsize', hcapacity, hlength, hget⟩ := DArray.memcpy_spec m p (values.map some)
    (by rw [List.length_map, hmsize]; omega) (by rw [List.length_map]; omega)
  rw [List.length_map] at hget
  dsimp only
  rw [hr, hmove, hcount, hp, if_pos (by omega), Int.toNat_natCast]
  have hm' : r.memmove ((p : ℤ) + values.length) p (l.length - p) = some m := by
    rw [← hm, Nat.cast_add]
  rw [hm', Option.bind_eq_bind, Option.bind_some]
  have hlengths : (l.take p ++ values ++ l.drop p).length = l.length + values.length := by
    rw [List.length_append, List.length_append, List.length_take, List.length_drop]
    omega
  refine ⟨r', hr', by rw [hsize', hmsize, hrsize, hlengths],
    by rw [hlength, hmlength, hblock, hcapacity, hmcapacity],
    by rw [hlengths, hcapacity, hmcapacity]; exact hroom, fun j hj => ?_, by omega⟩
  rw [hlengths] at hj
  have htake : (l.take p).length = p := List.length_take_of_le (by omega)
  rw [hget, hmget, List.getElem?_append, List.getElem?_append, List.length_append, htake]
  rcases Nat.lt_or_ge j p with hlow | hhigh
  · rw [if_neg (by omega), if_neg (by omega), if_pos (by omega), if_pos hlow, hkept j (by omega),
      h.items j (by omega), List.getElem?_take_of_lt hlow]
  · rcases Nat.lt_or_ge j (p + values.length) with hmid | hend
    · rw [if_pos ⟨hhigh, hmid⟩, if_pos hmid, if_neg (by omega), List.getElem?_map,
        List.getElem?_eq_getElem (by omega)]
      rfl
    · rw [if_neg (by omega), if_pos (by omega), if_neg (by omega), hkept _ (by omega),
        h.items _ (by omega), List.getElem?_drop]

/-! ## Single slots -/

theorem store_spec {arr : DArray α} {i : ℕ} (hsize : i < arr.size.toNat)
    (hblock : arr.size.toNat ≤ arr.data.length) (a : α) :
    ∃ r, arr.store i a = some r ∧ r.size = arr.size ∧ r.capacity = arr.capacity ∧
      r.data.length = arr.data.length ∧
      ∀ j, r.data[j]? = if j = i then some (some a) else arr.data[j]? := by
  obtain ⟨r, hr, hsize', hcapacity, hlength, hget⟩ := DArray.memcpy_spec arr i [some a]
    (by rw [List.length_singleton]; omega) (by rw [List.length_singleton]; omega)
  refine ⟨r, hr, hsize', hcapacity, hlength, fun j => ?_⟩
  rw [hget, List.length_singleton]
  by_cases hj : j = i
  · rw [if_pos (by omega), if_pos hj, hj, Nat.sub_self]
    rfl
  · rw [if_neg (by omega), if_neg hj]

theorem load_spec {arr : DArray α} {l : List α} (h : Represents arr l) {i : ℕ} (hi : i < l.length) :
    arr.load i = l[i]? := by
  have hsize := h.size
  have hblock := h.block
  have hroom := h.room
  have hinside : arr.Inside i 1 := Or.inr ⟨by omega, by push_cast; omega, by push_cast; omega⟩
  unfold DArray.load
  rw [if_pos hinside, Int.toNat_natCast, h.items i hi]
  rfl

theorem ofSize_spec (null : α) {size : Int64} (hnonneg : 0 ≤ size.toInt)
    (hbound : size.toInt < 2^61 - 15) : ∃ arr, ofSize null size = some arr ∧
      Represents arr (List.replicate size.toInt.toNat null) := by
  have hcast : (size.toUInt64.toNat : ℤ) = size.toInt := by
    rw [Signed64.toNat_toUInt64, if_neg]
    rw [Int64.lt_iff_toInt_lt, Int64.toInt_zero]
    omega
  obtain ⟨hroom, hdata⟩ := DArray.init_spec (α := α) (n := size.toUInt64) (by omega)
  have hblock := congrArg List.length hdata
  rw [List.length_replicate] at hblock
  obtain ⟨arr, hloop, hsize, hcapacity, hlength, hitems⟩ := Loop.up_spec
    (P := fun i (arr : DArray α) => arr.size = size.toUInt64 ∧
      arr.capacity = (DArray.init size.toUInt64 : DArray α).capacity ∧
      arr.data.length = arr.capacity.toNat ∧
      ∀ j : ℕ, (j : ℤ) < i → arr.data[j]? = some (some null))
    (f := fun i (arr : DArray α) => arr.store i null) (s := DArray.init size.toUInt64) hnonneg
    ⟨rfl, rfl, hblock, fun j hj => absurd hj (by omega)⟩
    fun i hi hlt arr ⟨hsize, hcapacity, hlength, hitems⟩ => by
      obtain ⟨k, rfl⟩ := Int.eq_ofNat_of_zero_le hi
      obtain ⟨r, hr, hsize', hcapacity', hlength', hget⟩ := store_spec
        (show k < arr.size.toNat by rw [hsize]; omega) (by rw [hsize, hlength, hcapacity]; omega) null
      refine ⟨r, hr, hsize'.trans hsize, hcapacity'.trans hcapacity,
        by rw [hlength', hlength, hcapacity'], fun j hj => ?_⟩
      rw [hget]
      by_cases hjk : j = k
      · rw [if_pos hjk]
      · rw [if_neg hjk]
        exact hitems j (by omega)
  refine ⟨arr, hloop, ?_, hlength, ?_, fun j hj => ?_, ?_⟩
  · rw [hsize, List.length_replicate]
    omega
  · rw [List.length_replicate, hcapacity]
    omega
  · rw [List.length_replicate] at hj
    rw [hitems j (by omega), List.getElem?_replicate_of_lt hj]
  · rw [List.length_replicate]
    omega

/-- The last slot that counts is left out. -/
theorem represents_eraseIdx {arr r : DArray α} {l : List α} (h : Represents arr l) {i : ℕ}
    (hi : i < l.length) (hsize : r.size = arr.size) (hcapacity : r.capacity = arr.capacity)
    (hlength : r.data.length = arr.data.length)
    (hitems : ∀ j < l.length - 1, r.data[j]? = some (if j < i then l[j]? else l[j + 1]?)) :
    Represents { r with size := r.size - 1 } (l.eraseIdx i) := by
  have hone : (1 : UInt64).toNat = 1 := rfl
  have hroom := h.room
  have hbounded := h.bounded
  have herase : (l.eraseIdx i).length = l.length - 1 := List.length_eraseIdx_of_lt hi
  have hsize' := h.size
  refine ⟨?_, ?_, ?_, fun j hj => ?_, by omega⟩
  · show (r.size - 1).toNat = _
    rw [hsize, UInt64.toNat_sub_of_le _ _ (by rw [UInt64.le_iff_toNat_le]; omega)]
    omega
  · show r.data.length = r.capacity.toNat
    rw [hlength, h.block, hcapacity]
  · show _ ≤ r.capacity.toNat
    rw [hcapacity]
    omega
  · show r.data[j]? = _
    rw [hitems j (by omega), List.getElem?_eraseIdx]

/-- `darray_armem_pop` on an array that is not empty. -/
theorem darrayPop_spec {arr : DArray α} {l : List α} (h : Represents arr l) {pos : UInt64} {i : ℕ}
    (hi : i < l.length) (hpos : (if pos.toNat < l.length then pos.toNat else l.length - 1) = i) :
    ∃ arr', arr.pop pos = some (l[i]?, arr') ∧ Represents arr' (l.eraseIdx i) := by
  have hone : (1 : UInt64).toNat = 1 := rfl
  have hsize := h.size
  have hblock := h.block
  have hroom := h.room
  have hzero : arr.size ≠ 0 := fun hzero => by
    rw [hzero] at hsize
    exact absurd hsize (by show ¬0 = l.length; omega)
  have hlast : (arr.size - 1).toNat = l.length - 1 := by
    rw [UInt64.toNat_sub_of_le _ _ (by rw [UInt64.le_iff_toNat_le]; omega)]
    omega
  have hclip : (if pos ≥ arr.size then arr.size - 1 else pos).toNat = i := by
    have hge : pos ≥ arr.size ↔ l.length ≤ pos.toNat := by
      rw [ge_iff_le, UInt64.le_iff_toNat_le, hsize]
    by_cases hout : pos ≥ arr.size
    · have hlarge := hge.mp hout
      rw [if_pos hout, hlast, ← hpos, if_neg (by omega)]
    · have hsmall := mt hge.mpr hout
      rw [if_neg hout, ← hpos, if_pos (by omega)]
  unfold DArray.pop
  rw [if_neg hzero]
  dsimp only
  generalize hp : (if pos ≥ arr.size then arr.size - 1 else pos) = p at hclip
  have hload := load_spec h hi
  rw [hclip, hload, List.getElem?_eq_getElem hi, Option.bind_eq_bind, Option.bind_some]
  have hbefore : p < arr.size - 1 ↔ i < l.length - 1 := by
    rw [UInt64.lt_iff_toNat_lt, hlast, hclip]
  by_cases hmove : p < arr.size - 1
  · have hi' := hbefore.mp hmove
    have hcount : (arr.size - p - 1).toNat = l.length - i - 1 := by
      rw [UInt64.toNat_sub_of_le _ _ (by
          rw [UInt64.le_iff_toNat_le, UInt64.toNat_sub_of_le _ _ (by rw [UInt64.le_iff_toNat_le]; omega)]
          omega), UInt64.toNat_sub_of_le _ _ (by rw [UInt64.le_iff_toNat_le]; omega)]
      omega
    obtain ⟨r, hr, hsize', hcapacity, hlength, hget⟩ := DArray.memmove_spec arr i (i + 1)
      (l.length - i - 1) (by omega) (by omega) (by omega)
    have hr' : arr.memmove (i : ℤ) ((i : ℤ) + 1) (l.length - i - 1) = some r := by
      rw [← hr]
      push_cast
      rfl
    rw [if_pos hmove, hcount, hr', Option.bind_eq_bind, Option.bind_some]
    refine ⟨_, rfl, ?_⟩
    refine represents_eraseIdx h hi hsize' hcapacity hlength fun j hj => ?_
    rw [hget]
    by_cases hlow : j < i
    · rw [if_neg (by omega), if_pos hlow, h.items j (by omega)]
    · rw [if_pos (by omega), if_neg hlow, h.items _ (by omega)]
      congr 2
      omega
  · have hi' := mt hbefore.mpr hmove
    rw [if_neg hmove, Option.bind_eq_bind, Option.bind_some]
    refine ⟨_, rfl, represents_eraseIdx h hi rfl rfl rfl fun j hj => ?_⟩
    rw [if_pos (by omega), h.items j (by omega)]

theorem pop_spec {arr : DArray α} {l : List α} (h : Represents arr l) (null : α) (pos : Option Int64) :
    ∃ arr', pop arr pos = some ((ListOp.step null (.pop pos) l).1, arr') ∧
      Represents arr' (ListOp.step null (.pop pos) l).2 := by
  have hsize := h.size
  have hbounded := h.bounded
  unfold pop ListOp.step
  by_cases hempty : l = []
  · have hzero : arr.size = 0 := by
      rw [← UInt64.toNat_inj, hsize, hempty]
      rfl
    have hnone (p : UInt64) : arr.pop p = some (none, arr) := by
      unfold DArray.pop
      rw [if_pos hzero]
      rfl
    dsimp only
    rw [hnone, Option.bind_eq_bind, Option.bind_some, if_pos hempty]
    exact ⟨arr, rfl, h⟩
  have hpos := List.length_pos_of_ne_nil hempty
  have hplace : (if (pos.elim (-1) Int64.toUInt64).toNat < l.length then
      (pos.elim (-1) Int64.toUInt64).toNat else l.length - 1) = ListOp.popped l pos := by
    unfold ListOp.popped
    cases pos with
    | none =>
      have hmax : ((-1 : UInt64)).toNat = 2^64 - 1 := by decide
      show (if (-1 : UInt64).toNat < l.length then _ else _) = _
      rw [hmax, if_neg (by omega)]
    | some p =>
      have hcast := Signed64.toNat_toUInt64 p
      have hfits := Signed64.fits_toInt p
      unfold Signed64.Fits at hfits
      simp only [Int64.lt_iff_toInt_lt, Int64.toInt_zero] at hcast
      show (if p.toUInt64.toNat < l.length then p.toUInt64.toNat else l.length - 1) =
        if 0 ≤ p.toInt ∧ p.toInt < l.length then p.toInt.toNat else l.length - 1
      by_cases hneg : p.toInt < 0
      · rw [if_pos hneg] at hcast
        rw [if_neg (by omega), if_neg (by omega)]
      · rw [if_neg hneg] at hcast
        by_cases hin : p.toInt < l.length
        · rw [if_pos (by omega), if_pos ⟨by omega, hin⟩]
          omega
        · rw [if_neg (by omega), if_neg (by omega)]
  have hlt : ListOp.popped l pos < l.length := by
    unfold ListOp.popped
    split
    case h_1 => omega
    case h_2 => split <;> omega
  obtain ⟨arr', hpop, h'⟩ := darrayPop_spec h hlt hplace
  dsimp only
  rw [hpop, Option.bind_eq_bind, Option.bind_some, if_neg hempty, List.getElem?_eq_getElem hlt]
  exact ⟨arr', rfl, h'⟩

/-! ## Items at an index -/

/-- The test of an index, and the place that it gives. -/
theorem countIndex_spec {arr : DArray α} {l : List α} (h : Represents arr l) (index : Int64) :
    match ListOp.position l index with
    | none => countIndex arr index ≥ arr.size.toInt64 ∨ countIndex arr index < 0
    | some i => i < l.length ∧ (countIndex arr index).toInt = i ∧
      ¬(countIndex arr index ≥ arr.size.toInt64 ∨ countIndex arr index < 0) := by
  have hbounded := h.bounded
  have hfits := Signed64.fits_toInt index
  have hcast : arr.size.toInt64.toInt = l.length := by
    rw [Signed64.toInt_toInt64 (by rw [h.size]; omega), h.size]
  have hcount : (countIndex arr index).toInt =
      if index.toInt < 0 then index.toInt + l.length else index.toInt := by
    have hneg : index < 0 ↔ index.toInt < 0 := Int64.lt_iff_toInt_lt
    unfold countIndex
    unfold Signed64.Fits at hfits
    by_cases hlt : index < 0
    · have hlt' := hneg.mp hlt
      rw [if_pos hlt, if_pos hlt', Signed64.toInt_add, hcast]
      rw [hcast]
      unfold Signed64.Fits
      omega
    · rw [if_neg hlt, if_neg (mt hneg.mpr hlt)]
  have houtside : (countIndex arr index ≥ arr.size.toInt64 ∨ countIndex arr index < 0) ↔
      ¬(0 ≤ (countIndex arr index).toInt ∧ (countIndex arr index).toInt < l.length) := by
    rw [ge_iff_le, Int64.le_iff_toInt_le, Int64.lt_iff_toInt_lt, Int64.toInt_zero, hcast]
    omega
  unfold ListOp.position
  rw [← hcount]
  dsimp only
  by_cases hin : 0 ≤ (countIndex arr index).toInt ∧ (countIndex arr index).toInt < l.length
  · rw [if_pos hin]
    exact ⟨by omega, by omega, mt houtside.mp (not_not.mpr hin)⟩
  · rw [if_neg hin]
    exact houtside.mpr hin

/-- An operation that is tested for its index is the operation on the item that there is. -/
theorem atIndex_spec {arr : DArray α} {l : List α} (h : Represents arr l) {index : Int64}
    {r : Option (ArrayResult α × DArray α)} {f : ℕ → Option α × List α}
    (hr : ∀ i, i < l.length → (countIndex arr index).toInt = i →
      ∃ arr', r = some (.ok (f i).1, arr') ∧ Represents arr' (f i).2) :
    ∃ arr', (if countIndex arr index ≥ arr.size.toInt64 ∨ countIndex arr index < 0 then
        some (.error indexError, arr) else r) = some ((ListOp.atIndex l index f).1, arr') ∧
      Represents arr' (ListOp.atIndex l index f).2 := by
  have hposition := countIndex_spec h index
  unfold ListOp.atIndex
  cases hp : ListOp.position l index with
  | none =>
    rw [hp] at hposition
    rw [if_pos hposition]
    exact ⟨arr, rfl, h⟩
  | some i =>
    rw [hp] at hposition
    obtain ⟨hi, hcount, htest⟩ := hposition
    rw [if_neg htest]
    exact hr i hi hcount

theorem toUInt64_of_toInt {index : Int64} {i : ℕ} (h : index.toInt = i) : index.toUInt64.toNat = i := by
  have hcast := Signed64.toNat_toUInt64 index
  rw [if_neg] at hcast
  · omega
  · rw [Int64.lt_iff_toInt_lt, Int64.toInt_zero]
    omega

theorem get_spec {arr : DArray α} {l : List α} (h : Represents arr l) {index : UInt64} {i : ℕ}
    (hindex : index.toNat = i) (hi : i < l.length) : arr.get index = l[i]? := by
  have hin : ¬index ≥ arr.size := by
    rw [ge_iff_le, UInt64.le_iff_toNat_le, h.size]
    omega
  unfold DArray.get
  rw [if_neg hin, hindex, load_spec h hi]

theorem set_spec {arr : DArray α} {index : UInt64} {i : ℕ} (hindex : index.toNat = i)
    (hi : i < arr.size.toNat) (hblock : arr.size.toNat ≤ arr.data.length) (a : α) :
    ∃ r, arr.set index a = some r ∧ r.size = arr.size ∧ r.capacity = arr.capacity ∧
      r.data.length = arr.data.length ∧
      ∀ j, r.data[j]? = if j = i then some (some a) else arr.data[j]? := by
  have hin : ¬index ≥ arr.size := by
    rw [ge_iff_le, UInt64.le_iff_toNat_le]
    omega
  unfold DArray.set
  rw [if_neg hin, hindex]
  exact store_spec hi hblock a

theorem getitem_spec {arr : DArray α} {l : List α} (h : Represents arr l) (null : α) (index : Int64) :
    ∃ arr', getitem arr index = some ((ListOp.step null (.getitem index) l).1, arr') ∧
      Represents arr' (ListOp.step null (.getitem index) l).2 := by
  refine atIndex_spec h (f := fun i => (l[i]?, l)) fun i hi hcount => ⟨arr, ?_, h⟩
  rw [get_spec h (toUInt64_of_toInt hcount) hi, List.getElem?_eq_getElem hi]
  rfl

/-- An item that is set. -/
theorem represents_set {arr : DArray α} {l : List α} (h : Represents arr l) {index : UInt64} {i : ℕ}
    (hindex : index.toNat = i) (hi : i < l.length) (value : α) :
    ∃ r, arr.set index value = some r ∧ Represents r (l.set i value) := by
  have hroom := h.room
  obtain ⟨r, hr, hsize, hcapacity, hlength, hget⟩ := set_spec hindex
    (by rw [h.size]; exact hi) (by rw [h.size, h.block]; exact hroom) value
  refine ⟨r, hr, ?_, by rw [hlength, hcapacity, h.block], ?_, fun j hj => ?_, ?_⟩
  · rw [hsize, h.size, List.length_set]
  · rw [List.length_set, hcapacity]
    exact hroom
  · rw [List.length_set] at hj
    rw [hget]
    by_cases hji : j = i
    · rw [if_pos hji, hji, List.getElem?_set_self hi]
    · rw [if_neg hji, List.getElem?_set_ne (Ne.symm hji), h.items j hj]
  · rw [List.length_set]
    exact h.bounded

theorem setitem_spec {arr : DArray α} {l : List α} (h : Represents arr l) (null : α) (index : Int64)
    (value : α) :
    ∃ arr', setitem arr index value = some ((ListOp.step null (.setitem index value) l).1, arr') ∧
      Represents arr' (ListOp.step null (.setitem index value) l).2 := by
  refine atIndex_spec h (f := fun i => (some value, l.set i value)) fun i hi hcount => ?_
  obtain ⟨r, hr, hrepresents⟩ := represents_set h (toUInt64_of_toInt hcount) hi value
  rw [hr]
  exact ⟨r, rfl, hrepresents⟩

theorem toNat_ofInt {n : ℕ} (h : n < 2^64) : (UInt64.ofInt n).toNat = n := by
  have hmod : ((n : ℤ) % 2^64).toNat = n := by omega
  show (UInt64.ofNat ((n : ℤ) % 2^64).toNat).toNat = n
  rw [hmod]
  exact UInt64.toNat_ofNat_of_lt' h

/-- The items behind the one that is deleted are moved by a loop. -/
theorem delitem_spec {arr : DArray α} {l : List α} (h : Represents arr l) (null : α) (index : Int64) :
    ∃ arr', delitem arr index = some ((ListOp.step null (.delitem index) l).1, arr') ∧
      Represents arr' (ListOp.step null (.delitem index) l).2 := by
  refine atIndex_spec h (f := fun i => (none, l.eraseIdx i)) fun i hi hcount => ?_
  have hsize := h.size
  have hblock := h.block
  have hroom := h.room
  have hbounded := h.bounded
  have hcast : arr.size.toInt64.toInt = l.length := by
    rw [Signed64.toInt_toInt64 (by omega), hsize]
  obtain ⟨r, hloop, hrsize, hcapacity, hlength, hitems⟩ := Loop.up_spec
    (P := fun k (r : DArray α) => r.size = arr.size ∧ r.capacity = arr.capacity ∧
      r.data.length = arr.data.length ∧
      ∀ j < l.length, r.data[j]? = some (if (i : ℤ) ≤ j ∧ (j : ℤ) < k then l[j + 1]? else l[j]?))
    (f := fun k (r : DArray α) => do r.set (UInt64.ofInt k) (← r.get (UInt64.ofInt (k + 1))))
    (s := arr) (show (i : ℤ) ≤ l.length - 1 by omega)
    ⟨rfl, rfl, rfl, fun j hj => by rw [if_neg (by omega), h.items j hj]⟩
    fun k hk hlt r ⟨hrsize, hcapacity, hlength, hitems⟩ => by
      obtain ⟨m, rfl⟩ := Int.eq_ofNat_of_zero_le (show 0 ≤ k by omega)
      have hm := toNat_ofInt (n := m) (by omega)
      have hm' : (UInt64.ofInt (m + 1)).toNat = m + 1 := toNat_ofInt (n := m + 1) (by omega)
      have hget : r.get (UInt64.ofInt (m + 1)) = l[m + 1]? := by
        have hin : ¬UInt64.ofInt (m + 1) ≥ r.size := by
          rw [ge_iff_le, UInt64.le_iff_toNat_le, hrsize]
          omega
        have hinside : r.Inside ((m + 1 : ℕ) : ℤ) 1 := Or.inr ⟨by omega, by rw [hrsize]; push_cast; omega,
          by rw [hlength]; push_cast; omega⟩
        unfold DArray.get DArray.load
        rw [if_neg hin, hm', if_pos hinside, Int.toNat_natCast, hitems _ (by omega), if_neg (by omega)]
        rfl
      obtain ⟨a, ha⟩ : ∃ a, l[m + 1]? = some a := ⟨_, List.getElem?_eq_getElem (by omega)⟩
      obtain ⟨r', hr', hsize', hcapacity', hlength', hget'⟩ := set_spec hm
        (show m < r.size.toNat by rw [hrsize]; omega) (by rw [hrsize, hlength]; omega) a
      refine ⟨r', ?_, hsize'.trans hrsize, hcapacity'.trans hcapacity, hlength'.trans hlength,
        fun j hj => ?_⟩
      · rw [hget, ha, Option.bind_eq_bind, Option.bind_some, hr']
      · rw [hget']
        by_cases hjm : j = m
        · rw [if_pos hjm, if_pos (by omega), hjm, ha]
        · rw [if_neg hjm, hitems j hj]
          by_cases hmoved : (i : ℤ) ≤ j ∧ (j : ℤ) < m
          · rw [if_pos hmoved, if_pos (by omega)]
          · rw [if_neg hmoved, if_neg (by omega)]
  rw [hcount, hcast, hloop]
  refine ⟨_, rfl, represents_eraseIdx h hi hrsize hcapacity hlength fun j hj => ?_⟩
  rw [hitems j (by omega)]
  by_cases hlow : j < i
  · rw [if_neg (by omega), if_pos hlow]
  · rw [if_pos (by omega), if_neg hlow]

/-! ## Runs -/

/-- A safe operation has the effect and the result of the operation on lists. -/
theorem step_spec {arr : DArray α} {l : List α} (h : Represents arr l) (null : α) {op : ArrayOp α}
    (hsafe : ListOp.Safe op l) :
    ∃ arr', step null op arr = some ((ListOp.step null op l).1, arr') ∧
      Represents arr' (ListOp.step null op l).2 := by
  cases op with
  | create argv =>
    obtain ⟨arr', harr', h'⟩ := createArray_spec hsafe
    exact ⟨arr', by rw [step, harr']; rfl, h'⟩
  | new items =>
    obtain ⟨arr', harr', h'⟩ := new_spec hsafe
    exact ⟨arr', by rw [step, harr']; rfl, h'⟩
  | ofSize size =>
    obtain ⟨arr', harr', h'⟩ := ofSize_spec null hsafe.1 hsafe.2
    have hlist : ListOp.step null (.ofSize size) l = (.ok none, List.replicate size.toInt.toNat null) :=
      if_neg (not_lt.mpr hsafe.1)
    rw [hlist]
    exact ⟨arr', by rw [step, harr']; rfl, h'⟩
  | append values =>
    obtain ⟨arr', harr', h'⟩ := append_spec h hsafe
    exact ⟨arr', by rw [step, harr']; rfl, h'⟩
  | insert pos values =>
    obtain ⟨arr', harr', h'⟩ := insert_spec h hsafe
    exact ⟨arr', by rw [step, harr']; rfl, h'⟩
  | pop pos => exact pop_spec h null pos
  | getitem index => exact getitem_spec h null index
  | setitem index value => exact setitem_spec h null index value
  | delitem index => exact delitem_spec h null index

theorem run_spec (null : α) (ops : List (ArrayOp α)) : ∀ (arr : DArray α) (l : List α),
    Represents arr l → ListOp.SafeRun null ops l →
    ∃ arr', run null ops arr = some ((ListOp.run null ops l).1, arr') ∧
      Represents arr' (ListOp.run null ops l).2 := by
  induction ops with
  | nil =>
    intro arr l h _
    exact ⟨arr, rfl, h⟩
  | cons op ops ih =>
    intro arr l h hsafe
    obtain ⟨arr', hstep, h'⟩ := step_spec h null hsafe.1
    obtain ⟨arr'', hrun, h''⟩ := ih arr' _ h' hsafe.2
    refine ⟨arr'', ?_, h''⟩
    unfold run
    rw [hstep, Option.bind_eq_bind, Option.bind_some]
    dsimp only
    rw [hrun]
    rfl

end ArrayMethods

namespace ListOp

/-- An operation that raises an error leaves the list as it is. -/
theorem step_error (null : α) (op : ArrayOp α) (l : List α) {e : ArErr}
    (h : (step null op l).1 = .error e) : (step null op l).2 = l := by
  have hindex (index : Int64) (f : ℕ → Option α × List α) (h : (atIndex l index f).1 = .error e) :
      (atIndex l index f).2 = l := by
    unfold atIndex at h ⊢
    cases hp : position l index with
    | none => rfl
    | some i =>
      rw [hp] at h
      cases h
  cases op with
  | create argv => cases h
  | new items => cases h
  | ofSize size =>
    by_cases hneg : size.toInt < 0
    · exact congrArg Prod.snd (if_pos hneg)
    · have hstep : step null (.ofSize size) l = (.ok none, List.replicate size.toInt.toNat null) :=
        if_neg hneg
      rw [hstep] at h
      cases h
  | append values => cases h
  | insert pos values => cases h
  | pop pos =>
    by_cases hempty : l = []
    · exact congrArg Prod.snd (if_pos hempty)
    · have hstep : step null (.pop pos) l = (.ok l[popped l pos]?, l.eraseIdx (popped l pos)) :=
        if_neg hempty
      rw [hstep] at h
      cases h
  | getitem index => exact hindex _ _ h
  | setitem index value => exact hindex _ _ h
  | delitem index => exact hindex _ _ h

/-- What comes first in a safe run is safe. -/
theorem SafeRun.take (null : α) (n : ℕ) : ∀ (ops : List (ArrayOp α)) (l : List α), SafeRun null ops l →
    SafeRun null (ops.take n) l := by
  induction n with
  | zero => exact fun _ _ _ => trivial
  | succ n ih =>
    intro ops l h
    cases ops with
    | nil => trivial
    | cons op ops => exact ⟨h.1, ih ops _ h.2⟩

end ListOp

/-- Arrays refine lists: after every step of a safe run the results are those of the operations on lists,
the array holds the items of the list within its capacity, and the accesses were to items only. An
operation that raises an error leaves the array as it was. -/
theorem arrays_refine_lists (null : α) (ops : {ops : List (ArrayOp α) // ListOp.SafeRun null ops []})
    (n : ℕ) :
    (∃ arr, ArrayMethods.run null (ops.1.take n) (DArray.init 0) =
        some ((ListOp.run null (ops.1.take n) []).1, arr) ∧
      Represents arr (ListOp.run null (ops.1.take n) []).2) ∧
    ∀ (op : ArrayOp α) (l : List α) (e : ArErr), (ListOp.step null op l).1 = .error e →
      (ListOp.step null op l).2 = l :=
  ⟨ArrayMethods.run_spec null _ _ _ ArrayMethods.represents_init_zero (ops.2.take null n),
    fun op l _ => ListOp.step_error null op l⟩

/-- `[x].insert(-1, y)` moves items from and to a place before the first one. -/
theorem not_forall_refine : ¬∀ (ops : List (ArrayOp ℕ)), ∃ arr,
    ArrayMethods.run 0 ops (DArray.init 0) = some ((ListOp.run 0 ops []).1, arr) ∧
      Represents arr (ListOp.run 0 ops []).2 := by
  intro h
  obtain ⟨arr, hrun, -⟩ := h [.create [1], .insert (-1) [2]]
  have hnone : ArrayMethods.run 0 [.create [1], .insert (-1) [2]] (DArray.init 0) = none := by
    decide
  rw [hnone] at hrun
  cases hrun

end Chloride
