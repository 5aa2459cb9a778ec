import Chloride.Numerics.Signed64
import Chloride.Objects.Number

/-!
# Slices

`slice_indices` of `src/runtime/objects/slice/slice.c`, which turns the three fields of a slice and a
length into the first index, the index to stop at and the step, and the number of indices that the
sequence types compute from these three. The arithmetic is that of `int64_t`.
-/

namespace Chloride

/-- `SliceIndices`. -/
structure SliceIndices where
  start : Int64
  stop : Int64
  step : Int64
  deriving DecidableEq

/-- A bound of a slice brought into `[low, high]`, counted from the end when it is negative. -/
def clampIndex (length low high : Int64) (index : Int64) : Option Int64 := do
  let index ← if index < 0 then Signed64.add index length else some index
  return if index < low then low else if high < index then high else index

/-- `slice_indices`; `none` for a field that is null. -/
def sliceIndices (start stop step : Option Int64) (length : Int64) :
    Option (Except ArErr SliceIndices) := do
  let step := step.getD 1
  if step = 0 then return .error ⟨"RuntimeError", "slice step cannot be zero"⟩
  else if step > 0 then
    let start ← start.elim (some 0) (clampIndex length 0 length)
    let stop ← stop.elim (some length) (clampIndex length 0 length)
    return .ok { start, stop, step }
  else
    let last ← Signed64.sub length 1
    let start ← start.elim (some last) (clampIndex length (-1) last)
    let stop ← stop.elim (some (-1)) (clampIndex length (-1) last)
    return .ok { start, stop, step }

/-- The number of indices, as the `__getitem__` methods compute it. -/
def SliceIndices.size (indices : SliceIndices) : Option Int64 := do
  if indices.step > 0 ∧ indices.stop > indices.start then
    let n ← Signed64.sub indices.stop indices.start
    let n ← Signed64.add n indices.step
    let n ← Signed64.sub n 1
    Signed64.quot n indices.step
  else if indices.step < 0 ∧ indices.stop < indices.start then
    let n ← Signed64.sub indices.start indices.stop
    let n ← Signed64.sub n indices.step
    let n ← Signed64.sub n 1
    let d ← Signed64.neg indices.step
    Signed64.quot n d
  else
    return 0

/-- `indices.start + i * indices.step`. -/
def SliceIndices.index (indices : SliceIndices) (i : ℕ) : Option Int64 := do
  Signed64.add indices.start (← Signed64.mul (Int64.ofNat i) indices.step)

/-- The item at an index, which is undefined outside. -/
def itemAt {α : Type} (data : List α) (index : Int64) : Option α :=
  if index < 0 then none else data[index.toInt.toNat]?

/-- The items at the indices of a slice: the copying loop of the `__getitem__` methods. It is undefined
where the number of indices is, or where an index is outside. -/
def SliceIndices.select {α : Type} (indices : SliceIndices) (data : List α) : Option (List α) := do
  let size ← indices.size
  (List.range size.toInt.toNat).mapM fun i => do itemAt data (← indices.index i)

/-- The branch of a `__getitem__` method for a slice. -/
def getSlice {α : Type} (data : List α) (start stop step : Option Int64) :
    Option (Except ArErr (List α)) := do
  match ← sliceIndices start stop step (Int64.ofNat data.length) with
  | .error e => return .error e
  | .ok indices => return .ok (← indices.select data)

/-- The branch of `ARRAY_TYPE___getitem__`. -/
def arrayGetSlice {α : Type} : List α → Option Int64 → Option Int64 → Option Int64 →
    Option (Except ArErr (List α)) := getSlice

/-- The branch of `ARGON_TUPLE_TYPE___getitem__`. -/
def tupleGetSlice {α : Type} : List α → Option Int64 → Option Int64 → Option Int64 →
    Option (Except ArErr (List α)) := getSlice

/-- The branch of `ARGON_STRING_TYPE___getitem__`. -/
def stringGetSlice : List UInt8 → Option Int64 → Option Int64 → Option Int64 →
    Option (Except ArErr (List UInt8)) := getSlice

/-- The branch of `ARGON_BUFFER_TYPE___getitem__`. -/
def bufferGetSlice : List UInt8 → Option Int64 → Option Int64 → Option Int64 →
    Option (Except ArErr (List UInt8)) := getSlice

end Chloride
