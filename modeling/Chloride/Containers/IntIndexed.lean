import Mathlib

/-!
# Lists indexed by integers

Reading and writing a list at an integer, which fail outside the list, as an array is read and written at
a signed index that is checked.
-/

namespace IntIndexed

variable {α : Type*}

def get (l : List α) (i : ℤ) : Option α := if 0 ≤ i then l[i.toNat]? else none

def set (l : List α) (i : ℤ) (a : α) : Option (List α) :=
  if 0 ≤ i ∧ i < l.length then some (l.set i.toNat a) else none

theorem get_natCast (l : List α) (n : ℕ) : get l n = l[n]? := by
  unfold get
  rw [if_pos (Int.natCast_nonneg n), Int.toNat_natCast]

/-- Lists with the same items are equal. -/
theorem ext {l r : List α} (h : ∀ i, get l i = get r i) : l = r := by
  apply List.ext_getElem?
  intro n
  rw [← get_natCast, ← get_natCast, h]

theorem exists_set {l : List α} {i : ℤ} (h : 0 ≤ i) (hlt : i < l.length) (a : α) :
    ∃ r, set l i a = some r ∧ r.length = l.length ∧
      ∀ j, get r j = if j = i then some a else get l j := by
  refine ⟨l.set i.toNat a, if_pos ⟨h, hlt⟩, List.length_set, fun j => ?_⟩
  unfold get
  by_cases hj : j = i
  · rw [if_pos hj, hj, if_pos h, List.getElem?_set_self (by omega)]
  · rw [if_neg hj]
    split
    case isTrue hnonneg => rw [List.getElem?_set_ne (by omega)]
    case isFalse => rfl

end IntIndexed
