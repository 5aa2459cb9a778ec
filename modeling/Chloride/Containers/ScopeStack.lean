import Mathlib

/-!
# Stacks of partial maps

The variables of nested scopes, as a stack of partial maps from names to values with the innermost
first. A name resolves to its innermost binding; an update or a removal goes to the innermost map
that binds the name, and answers `none` when no map does.
-/

/-- A stack of scopes, the innermost first. -/
abbrev ScopeStack (κ υ : Type*) := List (κ → Option υ)

namespace ScopeStack

variable {κ υ : Type*}

/-- The innermost binding of `k`. -/
def resolve (k : κ) : ScopeStack κ υ → Option υ
  | [] => none
  | m :: ms => (m k).or (resolve k ms)

variable [DecidableEq κ]

/-- Give `k` another value, or none, in the innermost map that binds it. -/
def modify (k : κ) (v : Option υ) : ScopeStack κ υ → Option (ScopeStack κ υ)
  | [] => none
  | m :: ms => if (m k).isSome then some (Function.update m k v :: ms)
      else (modify k v ms).map (m :: ·)

/-- What a name resolves to after it was given a value. -/
theorem resolve_modify_self {k : κ} {v : υ} {ms ms' : ScopeStack κ υ}
    (h : modify k (some v) ms = some ms') : resolve k ms' = some v := by
  induction ms generalizing ms' with
  | nil => cases h
  | cons m ms ih =>
    rw [modify] at h
    split at h
    case isTrue =>
      obtain rfl := Option.some.inj h
      rw [resolve, Function.update_self, Option.some_or]
    case isFalse hnone =>
      obtain ⟨ms₁, hms₁, rfl⟩ := Option.map_eq_some_iff.mp h
      rw [Option.not_isSome_iff_eq_none] at hnone
      rw [resolve, hnone, Option.none_or, ih hms₁]

/-- A change at one name leaves what the others resolve to. -/
theorem resolve_modify_of_ne {k j : κ} (hne : j ≠ k) {v : Option υ} {ms ms' : ScopeStack κ υ}
    (h : modify k v ms = some ms') : resolve j ms' = resolve j ms := by
  induction ms generalizing ms' with
  | nil => cases h
  | cons m ms ih =>
    rw [modify] at h
    split at h
    case isTrue =>
      obtain rfl := Option.some.inj h
      rw [resolve, resolve, Function.update_of_ne hne]
    case isFalse =>
      obtain ⟨ms₁, hms₁, rfl⟩ := Option.map_eq_some_iff.mp h
      rw [resolve, resolve, ih hms₁]

end ScopeStack
