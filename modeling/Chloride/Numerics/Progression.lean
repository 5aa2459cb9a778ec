import Mathlib

/-!
# Arithmetic progressions up to a bound

The terms `start`, `start + step`, `start + 2 * step`, ... that are before a bound in the direction of
the step, or at it if the progression is inclusive. `lt_count_iff` says that their number is the quotient
of the length by the step, rounded.
-/

namespace Progression

/-- A term is before the bound in the direction of the step, or at it if the progression is inclusive. -/
def Before {K : Type*} [Zero K] [LT K] [LE K] (inclusive : Bool) (step term bound : K) : Prop :=
  (0 < step ∧ (term < bound ∨ inclusive = true ∧ term = bound)) ∨
  (step < 0 ∧ (bound < term ∨ inclusive = true ∧ term = bound))

section

variable {K : Type*} [Field K] [LinearOrder K] [IsStrictOrderedRing K] [FloorRing K]

/-- The number of terms. -/
def count (inclusive : Bool) (start bound step : K) : ℕ :=
  if inclusive then (⌊(bound - start) / step⌋ + 1).toNat else ⌈(bound - start) / step⌉₊

/-- A progression has a term at each index below its number of terms. -/
theorem lt_count_iff (inclusive : Bool) (start bound : K) {step : K} (hstep : step ≠ 0) (k : ℕ) :
    k < count inclusive start bound step ↔ Before inclusive step (start + k * step) bound := by
  unfold count Before
  cases inclusive with
  | false =>
    rw [if_neg Bool.false_ne_true, Nat.lt_ceil]
    simp only [Bool.false_eq_true, false_and, or_false]
    rcases lt_or_gt_of_ne hstep with hneg | hpos
    · rw [lt_div_iff_of_neg hneg]
      simp only [not_lt.mpr hneg.le, hneg, false_and, true_and, false_or]
      exact ⟨fun h => by linarith, fun h => by linarith⟩
    · rw [lt_div_iff₀ hpos]
      simp only [not_lt.mpr hpos.le, hpos, false_and, true_and, or_false]
      exact ⟨fun h => by linarith, fun h => by linarith⟩
  | true =>
    have hfloor : k < (⌊(bound - start) / step⌋ + 1).toNat ↔ (k : K) ≤ (bound - start) / step := by
      have hcast : ((k : ℤ) : K) = k := Int.cast_natCast k
      rw [← hcast, ← Int.le_floor]
      omega
    rw [if_pos rfl, hfloor]
    simp only [true_and]
    rcases lt_or_gt_of_ne hstep with hneg | hpos
    · rw [le_div_iff_of_neg hneg]
      simp only [not_lt.mpr hneg.le, hneg, false_and, true_and, false_or, ← le_iff_lt_or_eq]
      rw [eq_comm, ← le_iff_lt_or_eq]
      exact ⟨fun h => by linarith, fun h => by linarith⟩
    · rw [le_div_iff₀ hpos]
      simp only [not_lt.mpr hpos.le, hpos, false_and, true_and, or_false, ← le_iff_lt_or_eq]
      exact ⟨fun h => by linarith, fun h => by linarith⟩

/-- No other number bounds the indices of the terms. -/
theorem eq_count {inclusive : Bool} {start bound step : K} (hstep : step ≠ 0) {n : ℕ}
    (h : ∀ k : ℕ, k < n ↔ Before inclusive step (start + k * step) bound) :
    n = count inclusive start bound step := by
  apply le_antisymm
  · by_contra hlt
    have hn := (h _).mp (not_le.mp hlt)
    rw [← lt_count_iff inclusive start bound hstep] at hn
    exact lt_irrefl _ hn
  · by_contra hlt
    have hn := (lt_count_iff inclusive start bound hstep n).mp (not_le.mp hlt)
    rw [← h] at hn
    exact lt_irrefl _ hn

end

/-- Integers are before a bound if they are as numbers of a field. -/
theorem before_intCast (inclusive : Bool) (step term bound : ℤ) :
    Before inclusive (step : ℚ) (term : ℚ) (bound : ℚ) ↔ Before inclusive step term bound := by
  unfold Before
  norm_cast

end Progression
