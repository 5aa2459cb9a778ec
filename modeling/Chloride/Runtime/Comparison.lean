import Chloride.Runtime.Arithmetic

/-!
# Comparison of numbers

The six comparisons of numbers, as the handlers `DO_EQUAL` to `DO_GREATER_THAN_EQUAL` of
`src/runtime/runtime.c` and as methods of `src/runtime/objects/number/number.c`. Each of the twelve
has the same four cases: two 64-bit integers are compared as such, two rationals with `mpq_cmp`, and
an integer with a rational with `mpq_cmp_ui`, which takes the integer as an unsigned number.

All twelve are thus views of one ordering (`reading`), and `reading_eq_compare_iff` tells when it is
the ordering of the rational numbers: unless a negative integer is compared with a rational between
it and the unsigned number it is taken for.
-/

namespace Chloride

/-- `mpq_cmp(a, b)`. -/
def mpqCmp (a b : Mpq) : Ordering := compare (a.num * b.den) (b.num * a.den)

/-- `mpq_cmp_ui(q, n, 1)`, whose second argument is an unsigned number. -/
def mpqCmpUi (q : Mpq) (n : UInt64) : Ordering := compare q.num (n.toNat * q.den)

/-- The code of a comparison: how it compares two integers, and its tests of the orderings of two
rationals, of a rational on the right with an integer, and of one on the left. -/
def comparison (onInt64 : Int64 → Int64 → Bool) (onMpq onRight onLeft : Ordering → Bool) :
    Number → Number → Bool
  | .i64 a, .i64 b => onInt64 a b
  | .mpq a, .mpq b => onMpq (mpqCmp a b)
  | .i64 a, .mpq b => onRight (mpqCmpUi b a.toUInt64)
  | .mpq a, .i64 b => onLeft (mpqCmpUi a b.toUInt64)

/-- `DO_EQUAL` on numbers. -/
def doEqual : Number → Number → Bool :=
  comparison (fun a b => a = b) Ordering.isEq Ordering.isEq Ordering.isEq

/-- `DO_NOT_EQUAL` on numbers. -/
def doNotEqual : Number → Number → Bool :=
  comparison (fun a b => a ≠ b) Ordering.isNe Ordering.isNe Ordering.isNe

/-- `DO_LESS_THAN` on numbers. -/
def doLessThan : Number → Number → Bool :=
  comparison (fun a b => a < b) Ordering.isLT Ordering.isGT Ordering.isLT

/-- `DO_GREATER_THAN` on numbers. -/
def doGreaterThan : Number → Number → Bool :=
  comparison (fun a b => a > b) Ordering.isGT Ordering.isLT Ordering.isGT

/-- `DO_LESS_THAN_EQUAL` on numbers. -/
def doLessThanEqual : Number → Number → Bool :=
  comparison (fun a b => a ≤ b) Ordering.isLE Ordering.isGE Ordering.isLE

/-- `DO_GREATER_THAN_EQUAL` on numbers. -/
def doGreaterThanEqual : Number → Number → Bool :=
  comparison (fun a b => a ≥ b) Ordering.isGE Ordering.isLE Ordering.isGE

/-- `ARGON_NUMBER_TYPE___not_equal__` on numbers. -/
def Number.notEqual : Number → Number → Bool :=
  comparison (fun a b => a ≠ b) Ordering.isNe Ordering.isNe Ordering.isNe

/-- `ARGON_NUMBER_TYPE___less_than__` on numbers. -/
def Number.lessThan : Number → Number → Bool :=
  comparison (fun a b => a < b) Ordering.isLT Ordering.isGT Ordering.isLT

/-- `ARGON_NUMBER_TYPE___less_than_equal__` on numbers. -/
def Number.lessThanEqual : Number → Number → Bool :=
  comparison (fun a b => a ≤ b) Ordering.isLE Ordering.isGE Ordering.isLE

/-- `ARGON_NUMBER_TYPE___greater_than__` on numbers. -/
def Number.greaterThan : Number → Number → Bool :=
  comparison (fun a b => a > b) Ordering.isGT Ordering.isLT Ordering.isGT

/-- `ARGON_NUMBER_TYPE___greater_than_equal__` on numbers. -/
def Number.greaterThanEqual : Number → Number → Bool :=
  comparison (fun a b => a ≥ b) Ordering.isGE Ordering.isLE Ordering.isGE

/-- The comparisons of two numbers, in the machine and as methods, are those of the rationals. -/
structure ComparedAsRationals (a b : Number) : Prop where
  equal : doEqual a b = decide (a.toRat = b.toRat) ∧ a.equal b = decide (a.toRat = b.toRat)
  notEqual : doNotEqual a b = decide (a.toRat ≠ b.toRat) ∧
    a.notEqual b = decide (a.toRat ≠ b.toRat)
  lessThan : doLessThan a b = decide (a.toRat < b.toRat) ∧
    a.lessThan b = decide (a.toRat < b.toRat)
  lessThanEqual : doLessThanEqual a b = decide (a.toRat ≤ b.toRat) ∧
    a.lessThanEqual b = decide (a.toRat ≤ b.toRat)
  greaterThan : doGreaterThan a b = decide (a.toRat > b.toRat) ∧
    a.greaterThan b = decide (a.toRat > b.toRat)
  greaterThanEqual : doGreaterThanEqual a b = decide (a.toRat ≥ b.toRat) ∧
    a.greaterThanEqual b = decide (a.toRat ≥ b.toRat)

/-- The laws of an order on some numbers, for comparisons that decide it. -/
structure TotallyOrdered (S : Set Number) (equal lessThan greaterThan : Number → Number → Bool) :
    Prop where
  equivalence : Equivalence fun a b : S => equal a.1 b.1 = true
  irrefl : ∀ a ∈ S, lessThan a a = false
  trans : ∀ a ∈ S, ∀ b ∈ S, ∀ c ∈ S, lessThan a b = true → lessThan b c = true →
    lessThan a c = true
  /-- Exactly one of the three holds. -/
  trichotomy : ∀ a ∈ S, ∀ b ∈ S,
    (lessThan a b, equal a b, greaterThan a b) = (true, false, false) ∨
    (lessThan a b, equal a b, greaterThan a b) = (false, true, false) ∨
    (lessThan a b, equal a b, greaterThan a b) = (false, false, true)

/-- The numbers that are compared wrongly: an integer is negative, and the other is a rational from
it up to the unsigned number it is taken for. -/
def Misread : Number → Number → Prop
  | .i64 n, .mpq q | .mpq q, .i64 n => n < 0 ∧ (n.toInt : ℚ) ≤ q.toRat ∧ q.toRat ≤ n.toInt + 2^64
  | _, _ => False

/-! ## The ordering they are views of -/

/-- What the comparisons find out about two numbers. -/
def reading : Number → Number → Ordering
  | .i64 a, .i64 b => compare a.toInt b.toInt
  | .mpq a, .mpq b => mpqCmp a b
  | .i64 a, .mpq b => (mpqCmpUi b a.toUInt64).swap
  | .mpq a, .i64 b => mpqCmpUi a b.toUInt64

/-- A comparison tests the reading, if it tests the order of two integers in the same way and the
ordering of a rational with an integer on its left in the opposite way. -/
theorem comparison_eq {onInt64 : Int64 → Int64 → Bool} {test opposite : Ordering → Bool}
    (hint : ∀ a b, onInt64 a b = test (compare a.toInt b.toInt))
    (hopposite : ∀ o, opposite o = test o.swap) (a b : Number) :
    comparison onInt64 test opposite test a b = test (reading a b) := by
  unfold comparison reading
  split
  case h_1 => exact hint _ _
  case h_2 => rfl
  case h_3 => exact hopposite _
  case h_4 => rfl

theorem doEqual_eq (a b : Number) : doEqual a b = (reading a b).isEq := by
  refine comparison_eq (fun m n => ?_) (fun o => ?_) a b
  · rw [Bool.eq_iff_iff, decide_eq_true_eq, Ordering.isEq_iff_eq_eq, compare_eq_iff_eq,
      Int64.toInt_inj]
  · exact Ordering.isEq_swap.symm

theorem doNotEqual_eq (a b : Number) : doNotEqual a b = (reading a b).isNe := by
  refine comparison_eq (fun m n => ?_) (fun o => ?_) a b
  · rw [Bool.eq_iff_iff, decide_eq_true_eq, Ordering.isNe_iff_ne_eq, not_congr compare_eq_iff_eq,
      not_congr Int64.toInt_inj]
  · exact Ordering.isNe_swap.symm

theorem doLessThan_eq (a b : Number) : doLessThan a b = (reading a b).isLT := by
  refine comparison_eq (fun m n => ?_) (fun o => ?_) a b
  · rw [Bool.eq_iff_iff, decide_eq_true_eq, Ordering.isLT_iff_eq_lt, compare_lt_iff_lt,
      Int64.lt_iff_toInt_lt]
  · exact Ordering.isLT_swap.symm

theorem doGreaterThan_eq (a b : Number) : doGreaterThan a b = (reading a b).isGT := by
  refine comparison_eq (fun m n => ?_) (fun o => ?_) a b
  · rw [Bool.eq_iff_iff, decide_eq_true_eq, Ordering.isGT_iff_eq_gt, compare_gt_iff_gt, gt_iff_lt,
      Int64.lt_iff_toInt_lt]
  · exact Ordering.isGT_swap.symm

theorem doLessThanEqual_eq (a b : Number) : doLessThanEqual a b = (reading a b).isLE := by
  refine comparison_eq (fun m n => ?_) (fun o => ?_) a b
  · rw [Bool.eq_iff_iff, decide_eq_true_eq, Std.isLE_compare, Int64.le_iff_toInt_le]
  · exact Ordering.isLE_swap.symm

theorem doGreaterThanEqual_eq (a b : Number) : doGreaterThanEqual a b = (reading a b).isGE := by
  refine comparison_eq (fun m n => ?_) (fun o => ?_) a b
  · rw [Bool.eq_iff_iff, decide_eq_true_eq, Std.isGE_compare, ge_iff_le, Int64.le_iff_toInt_le]
  · exact Ordering.isGE_swap.symm

/-! ## When it is the ordering of the rationals -/

theorem Mpq.toRat_mul_den (q : Mpq) : q.toRat * q.den = q.num :=
  div_mul_cancel₀ _ (Nat.cast_ne_zero.mpr q.den_pos.ne')

/-- A comparison of integers is one of rationals. -/
theorem compare_int_eq_cast (a b : ℤ) : compare a b = compare (a : ℚ) b := by
  rw [← cmp_eq_compare, ← cmp_eq_compare]
  exact (Int.cast_strictMono.cmp_map_eq a b).symm

/-- Both sides of a comparison can be divided by a positive number. -/
theorem compare_mul_right {p q d : ℚ} (hd : 0 < d) : compare (p * d) (q * d) = compare p q := by
  rw [← cmp_eq_compare, ← cmp_eq_compare]
  exact cmp_mul_pos_right hd p q

/-- `mpq_cmp` is the ordering of the rationals. -/
theorem mpqCmp_eq (a b : Mpq) : mpqCmp a b = compare a.toRat b.toRat := by
  have hden : (0 : ℚ) < a.den * b.den :=
    mul_pos (Nat.cast_pos.mpr a.den_pos) (Nat.cast_pos.mpr b.den_pos)
  have ha : ((a.num * b.den : ℤ) : ℚ) = a.toRat * (a.den * b.den) := by
    rw [← mul_assoc, a.toRat_mul_den]
    push_cast
    rfl
  have hb : ((b.num * a.den : ℤ) : ℚ) = b.toRat * (a.den * b.den) := by
    rw [mul_comm (a.den : ℚ), ← mul_assoc, b.toRat_mul_den]
    push_cast
    rfl
  calc mpqCmp a b = compare ((a.num * b.den : ℤ) : ℚ) ((b.num * a.den : ℤ) : ℚ) :=
        compare_int_eq_cast _ _
    _ = compare (a.toRat * (a.den * b.den)) (b.toRat * (a.den * b.den)) := by rw [ha, hb]
    _ = compare a.toRat b.toRat := compare_mul_right hden

/-- `mpq_cmp_ui` is the ordering of the rational and the unsigned number. -/
theorem mpqCmpUi_eq (q : Mpq) (n : UInt64) : mpqCmpUi q n = compare q.toRat n.toNat := by
  have hden : (0 : ℚ) < q.den := Nat.cast_pos.mpr q.den_pos
  have hn : ((n.toNat * q.den : ℤ) : ℚ) = n.toNat * q.den := by push_cast; rfl
  calc mpqCmpUi q n = compare (q.num : ℚ) ((n.toNat * q.den : ℤ) : ℚ) := compare_int_eq_cast _ _
    _ = compare (q.toRat * q.den) (n.toNat * q.den) := by rw [hn, q.toRat_mul_den]
    _ = compare q.toRat n.toNat := compare_mul_right hden

/-- Two numbers lie in the same way to a third unless it is between them. -/
theorem compare_eq_compare_iff {q m n : ℚ} (hmn : n < m) :
    compare q m = compare q n ↔ ¬(n ≤ q ∧ q ≤ m) := by
  rcases lt_or_ge q n with hlow | hlow
  · -- Below both.
    rw [compare_lt_iff_lt.mpr hlow, compare_lt_iff_lt.mpr (hlow.trans hmn)]
    exact iff_of_true rfl fun h => absurd h.1 (not_le.mpr hlow)
  · rcases lt_or_ge m q with hhigh | hhigh
    · -- Above both.
      rw [compare_gt_iff_gt.mpr hhigh, compare_gt_iff_gt.mpr (hmn.trans hhigh)]
      exact iff_of_true rfl fun h => absurd h.2 (not_le.mpr hhigh)
    · -- Between them it is not less than the one and not greater than the other.
      refine iff_of_false (fun heq => ?_) fun h => h ⟨hlow, hhigh⟩
      rcases hhigh.lt_or_eq with hlt | hm
      · rw [compare_lt_iff_lt.mpr hlt] at heq
        exact absurd (compare_lt_iff_lt.mp heq.symm) (not_lt.mpr hlow)
      · rw [compare_eq_iff_eq.mpr hm] at heq
        exact absurd (hm.symm.trans (compare_eq_iff_eq.mp heq.symm)) hmn.ne'

/-- An integer is compared rightly with a rational unless it is misread. -/
theorem mpqCmpUi_eq_iff (q : Mpq) (n : Int64) :
    mpqCmpUi q n.toUInt64 = compare q.toRat n.toInt ↔ ¬Misread (.mpq q) (.i64 n) := by
  have hcast : ((n.toUInt64.toNat : ℤ) : ℚ) = n.toUInt64.toNat := Int.cast_natCast _
  rw [mpqCmpUi_eq, ← hcast, Signed64.toNat_toUInt64]
  show _ ↔ ¬(n < 0 ∧ (n.toInt : ℚ) ≤ q.toRat ∧ q.toRat ≤ n.toInt + 2^64)
  split
  case isTrue hneg =>
    rw [and_iff_right hneg]
    push_cast
    exact compare_eq_compare_iff (by linarith)
  case isFalse hnonneg => exact iff_of_true rfl fun h => hnonneg h.1

/-- What the comparisons find out is the ordering of the rationals, for any two numbers that are not
misread and for no others. -/
theorem reading_eq_compare_iff (a b : Number) :
    reading a b = compare a.toRat b.toRat ↔ ¬Misread a b := by
  unfold reading
  split
  case h_1 m n => exact iff_of_true (compare_int_eq_cast _ _) fun h => h
  case h_2 p q => exact iff_of_true (mpqCmp_eq p q) fun h => h
  case h_3 m q =>
    rw [← cmp_eq_compare, ← cmp_swap, cmp_eq_compare, Ordering.swap_inj]
    exact mpqCmpUi_eq_iff q m
  case h_4 p n => exact mpqCmpUi_eq_iff p n

/-- The method `__equal__` is the handler. -/
theorem equal_eq_doEqual (a b : Number) : a.equal b = doEqual a b := by
  unfold Number.equal doEqual comparison
  split
  case h_1 => rfl
  case h_2 =>
    rw [Bool.eq_iff_iff, Ordering.isEq_iff_eq_eq]
    exact decide_eq_true_iff.trans compare_eq_iff_eq.symm
  case h_3 =>
    rw [Bool.eq_iff_iff, Ordering.isEq_iff_eq_eq]
    exact decide_eq_true_iff.trans compare_eq_iff_eq.symm
  case h_4 =>
    rw [Bool.eq_iff_iff, Ordering.isEq_iff_eq_eq]
    exact decide_eq_true_iff.trans compare_eq_iff_eq.symm

/-- The comparisons are those of the rationals if what they find out is. -/
theorem comparedAsRationals_iff (a b : Number) :
    ComparedAsRationals a b ↔ reading a b = compare a.toRat b.toRat := by
  constructor
  · intro h
    have hlt := h.lessThan.1
    have heq := h.equal.1
    have hgt := h.greaterThan.1
    rw [doLessThan_eq] at hlt
    rw [doEqual_eq] at heq
    rw [doGreaterThan_eq] at hgt
    cases hr : reading a b with
    | lt =>
      rw [hr] at hlt
      exact (compare_lt_iff_lt.mpr (of_decide_eq_true hlt.symm)).symm
    | eq =>
      rw [hr] at heq
      exact (compare_eq_iff_eq.mpr (of_decide_eq_true heq.symm)).symm
    | gt =>
      rw [hr] at hgt
      exact (compare_gt_iff_gt.mpr (of_decide_eq_true hgt.symm)).symm
  · intro h
    have heq : doEqual a b = decide (a.toRat = b.toRat) := by
      rw [doEqual_eq, h, Bool.eq_iff_iff, Ordering.isEq_iff_eq_eq, compare_eq_iff_eq,
        decide_eq_true_eq]
    have hne : doNotEqual a b = decide (a.toRat ≠ b.toRat) := by
      rw [doNotEqual_eq, h, Bool.eq_iff_iff, Ordering.isNe_iff_ne_eq, not_congr compare_eq_iff_eq,
        decide_eq_true_eq]
    have hlt : doLessThan a b = decide (a.toRat < b.toRat) := by
      rw [doLessThan_eq, h, Bool.eq_iff_iff, Ordering.isLT_iff_eq_lt, compare_lt_iff_lt,
        decide_eq_true_eq]
    have hle : doLessThanEqual a b = decide (a.toRat ≤ b.toRat) := by
      rw [doLessThanEqual_eq, h, Bool.eq_iff_iff, Ordering.isLE_iff_ne_gt, decide_eq_true_eq]
      exact compare_le_iff_le
    have hgt : doGreaterThan a b = decide (a.toRat > b.toRat) := by
      rw [doGreaterThan_eq, h, Bool.eq_iff_iff, Ordering.isGT_iff_eq_gt, compare_gt_iff_gt,
        decide_eq_true_eq]
    have hge : doGreaterThanEqual a b = decide (a.toRat ≥ b.toRat) := by
      rw [doGreaterThanEqual_eq, h, Bool.eq_iff_iff, Ordering.isGE_iff_ne_lt, decide_eq_true_eq]
      exact compare_ge_iff_ge
    -- The methods have the code of the handlers.
    exact ⟨⟨heq, (equal_eq_doEqual a b).trans heq⟩, ⟨hne, hne⟩, ⟨hlt, hlt⟩, ⟨hle, hle⟩, ⟨hgt, hgt⟩,
      ⟨hge, hge⟩⟩

/-- Comparisons that are those of the rationals obey the laws of an order. -/
theorem totallyOrdered_of_compared {S : Set Number}
    (h : ∀ a ∈ S, ∀ b ∈ S, ComparedAsRationals a b) :
    TotallyOrdered S doEqual doLessThan doGreaterThan := by
  have heq : ∀ a ∈ S, ∀ b ∈ S, (doEqual a b = true ↔ a.toRat = b.toRat) := fun a ha b hb => by
    rw [(h a ha b hb).equal.1, decide_eq_true_eq]
  have hlt : ∀ a ∈ S, ∀ b ∈ S, (doLessThan a b = true ↔ a.toRat < b.toRat) := fun a ha b hb => by
    rw [(h a ha b hb).lessThan.1, decide_eq_true_eq]
  refine ⟨⟨fun a => ?_, fun {a b} hab => ?_, fun {a b c} hab hbc => ?_⟩, fun a ha => ?_,
    fun a ha b hb c hc hab hbc => ?_, fun a ha b hb => ?_⟩
  · exact (heq a.1 a.2 a.1 a.2).mpr rfl
  · exact (heq b.1 b.2 a.1 a.2).mpr ((heq a.1 a.2 b.1 b.2).mp hab).symm
  · exact (heq a.1 a.2 c.1 c.2).mpr
      (((heq a.1 a.2 b.1 b.2).mp hab).trans ((heq b.1 b.2 c.1 c.2).mp hbc))
  · rw [(h a ha a ha).lessThan.1]
    exact decide_eq_false (lt_irrefl _)
  · exact (hlt a ha c hc).mpr (((hlt a ha b hb).mp hab).trans ((hlt b hb c hc).mp hbc))
  · rw [(h a ha b hb).lessThan.1, (h a ha b hb).equal.1, (h a ha b hb).greaterThan.1]
    rcases lt_trichotomy a.toRat b.toRat with hab | hab | hab
    · exact Or.inl (by simp [hab, hab.ne, hab.le])
    · exact Or.inr (Or.inl (by simp [hab]))
    · exact Or.inr (Or.inr (by simp [hab, hab.ne', hab.le]))

/-- The six comparisons of two numbers, in the machine and as methods, are those of the rational
numbers exactly if the two are not a negative integer and a rational that is not less than it, and
not greater than it plus `2^64`. On numbers without such a pair, equality is an equivalence, the order
is strict and total, and exactly one of less, equal and greater holds. -/
theorem comparisons_iff (a b : Number) (S : Set Number) :
    (ComparedAsRationals a b ↔ ¬Misread a b) ∧
    ((∀ a ∈ S, ∀ b ∈ S, ¬Misread a b) →
      TotallyOrdered S doEqual doLessThan doGreaterThan) := by
  have hiff : ∀ a b : Number, ComparedAsRationals a b ↔ ¬Misread a b := fun a b =>
    (comparedAsRationals_iff a b).trans (reading_eq_compare_iff a b)
  exact ⟨hiff a b, fun hS =>
    totallyOrdered_of_compared fun a ha b hb => (hiff a b).mpr (hS a ha b hb)⟩

/-- Numbers that are not negative are never misread. -/
theorem comparisons_iff_nonnegative :
    TotallyOrdered {a | 0 ≤ a.toRat} doEqual doLessThan doGreaterThan := by
  refine (comparisons_iff (.i64 0) (.i64 0) _).2 fun a ha b hb h => ?_
  -- The integer of a misread pair is negative.
  have hneg : ∀ n : Int64, 0 ≤ (Number.i64 n).toRat → ¬n < 0 := fun n hn hlt => by
    rw [Int64.lt_iff_toInt_lt, Int64.toInt_zero] at hlt
    exact absurd (Int.cast_lt_zero.mpr hlt) (not_lt.mpr hn)
  unfold Misread at h
  split at h
  case h_1 n q => exact hneg n ha h.1
  case h_2 q n => exact hneg n hb h.1
  case h_3 => exact h

/-- `-1 < 1/2` is false. -/
theorem not_forall_compared :
    ¬∀ a b : NumberObject, ComparedAsRationals a.1 b.1 := by
  intro h
  have hhalf : (Number.mpq ⟨1, 2, by decide⟩).Normal := ⟨Nat.coprime_one_left 2, by decide⟩
  have hlt := (h ⟨.i64 (-1), trivial⟩ ⟨_, hhalf⟩).lessThan.1
  have hfalse : doLessThan (.i64 (-1)) (.mpq ⟨1, 2, by decide⟩) = false := by decide
  rw [hfalse] at hlt
  refine absurd (of_decide_eq_false hlt.symm) (not_not.mpr ?_)
  have hone : (-1 : Int64).toInt = -1 := by decide
  show (((-1 : Int64).toInt : ℤ) : ℚ) < ((1 : ℤ) : ℚ) / ((2 : ℕ) : ℚ)
  rw [hone]
  norm_num

end Chloride
