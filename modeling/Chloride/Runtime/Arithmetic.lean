import Chloride.Runtime.State
import Chloride.Numerics.Signed64

/-!
# Arithmetic on numbers

Addition, multiplication, subtraction, negation and division of numbers: the handlers `DO_ADDITION`
to `DO_DIVISION` of `src/runtime/runtime.c` and the methods of
`src/runtime/objects/number/number.c`, which have the same code. Two 64-bit integers are computed
with as 64-bit integers if a test says that they do not overflow, and everything else with GMP, which
is exact. An `int64_t` operation that overflows and a division by zero in GMP are `none`.

The tests for sums and products are right for all operands (`arithmetic_exact`). The test for
differences negates its first operand and is one off, negation has no test, and division makes its
second operand positive without one: `subtraction_negation_iff` and `division_iff` tell exactly which
operands they are right for.
-/

namespace Chloride

/-! ## GMP rationals -/

/-- The rational number a GMP rational stands for. -/
def Mpq.toRat (q : Mpq) : ℚ := q.num / q.den

/-- The GMP rational in lowest terms, as `mpq_canonicalize` makes it. -/
def Mpq.ofRat (q : ℚ) : Mpq := ⟨q.num, q.den, q.pos⟩

/-- Lowest terms. -/
def Mpq.Canonical (q : Mpq) : Prop := q.num.natAbs.Coprime q.den

/-- `mpq_add`. -/
def mpqAdd (a b : Mpq) : Mpq := Mpq.ofRat (a.toRat + b.toRat)

/-- `mpq_sub`. -/
def mpqSub (a b : Mpq) : Mpq := Mpq.ofRat (a.toRat - b.toRat)

/-- `mpq_mul`. -/
def mpqMul (a b : Mpq) : Mpq := Mpq.ofRat (a.toRat * b.toRat)

/-- `mpq_neg`. -/
def mpqNeg (a : Mpq) : Mpq := Mpq.ofRat (-a.toRat)

/-- `mpq_div`, which ends the process for a zero divisor. -/
def mpqDiv (a b : Mpq) : Option Mpq :=
  if b.num = 0 then none else some (Mpq.ofRat (a.toRat / b.toRat))

/-- `mpq_set_si64`, with `long` of 64 bits. -/
def mpqSetSi64 (n d : Int64) : Option Mpq :=
  if d = 0 then none else some (Mpq.ofRat (n.toInt / d.toInt))

/-- The rational number a number object stands for. -/
def Number.toRat : Number → ℚ
  | .i64 n => n.toInt
  | .mpq q => q.toRat

/-- A number is stored as a 64-bit integer if it is one, and in lowest terms otherwise. -/
def Number.Normal : Number → Prop
  | .i64 _ => True
  | .mpq q => q.Canonical ∧ mpqToInt64 q = none

/-- The numbers there are: all of the constructors of number objects normalise. -/
abbrev NumberObject := {n : Number // n.Normal}

/-- The exact and normalised result of an operation. -/
def Exact (r : Option Number) (q : ℚ) : Prop := ∃ c : NumberObject, r = some c.1 ∧ c.1.toRat = q

@[simp]
theorem Mpq.toRat_ofRat (q : ℚ) : (Mpq.ofRat q).toRat = q := Rat.num_div_den q

theorem Mpq.canonical_ofRat (q : ℚ) : (Mpq.ofRat q).Canonical := q.reduced

/-- A rational in lowest terms has the numerator and the denominator of its value. -/
theorem Mpq.Canonical.toRat_parts {q : Mpq} (h : q.Canonical) :
    q.toRat.num = q.num ∧ q.toRat.den = q.den := by
  have hden : (0 : ℤ) < q.den := Int.natCast_pos.mpr q.den_pos
  have hcoprime : q.num.natAbs.Coprime (q.den : ℤ).natAbs := h
  unfold Mpq.toRat
  constructor
  · exact_mod_cast Rat.num_div_eq_of_coprime hden hcoprime
  · exact_mod_cast Rat.den_div_eq_of_coprime hden hcoprime

theorem mpqToInt64_eq_some {q : Mpq} {n : Int64} (h : mpqToInt64 q = some n) :
    (n.toInt : ℚ) = q.toRat := by
  unfold mpqToInt64 at h
  rw [Int64.toInt_minValue, Int64.toInt_maxValue] at h
  split at h
  case isTrue hfits =>
    obtain ⟨hden, hmin, hmax⟩ := hfits
    have hn : n.toInt = q.num := by
      rw [← Option.some.inj h]
      exact Signed64.toInt_ofInt ⟨hmin, by omega⟩
    unfold Mpq.toRat
    rw [hn, hden]
    simp
  case isFalse => cases h

/-- `new_number_object` normalises a rational in lowest terms. -/
theorem newNumberObject_normal {q : Mpq} (h : q.Canonical) : (newNumberObject q).Normal := by
  unfold newNumberObject
  split
  case h_1 => trivial
  case h_2 hnone => exact ⟨h, hnone⟩

theorem newNumberObject_toRat (q : Mpq) : (newNumberObject q).toRat = q.toRat := by
  unfold newNumberObject
  split
  case h_1 n hn => exact mpqToInt64_eq_some hn
  case h_2 => rfl

theorem exact_newNumberObject (q : ℚ) : Exact (some (newNumberObject (Mpq.ofRat q))) q :=
  ⟨⟨_, newNumberObject_normal (Mpq.canonical_ofRat q)⟩, rfl,
    by rw [newNumberObject_toRat, Mpq.toRat_ofRat]⟩

theorem exact_i64 {c : Int64} {q : ℚ} (h : (c.toInt : ℚ) = q) : Exact (some (.i64 c)) q :=
  ⟨⟨.i64 c, trivial⟩, rfl, h⟩

/-- An integer for GMP. -/
theorem mpqSetSi64_one (n : Int64) : mpqSetSi64 n 1 = some (Mpq.ofRat n.toInt) := by
  unfold mpqSetSi64
  rw [if_neg (by decide), show (1 : Int64).toInt = 1 from rfl, Int.cast_one, div_one]

/-! ## Sums, products and differences -/

/-- The code of an operation: with the test of two integers, their operation, and the one of GMP. -/
def arithmetic (gonnaOverflow : Int64 → Int64 → Option Bool) (onInt64 : Int64 → Int64 → Option Int64)
    (onMpq : Mpq → Mpq → Mpq) : Number → Number → Option Number
  | .i64 a, .i64 b => do
    if !(← gonnaOverflow a b) then
      return .i64 (← onInt64 a b)
    else
      return newNumberObject (onMpq (← mpqSetSi64 a 1) (← mpqSetSi64 b 1))
  | .mpq a, .mpq b => return newNumberObject (onMpq a b)
  | .i64 a, .mpq b => do return newNumberObject (onMpq (← mpqSetSi64 a 1) b)
  | .mpq a, .i64 b => do return newNumberObject (onMpq a (← mpqSetSi64 b 1))

/-- The test of an addition. -/
def gonnaOverflowAdd (a b : Int64) : Option Bool :=
  Signed64.lor
    (Signed64.land (a > 0 && b > 0) ((Signed64.sub Int64.maxValue b).map fun d => a > d))
    (Signed64.land (a < 0 && b < 0) ((Signed64.sub Int64.minValue b).map fun d => a < d))

/-- The test of a subtraction, with the negated first operand. -/
def gonnaOverflowSubtract (a b : Int64) : Option Bool := do
  let negA ← Signed64.neg a
  Signed64.lor
    (Signed64.land (negA > 0 && b > 0) ((Signed64.sub Int64.maxValue negA).map fun d => b > d))
    (Signed64.land (negA < 0 && b < 0) ((Signed64.sub Int64.minValue negA).map fun d => b < d))

/-- The test of a multiplication. -/
def gonnaOverflowMultiply (a b : Int64) : Option Bool :=
  if a > 0 then
    if b > 0 then (Signed64.quot Int64.maxValue b).map fun q => a > q
    else (Signed64.quot Int64.minValue a).map fun q => b < q
  else if b > 0 then (Signed64.quot Int64.minValue b).map fun q => a < q
  else Signed64.land (a ≠ 0) ((Signed64.quot Int64.maxValue a).map fun q => b < q)

/-- `DO_ADDITION` on numbers. -/
def doAddition : Number → Number → Option Number := arithmetic gonnaOverflowAdd Signed64.add mpqAdd

/-- `ARGON_NUMBER_TYPE___add__` on numbers. -/
def Number.add : Number → Number → Option Number := arithmetic gonnaOverflowAdd Signed64.add mpqAdd

/-- `DO_SUBTRACTION` on numbers. -/
def doSubtraction : Number → Number → Option Number :=
  arithmetic gonnaOverflowSubtract Signed64.sub mpqSub

/-- `ARGON_NUMBER_TYPE___subtract__` on numbers. -/
def Number.subtract : Number → Number → Option Number :=
  arithmetic gonnaOverflowSubtract Signed64.sub mpqSub

/-- `DO_MULTIPLICATION` on numbers. -/
def doMultiplication : Number → Number → Option Number :=
  arithmetic gonnaOverflowMultiply Signed64.mul mpqMul

/-- `ARGON_NUMBER_TYPE___multiply__` on numbers. -/
def Number.multiply : Number → Number → Option Number :=
  arithmetic gonnaOverflowMultiply Signed64.mul mpqMul

/-- The code of a negation. -/
def negate : Number → Option Number
  | .i64 n => do return .i64 (← Signed64.neg n)
  | .mpq q => return newNumberObject (mpqNeg q)

/-- `DO_NEGATION` on a number. -/
def doNegation : Number → Option Number := negate

/-- `ARGON_NUMBER_TYPE___negation__`. -/
def Number.negation : Number → Option Number := negate

/-! ### The tests -/

/-- The test of an addition does not overflow itself, and is right. -/
theorem gonnaOverflowAdd_spec (a b : Int64) :
    ∃ o, gonnaOverflowAdd a b = some o ∧ (o = true ↔ ¬Signed64.Fits (a.toInt + b.toInt)) := by
  have hfits := Signed64.fits_add_iff (Signed64.fits_toInt a) (Signed64.fits_toInt b)
  have hb := Signed64.fits_toInt b
  unfold gonnaOverflowAdd Signed64.land Signed64.lor Signed64.sub
  rw [Int64.toInt_minValue, Int64.toInt_maxValue]
  simp only [gt_iff_lt, Int64.lt_iff_toInt_lt, Int64.toInt_zero, Bool.and_eq_true, decide_eq_true_eq]
  by_cases hpos : 0 < a.toInt ∧ 0 < b.toInt
  · -- `INT64_MAX - b` fits for a positive `b`.
    obtain ⟨d, hd, hdiff⟩ := Signed64.exact_of_fits (z := 2^63 - 1 - b.toInt)
      (by unfold Signed64.Fits at *; omega)
    rw [if_pos hpos, if_neg (by omega), hd, Option.map_some, Option.bind_some]
    refine ⟨decide (d.toInt < a.toInt), ?_, ?_⟩
    · cases decide (d.toInt < a.toInt) <;> rfl
    · rw [hfits, decide_eq_true_eq]
      omega
  · rw [if_neg hpos, Option.bind_some, if_neg (by simp)]
    by_cases hneg : a.toInt < 0 ∧ b.toInt < 0
    · -- `INT64_MIN - b` fits for a negative `b`.
      obtain ⟨d, hd, hdiff⟩ := Signed64.exact_of_fits (z := -2^63 - b.toInt)
        (by unfold Signed64.Fits at *; omega)
      rw [if_pos hneg, hd, Option.map_some]
      refine ⟨_, rfl, ?_⟩
      rw [hfits, decide_eq_true_eq]
      omega
    · -- Integers of different signs, or zero: their sum fits.
      rw [if_neg hneg]
      refine ⟨_, rfl, ?_⟩
      rw [hfits]
      simp only [Bool.false_eq_true, false_iff]
      omega

/-- The test of a multiplication does not overflow itself, and is right. -/
theorem gonnaOverflowMultiply_spec (a b : Int64) :
    ∃ o, gonnaOverflowMultiply a b = some o ∧ (o = true ↔ ¬Signed64.Fits (a.toInt * b.toInt)) := by
  have hfits := Signed64.fits_mul_iff (a := a.toInt) (b := b.toInt)
  -- The limits divided by anything but zero fit, except for `INT64_MIN / -1`.
  have hmax : ∀ c : Int64, c ≠ 0 → ∃ q, Signed64.quot Int64.maxValue c = some q ∧
      q.toInt = (2^63 - 1 : ℤ).tdiv c.toInt := by
    intro c hc
    unfold Signed64.quot
    rw [if_neg hc, Int64.toInt_maxValue]
    refine Signed64.exact_of_fits ?_
    have habs := Int.natAbs_tdiv_le_natAbs (2^63 - 1) c.toInt
    unfold Signed64.Fits
    omega
  have hmin : ∀ c : Int64, 0 < c.toInt → ∃ q, Signed64.quot Int64.minValue c = some q ∧
      q.toInt = (-2^63 : ℤ).tdiv c.toInt := by
    intro c hc
    unfold Signed64.quot
    rw [if_neg fun h => by rw [h] at hc; exact absurd hc (by decide), Int64.toInt_minValue]
    refine Signed64.exact_of_fits ?_
    have habs := Int.natAbs_tdiv_le_natAbs (2^63) c.toInt
    have hnonneg : 0 ≤ (2^63 : ℤ).tdiv c.toInt := Int.tdiv_nonneg (by norm_num) hc.le
    rw [Int.neg_tdiv]
    unfold Signed64.Fits
    omega
  unfold gonnaOverflowMultiply Signed64.land
  simp only [gt_iff_lt, Int64.lt_iff_toInt_lt, Int64.toInt_zero]
  -- Each sign pattern has its limit and its divisor.
  split at hfits
  case isTrue hapos =>
    rw [if_pos hapos]
    split at hfits
    case isTrue hbpos =>
      obtain ⟨q, hq, hquot⟩ := hmax b fun h => by rw [h] at hbpos; exact absurd hbpos (by decide)
      rw [if_pos hbpos, hq, Option.map_some]
      exact ⟨_, rfl, by rw [hfits, not_not, decide_eq_true_eq, hquot]⟩
    case isFalse hbneg =>
      obtain ⟨q, hq, hquot⟩ := hmin a hapos
      rw [if_neg hbneg, hq, Option.map_some]
      exact ⟨_, rfl, by rw [hfits, not_not, decide_eq_true_eq, hquot]⟩
  case isFalse haneg =>
    rw [if_neg haneg]
    split at hfits
    case isTrue hbpos =>
      obtain ⟨q, hq, hquot⟩ := hmin b hbpos
      rw [if_pos hbpos, hq, Option.map_some]
      exact ⟨_, rfl, by rw [hfits, not_not, decide_eq_true_eq, hquot]⟩
    case isFalse hbneg =>
      rw [if_neg hbneg]
      -- Zero is tested before it is divided by.
      by_cases hzero : a = 0
      · refine ⟨false, by simp [hzero], ?_⟩
        rw [hfits, hzero]
        simp
      · obtain ⟨q, hq, hquot⟩ := hmax a hzero
        rw [if_pos (by simpa using hzero), hq, Option.map_some]
        refine ⟨_, rfl, ?_⟩
        rw [hfits, not_not, decide_eq_true_eq, hquot]
        exact (and_iff_right fun h => hzero (Signed64.toInt_eq_zero.mp h)).symm

/-! ### The results -/

/-- With a test that is right, an operation is exact. -/
theorem arithmetic_i64 {gonnaOverflow : Int64 → Int64 → Option Bool}
    {onInt64 : Int64 → Int64 → Option Int64} {onMpq : Mpq → Mpq → Mpq} {f : ℚ → ℚ → ℚ}
    (hmpq : ∀ a b, onMpq a b = Mpq.ofRat (f a.toRat b.toRat)) {a b : Int64} {o : Bool}
    (htest : gonnaOverflow a b = some o)
    (hfast : o = false → ∃ c, onInt64 a b = some c ∧ (c.toInt : ℚ) = f a.toInt b.toInt) :
    Exact (arithmetic gonnaOverflow onInt64 onMpq (.i64 a) (.i64 b)) (f a.toInt b.toInt) := by
  unfold arithmetic
  simp only [htest, Option.bind_eq_bind, Option.bind_some, mpqSetSi64_one, hmpq, Mpq.toRat_ofRat]
  cases o with
  | false =>
    obtain ⟨c, hc, hvalue⟩ := hfast rfl
    simp only [hc, Bool.not_false, if_true, Option.bind_some]
    exact exact_i64 hvalue
  | true => exact exact_newNumberObject _

/-- An operation on anything but two integers is exact. -/
theorem arithmetic_mpq {gonnaOverflow : Int64 → Int64 → Option Bool}
    {onInt64 : Int64 → Int64 → Option Int64} {onMpq : Mpq → Mpq → Mpq} {f : ℚ → ℚ → ℚ}
    (hmpq : ∀ a b, onMpq a b = Mpq.ofRat (f a.toRat b.toRat)) {a b : Number}
    (hab : ∀ m n, ¬(a = .i64 m ∧ b = .i64 n)) :
    Exact (arithmetic gonnaOverflow onInt64 onMpq a b) (f a.toRat b.toRat) := by
  cases a with
  | i64 m =>
    cases b with
    | i64 n => exact absurd ⟨rfl, rfl⟩ (hab m n)
    | mpq q =>
      unfold arithmetic
      simp only [Option.bind_eq_bind, Option.bind_some, mpqSetSi64_one, hmpq, Mpq.toRat_ofRat]
      exact exact_newNumberObject _
  | mpq p =>
    cases b with
    | i64 n =>
      unfold arithmetic
      simp only [Option.bind_eq_bind, Option.bind_some, mpqSetSi64_one, hmpq, Mpq.toRat_ofRat]
      exact exact_newNumberObject _
    | mpq q =>
      show Exact (some (newNumberObject (onMpq p q))) _
      rw [hmpq]
      exact exact_newNumberObject _

/-- With a test that is right for all integers, an operation is exact for all numbers. -/
theorem arithmetic_exact {gonnaOverflow : Int64 → Int64 → Option Bool}
    {onInt64 : Int64 → Int64 → Option Int64} {onMpq : Mpq → Mpq → Mpq} {f : ℚ → ℚ → ℚ}
    (hmpq : ∀ a b, onMpq a b = Mpq.ofRat (f a.toRat b.toRat))
    (hint : ∀ a b, ∃ o, gonnaOverflow a b = some o ∧
      (o = false → ∃ c, onInt64 a b = some c ∧ (c.toInt : ℚ) = f a.toInt b.toInt))
    (a b : Number) : Exact (arithmetic gonnaOverflow onInt64 onMpq a b) (f a.toRat b.toRat) := by
  by_cases hab : ∀ m n, ¬(a = .i64 m ∧ b = .i64 n)
  · exact arithmetic_mpq hmpq hab
  · simp only [not_forall, not_not] at hab
    obtain ⟨m, n, rfl, rfl⟩ := hab
    obtain ⟨o, htest, hfast⟩ := hint m n
    exact arithmetic_i64 hmpq htest hfast

/-- Addition and multiplication are exact for all numbers, without an operation that overflows, and
their results are normalised. -/
theorem addition_multiplication_exact (a b : NumberObject) :
    (Exact (doAddition a.1 b.1) (a.1.toRat + b.1.toRat) ∧
      Exact (a.1.add b.1) (a.1.toRat + b.1.toRat)) ∧
    (Exact (doMultiplication a.1 b.1) (a.1.toRat * b.1.toRat) ∧
      Exact (a.1.multiply b.1) (a.1.toRat * b.1.toRat)) := by
  -- Where the tests let the 64-bit operations through, the results fit.
  have hadd : ∀ x y : Int64, ∃ o, gonnaOverflowAdd x y = some o ∧ (o = false →
      ∃ c, Signed64.add x y = some c ∧ (c.toInt : ℚ) = x.toInt + y.toInt) := by
    intro x y
    obtain ⟨o, ho, hiff⟩ := gonnaOverflowAdd_spec x y
    refine ⟨o, ho, fun hfalse => ?_⟩
    have hfits : Signed64.Fits (x.toInt + y.toInt) := by
      rw [hfalse] at hiff
      simpa using hiff
    obtain ⟨c, hc, hvalue⟩ := Signed64.exact_of_fits hfits
    exact ⟨c, hc, by rw [hvalue, Int.cast_add]⟩
  have hmul : ∀ x y : Int64, ∃ o, gonnaOverflowMultiply x y = some o ∧ (o = false →
      ∃ c, Signed64.mul x y = some c ∧ (c.toInt : ℚ) = x.toInt * y.toInt) := by
    intro x y
    obtain ⟨o, ho, hiff⟩ := gonnaOverflowMultiply_spec x y
    refine ⟨o, ho, fun hfalse => ?_⟩
    have hfits : Signed64.Fits (x.toInt * y.toInt) := by
      rw [hfalse] at hiff
      simpa using hiff
    obtain ⟨c, hc, hvalue⟩ := Signed64.exact_of_fits hfits
    exact ⟨c, hc, by rw [hvalue, Int.cast_mul]⟩
  have hsum := arithmetic_exact (f := (· + ·)) (fun _ _ => rfl) hadd a.1 b.1
  have hproduct := arithmetic_exact (f := (· * ·)) (fun _ _ => rfl) hmul a.1 b.1
  exact ⟨⟨hsum, hsum⟩, ⟨hproduct, hproduct⟩⟩

/-- The differences of `2^63`. -/
def MissedDifference (a b : Int64) : Prop := 0 ≤ a.toInt ∧ b.toInt = -2^63 + a.toInt

/-- The test of a subtraction does not overflow itself if the first operand has an opposite. It then
misses exactly the differences of `2^63`. -/
theorem gonnaOverflowSubtract_spec {a b : Int64} (ha : a ≠ Int64.minValue) :
    ∃ o, gonnaOverflowSubtract a b = some o ∧ (MissedDifference a b → o = false) ∧
      (¬MissedDifference a b → o = false → Signed64.Fits (a.toInt - b.toInt)) := by
  have ha' : a.toInt ≠ -2^63 := fun h => ha (Signed64.toInt_eq_minValue.mp h)
  have hafits := Signed64.fits_toInt a
  have hbfits := Signed64.fits_toInt b
  obtain ⟨n, hn, hneg⟩ := Signed64.exact_of_fits (z := -a.toInt) (by unfold Signed64.Fits at *; omega)
  unfold gonnaOverflowSubtract Signed64.land Signed64.lor Signed64.sub Signed64.neg MissedDifference
  rw [Int64.toInt_minValue, Int64.toInt_maxValue]
  simp only [hn, gt_iff_lt, Int64.lt_iff_toInt_lt, Int64.toInt_zero, Bool.and_eq_true,
    decide_eq_true_eq, Option.bind_eq_bind, Option.bind_some, hneg]
  unfold Signed64.Fits at *
  by_cases hpos : 0 < -a.toInt ∧ 0 < b.toInt
  · -- A negative minus a positive integer; `INT64_MAX - neg_a` fits.
    obtain ⟨d, hd, hdiff⟩ := Signed64.exact_of_fits (z := 2^63 - 1 - -a.toInt)
      (by unfold Signed64.Fits; omega)
    rw [if_pos hpos, if_neg (by omega), hd, Option.map_some, Option.bind_some]
    refine ⟨decide (d.toInt < b.toInt), ?_, ?_⟩
    · cases decide (d.toInt < b.toInt) <;> rfl
    · rw [decide_eq_false_iff_not]
      omega
  · rw [if_neg hpos, Option.bind_some, if_neg (by simp)]
    by_cases hnegs : -a.toInt < 0 ∧ b.toInt < 0
    · -- A positive minus a negative integer; `INT64_MIN - neg_a` fits.
      obtain ⟨d, hd, hdiff⟩ := Signed64.exact_of_fits (z := -2^63 - -a.toInt)
        (by unfold Signed64.Fits; omega)
      rw [if_pos hnegs, hd, Option.map_some]
      refine ⟨_, rfl, ?_⟩
      rw [decide_eq_false_iff_not]
      omega
    · rw [if_neg hnegs]
      -- The signs of `a` and `b` are the same, or one of them is zero.
      refine ⟨false, rfl, fun _ => rfl, fun _ _ => ?_⟩
      omega

/-- The integers for which the code of a subtraction overflows: the first has no opposite, or the test
misses the difference. -/
def SubtractionOverflows : Number → Number → Prop
  | .i64 a, .i64 b => a = Int64.minValue ∨ MissedDifference a b
  | _, _ => False

/-- The integer without an opposite. -/
def NegationOverflows (a : Number) : Prop := a = .i64 Int64.minValue

theorem not_exact_none (q : ℚ) : ¬Exact none q := fun ⟨_, h, _⟩ => nomatch h

/-- If it overflows, the code of a subtraction gives nothing. -/
theorem subtraction_eq_none {a b : Number} (h : SubtractionOverflows a b) :
    arithmetic gonnaOverflowSubtract Signed64.sub mpqSub a b = none := by
  unfold SubtractionOverflows at h
  split at h
  case h_2 => exact h.elim
  case h_1 a b =>
    by_cases ha : a = Int64.minValue
    · -- `-a` overflows in the test.
      have hneg : Signed64.neg a = none := by
        unfold Signed64.neg
        rw [Signed64.exact_eq_none, ha, Int64.toInt_minValue]
        decide
      unfold arithmetic gonnaOverflowSubtract
      simp only [hneg, Option.bind_eq_bind, Option.bind_none]
    · -- The test does not notice that `a - b` overflows.
      have hmiss : MissedDifference a b := h.resolve_left ha
      obtain ⟨o, ho, hmissed, -⟩ := gonnaOverflowSubtract_spec (b := b) ha
      have hsub : Signed64.sub a b = none := by
        unfold Signed64.sub
        rw [Signed64.exact_eq_none]
        unfold Signed64.Fits
        have := hmiss.2
        omega
      unfold arithmetic
      simp only [ho, hmissed hmiss, hsub, Option.bind_eq_bind, Option.bind_some, Option.bind_none,
        Bool.not_false, if_true]

/-- Subtraction of integers. -/
theorem subtraction_i64_iff (a b : Int64) :
    Exact (arithmetic gonnaOverflowSubtract Signed64.sub mpqSub (.i64 a) (.i64 b))
      (a.toInt - b.toInt : ℚ) ↔ ¬(a = Int64.minValue ∨ MissedDifference a b) := by
  by_cases hoverflows : a = Int64.minValue ∨ MissedDifference a b
  · rw [subtraction_eq_none (a := .i64 a) (b := .i64 b) hoverflows]
    exact iff_of_false (not_exact_none _) fun h => h hoverflows
  · -- The test is right about the difference.
    obtain ⟨ha, hmiss⟩ := not_or.mp hoverflows
    obtain ⟨o, ho, -, hfits⟩ := gonnaOverflowSubtract_spec (b := b) ha
    refine iff_of_true (arithmetic_i64 (f := (· - ·)) (fun _ _ => rfl) ho fun hfalse => ?_) hoverflows
    obtain ⟨c, hc, hvalue⟩ := Signed64.exact_of_fits (hfits hmiss hfalse)
    exact ⟨c, hc, by rw [hvalue, Int.cast_sub]⟩

/-- The code of a subtraction is right exactly for the operands for which nothing overflows. -/
theorem subtraction_iff (a b : Number) :
    Exact (arithmetic gonnaOverflowSubtract Signed64.sub mpqSub a b) (a.toRat - b.toRat) ↔
      ¬SubtractionOverflows a b := by
  by_cases hab : ∀ m n, ¬(a = .i64 m ∧ b = .i64 n)
  · refine iff_of_true (arithmetic_mpq (f := (· - ·)) (fun _ _ => rfl) hab) fun h => ?_
    unfold SubtractionOverflows at h
    split at h
    case h_1 m n => exact hab m n ⟨rfl, rfl⟩
    case h_2 => exact h
  · simp only [not_forall, not_not] at hab
    obtain ⟨m, n, rfl, rfl⟩ := hab
    exact subtraction_i64_iff m n

/-- The code of a negation is right exactly for the numbers other than the least integer. -/
theorem negate_iff (a : Number) : Exact (negate a) (-a.toRat) ↔ ¬NegationOverflows a := by
  unfold NegationOverflows
  cases a with
  | mpq q => exact iff_of_true (exact_newNumberObject _) (by simp)
  | i64 n =>
    show Exact ((Signed64.exact (-n.toInt)).bind fun m => some (.i64 m)) (-n.toInt) ↔ _
    have hn := Signed64.fits_toInt n
    by_cases hmin : n = Int64.minValue
    · have hnone : Signed64.exact (-n.toInt) = none := by
        rw [Signed64.exact_eq_none, hmin, Int64.toInt_minValue]
        decide
      rw [hnone]
      exact iff_of_false (not_exact_none _) fun h => h (by rw [hmin])
    · have hne : n.toInt ≠ -2^63 := fun h => hmin (Signed64.toInt_eq_minValue.mp h)
      obtain ⟨c, hc, hvalue⟩ := Signed64.exact_of_fits (z := -n.toInt)
        (by unfold Signed64.Fits at *; omega)
      rw [hc]
      refine iff_of_true (exact_i64 ?_) fun h => hmin (Number.i64.inj h)
      rw [hvalue, Int.cast_neg]

/-- Subtraction and negation, in the machine and as methods, are exact and normalised, without an
operation that overflows, exactly if the two integers are not of the kinds that the test misses and the
number to negate is not the least integer. -/
theorem subtraction_negation_iff (a b : NumberObject) :
    (Exact (doSubtraction a.1 b.1) (a.1.toRat - b.1.toRat) ∧
      Exact (a.1.subtract b.1) (a.1.toRat - b.1.toRat) ↔ ¬SubtractionOverflows a.1 b.1) ∧
    (Exact (doNegation a.1) (-a.1.toRat) ∧ Exact a.1.negation (-a.1.toRat) ↔
      ¬NegationOverflows a.1) :=
  ⟨(and_self_iff).trans (subtraction_iff a.1 b.1), (and_self_iff).trans (negate_iff a.1)⟩

/-- `0 - INT64_MIN` is not `2^63`: the test does not notice that the difference overflows. -/
theorem not_forall_subtraction_exact :
    ¬∀ a b : NumberObject, Exact (doSubtraction a.1 b.1) (a.1.toRat - b.1.toRat) ∧
      Exact (doNegation a.1) (-a.1.toRat) := by
  intro h
  refine (subtraction_iff (.i64 0) (.i64 Int64.minValue)).mp
    (h ⟨.i64 0, trivial⟩ ⟨.i64 Int64.minValue, trivial⟩).1 (Or.inr ⟨le_rfl, rfl⟩)

/-! ## Division -/

/-- The error of a division by zero. -/
def zeroDivisionError : ArErr := ⟨"ZeroDivisionError", "division by zero"⟩

/-- `new_number_object_from_num_and_den`. -/
def newNumberObjectFromNumAndDen (n d : Int64) : Option Number := do
  -- The shared objects of the small integers.
  if d = 1 ∧ -256 ≤ n ∧ n ≤ 256 then return .i64 n
  let (n, d) ← (if (← Signed64.rem n d) = 0 then do return (← Signed64.quot n d, 1) else return (n, d))
  if d = 1 then return .i64 n
  else return .mpq (← mpqSetSi64 n d)

/-- The code of a division. -/
def divide : Number → Number → Option (Except ArErr Number)
  | .i64 a, .i64 b =>
    if b = 0 then return .error zeroDivisionError
    else do
      let (a, b) ← (if b < 0 then do return (← Signed64.neg a, ← Signed64.neg b) else return (a, b))
      return .ok (← newNumberObjectFromNumAndDen a b)
  | .mpq a, .mpq b => do return .ok (newNumberObject (← mpqDiv a b))
  | .i64 a, .mpq b => do return .ok (newNumberObject (← mpqDiv (← mpqSetSi64 a 1) b))
  | .mpq a, .i64 b =>
    if b = 0 then return .error zeroDivisionError
    else do return .ok (newNumberObject (← mpqDiv a (← mpqSetSi64 b 1)))

/-- `DO_DIVISION` on numbers. -/
def doDivision : Number → Number → Option (Except ArErr Number) := divide

/-- `ARGON_NUMBER_TYPE___division__` on numbers. -/
def Number.division : Number → Number → Option (Except ArErr Number) := divide

/-- What a division should give: the error for a zero divisor, and the exact and normalised quotient
otherwise. -/
def ExactQuotient (r : Option (Except ArErr Number)) (p q : ℚ) : Prop :=
  if q = 0 then r = some (.error zeroDivisionError)
  else ∃ c : NumberObject, r = some (.ok c.1) ∧ c.1.toRat = p / q

/-- If the quotient does not overflow, it is exact and normalised. -/
theorem newNumberObjectFromNumAndDen_exact_of_fits {n d : Int64} (hd : d ≠ 0)
    (hfits : Signed64.Fits (n.toInt.tdiv d.toInt)) :
    Exact (newNumberObjectFromNumAndDen n d) (n.toInt / d.toInt) := by
  have hd0 : (d.toInt : ℚ) ≠ 0 := Int.cast_ne_zero.mpr fun h => hd (Signed64.toInt_eq_zero.mp h)
  obtain ⟨r, hr, hrem⟩ := Signed64.rem_of_fits hd hfits
  obtain ⟨q, hq, hquot⟩ := Signed64.quot_of_fits hd hfits
  -- The numerator in terms of the quotient and the remainder.
  have hdiv : n.toInt = d.toInt * q.toInt + r.toInt := by
    rw [hquot, hrem]
    exact (Int.mul_tdiv_add_tmod _ _).symm
  unfold newNumberObjectFromNumAndDen
  by_cases hsmall : d = 1 ∧ -256 ≤ n ∧ n ≤ 256
  · -- A small integer has its object already.
    rw [if_pos hsmall, hsmall.1]
    exact exact_i64 (by rw [show (1 : Int64).toInt = 1 from rfl, Int.cast_one, div_one])
  · rw [if_neg hsmall]
    simp only [hr, hq, Option.bind_eq_bind, Option.bind_some]
    by_cases hzero : r = 0
    · -- The denominator divides the numerator.
      have hq' : (q.toInt : ℚ) = n.toInt / d.toInt := by
        rw [hdiv, hzero, Int64.toInt_zero, add_zero, Int.cast_mul, mul_div_cancel_left₀ _ hd0]
      simp only [if_pos hzero, Option.bind_some, Option.pure_def, if_true]
      exact exact_i64 hq'
    · -- The quotient is a fraction.
      have hne : d ≠ 1 := by
        intro h
        rw [h, show (1 : Int64).toInt = 1 from rfl, Int.tmod_one] at hrem
        exact hzero (Signed64.toInt_eq_zero.mp hrem)
      simp only [if_neg hzero, Option.bind_some, Option.pure_def, if_neg hne, mpqSetSi64, if_neg hd]
      refine ⟨⟨.mpq (Mpq.ofRat (n.toInt / d.toInt)), Mpq.canonical_ofRat _, ?_⟩, rfl,
        Mpq.toRat_ofRat _⟩
      -- An integral quotient would leave no remainder.
      by_contra hsome
      obtain ⟨m, hm⟩ := Option.ne_none_iff_exists'.mp hsome
      have hvalue := mpqToInt64_eq_some hm
      rw [Mpq.toRat_ofRat, eq_div_iff hd0, ← Int.cast_mul, Int.cast_inj] at hvalue
      have hmod : n.toInt.tmod d.toInt = 0 := by
        rw [← hvalue]
        exact Int.mul_tmod_left _ _
      exact hzero (Signed64.toInt_eq_zero.mp (hrem.trans hmod))

/-- For a positive denominator the quotient is exact and normalised. -/
theorem newNumberObjectFromNumAndDen_exact {n d : Int64} (hd : 0 < d.toInt) :
    Exact (newNumberObjectFromNumAndDen n d) (n.toInt / d.toInt) := by
  have hne : d ≠ 0 := fun h => by rw [h] at hd; exact absurd hd (by decide)
  have hminus : d ≠ -1 := fun h => by rw [h] at hd; exact absurd hd (by decide)
  apply newNumberObjectFromNumAndDen_exact_of_fits hne
  exact (Signed64.fits_tdiv_iff hne).mpr fun h => hminus h.2

/-- The integers for which the code of a division overflows: one of them has no opposite, and it is
negated. -/
def DivisionOverflows : Number → Number → Prop
  | .i64 a, .i64 b => b.toInt < 0 ∧ (a = Int64.minValue ∨ b = Int64.minValue)
  | _, _ => False

/-- A normalised rational is not zero. -/
theorem Number.Normal.num_ne_zero {q : Mpq} (h : (Number.mpq q).Normal) : q.num ≠ 0 := by
  obtain ⟨hcanonical, hint⟩ := h
  intro hzero
  unfold Mpq.Canonical at hcanonical
  rw [hzero, Int.natAbs_zero, Nat.coprime_zero_left] at hcanonical
  unfold mpqToInt64 at hint
  rw [if_pos ⟨hcanonical, by rw [hzero]; decide, by rw [hzero]; decide⟩] at hint
  cases hint

theorem Mpq.toRat_eq_zero {q : Mpq} : q.toRat = 0 ↔ q.num = 0 := by
  unfold Mpq.toRat
  have hden : (q.den : ℚ) ≠ 0 := Nat.cast_ne_zero.mpr q.den_pos.ne'
  rw [div_eq_zero_iff, or_iff_left hden, Int.cast_eq_zero]

/-- In lowest terms, numerator and denominator are those of the number. -/
theorem Mpq.ofRat_toRat {q : Mpq} (h : q.Canonical) : Mpq.ofRat q.toRat = q := by
  have hpos : (0 : ℤ) < q.den := Int.natCast_pos.mpr q.den_pos
  have hvalue : q.toRat = (q.num : ℚ) / (q.den : ℤ) := by
    unfold Mpq.toRat
    rw [Int.cast_natCast]
  have hnum : q.toRat.num = q.num := by
    rw [hvalue]
    exact Rat.num_div_eq_of_coprime hpos h
  have hden : (q.toRat.den : ℤ) = q.den := by
    rw [hvalue]
    exact Rat.den_div_eq_of_coprime hpos h
  obtain ⟨num, den, hd⟩ := q
  unfold Mpq.ofRat
  simp only [hnum, Int.natCast_inj.mp hden]

/-- An integer that fits is read off again. -/
theorem mpqToInt64_ofRat (n : Int64) : mpqToInt64 (Mpq.ofRat (n.toInt : ℚ)) = some n := by
  have hfits := Signed64.fits_toInt n
  have hmax : n.toInt ≤ 2^63 - 1 := by
    unfold Signed64.Fits at hfits
    omega
  have hnum : (Mpq.ofRat (n.toInt : ℚ)).num = n.toInt := Rat.num_intCast n.toInt
  have hden : (Mpq.ofRat (n.toInt : ℚ)).den = 1 := Rat.den_intCast n.toInt
  unfold mpqToInt64
  rw [Int64.toInt_minValue, Int64.toInt_maxValue, hnum, hden, if_pos ⟨rfl, hfits.1, hmax⟩,
    Int64.ofInt_toInt]

/-- There is one number object for a rational number. -/
theorem NumberObject.toRat_injective : Function.Injective fun a : NumberObject => a.1.toRat := by
  -- A rational in lowest terms that is an integer is stored as one.
  have hmixed : ∀ (n : Int64) (q : Mpq), (Number.mpq q).Normal → (n.toInt : ℚ) ≠ q.toRat := by
    intro n q hq h
    have hq' : Mpq.ofRat (n.toInt : ℚ) = q := by rw [h, Mpq.ofRat_toRat hq.1]
    exact absurd (hq'.symm ▸ hq.2) (by rw [mpqToInt64_ofRat]; exact Option.some_ne_none n)
  intro a b hab
  obtain ⟨a, ha⟩ := a
  obtain ⟨b, hb⟩ := b
  refine Subtype.ext ?_
  cases a with
  | i64 m =>
    cases b with
    | i64 n => exact congrArg Number.i64 (Int64.toInt_inj.mp (Int.cast_injective hab))
    | mpq q => exact absurd hab (hmixed m q hb)
  | mpq p =>
    cases b with
    | i64 n => exact absurd hab.symm (hmixed n p ha)
    | mpq q =>
      refine congrArg Number.mpq ?_
      calc p = Mpq.ofRat p.toRat := (Mpq.ofRat_toRat ha.1).symm
        _ = Mpq.ofRat q.toRat := congrArg Mpq.ofRat hab
        _ = q := Mpq.ofRat_toRat hb.1

theorem exactQuotient_of_exact {r : Option Number} {p q : ℚ} (hq : q ≠ 0) (h : Exact r (p / q)) :
    ExactQuotient (r.map .ok) p q := by
  obtain ⟨c, rfl, hvalue⟩ := h
  unfold ExactQuotient
  rw [if_neg hq]
  exact ⟨c, rfl, hvalue⟩

/-- A negative divisor is made positive, with the dividend. -/
theorem divide_of_neg {a b : Int64} (h : b.toInt < 0) :
    divide (.i64 a) (.i64 b) = (Signed64.neg a).bind fun a =>
      (Signed64.neg b).bind fun b => (newNumberObjectFromNumAndDen a b).map .ok := by
  have hzero : b ≠ 0 := fun hzero => by rw [hzero] at h; exact absurd h (by decide)
  unfold divide
  dsimp only
  rw [if_neg hzero, if_pos (Int64.lt_iff_toInt_lt.mpr h)]
  cases Signed64.neg a with
  | none => rfl
  | some a' =>
    cases Signed64.neg b with
    | none => rfl
    | some b' => exact (Option.map_eq_bind ..).symm

/-- If it overflows, the code of a division gives nothing. -/
theorem divide_eq_none {a b : Number} (h : DivisionOverflows a b) : divide a b = none := by
  unfold DivisionOverflows at h
  split at h
  case h_2 => exact h.elim
  case h_1 a b =>
    have hneg_min : Signed64.neg Int64.minValue = none := by decide
    rw [divide_of_neg h.1]
    rcases h.2 with rfl | rfl
    · rw [hneg_min]
      rfl
    · rw [hneg_min]
      cases Signed64.neg a <;> rfl

/-- Division of integers. -/
theorem division_i64_iff (a b : Int64) :
    ExactQuotient (divide (.i64 a) (.i64 b)) a.toInt b.toInt ↔
      ¬(b.toInt < 0 ∧ (a = Int64.minValue ∨ b = Int64.minValue)) := by
  by_cases hzero : b = 0
  · -- Division by zero is an error.
    rw [hzero]
    refine iff_of_true ?_ fun h => absurd h.1 (by decide)
    unfold ExactQuotient
    rw [Int64.toInt_zero, Int.cast_zero, if_pos rfl]
    rfl
  · have hb0 : b.toInt ≠ 0 := fun h => hzero (Signed64.toInt_eq_zero.mp h)
    have hb0' : (b.toInt : ℚ) ≠ 0 := Int.cast_ne_zero.mpr hb0
    rcases lt_or_ge b.toInt 0 with hneg | hpos
    · -- Both integers are negated.
      by_cases hmin : a = Int64.minValue ∨ b = Int64.minValue
      · -- One of the two negations overflows.
        rw [divide_eq_none (a := .i64 a) (b := .i64 b) ⟨hneg, hmin⟩]
        refine iff_of_false ?_ fun h => h ⟨hneg, hmin⟩
        unfold ExactQuotient
        rw [if_neg hb0']
        rintro ⟨c, hc, _⟩
        cases hc
      · refine iff_of_true ?_ fun h => hmin h.2
        -- Neither overflows, and the signs cancel.
        rw [not_or, ← Signed64.toInt_eq_minValue, ← Signed64.toInt_eq_minValue] at hmin
        have ha := Signed64.fits_toInt a
        have hb := Signed64.fits_toInt b
        obtain ⟨a', ha', hneg_a⟩ := Signed64.exact_of_fits (z := -a.toInt)
          (by unfold Signed64.Fits at *; omega)
        obtain ⟨b', hb', hneg_b⟩ := Signed64.exact_of_fits (z := -b.toInt)
          (by unfold Signed64.Fits at *; omega)
        rw [divide_of_neg hneg]
        unfold Signed64.neg
        rw [ha', hb', Option.bind_some, Option.bind_some]
        refine exactQuotient_of_exact hb0' ?_
        have hexact := newNumberObjectFromNumAndDen_exact (n := a') (d := b') (by omega)
        rw [hneg_a, hneg_b, Int.cast_neg, Int.cast_neg, neg_div_neg_eq] at hexact
        exact hexact
    · -- A positive divisor is left as it is.
      have hdivide : divide (.i64 a) (.i64 b) = (newNumberObjectFromNumAndDen a b).map .ok := by
        unfold divide
        dsimp only
        have hnot : ¬b < 0 := fun h => by
          rw [Int64.lt_iff_toInt_lt, Int64.toInt_zero] at h
          omega
        rw [if_neg hzero, if_neg hnot]
        exact (Option.map_eq_bind ..).symm
      rw [hdivide]
      exact iff_of_true (exactQuotient_of_exact hb0' (newNumberObjectFromNumAndDen_exact (by omega)))
        fun h => absurd h.1 (not_lt.mpr hpos)

theorem mpqDiv_of_ne_zero {a b : Mpq} (hb : b.toRat ≠ 0) :
    mpqDiv a b = some (Mpq.ofRat (a.toRat / b.toRat)) :=
  if_neg fun h => hb (Mpq.toRat_eq_zero.mpr h)

/-- The code of a division is right exactly for the operands for which nothing overflows. -/
theorem divide_iff (a b : NumberObject) :
    ExactQuotient (divide a.1 b.1) a.1.toRat b.1.toRat ↔ ¬DivisionOverflows a.1 b.1 := by
  obtain ⟨a, ha⟩ := a
  obtain ⟨b, hb⟩ := b
  cases b with
  | i64 n =>
    cases a with
    | i64 m => exact division_i64_iff m n
    | mpq p =>
      refine iff_of_true ?_ fun h => h
      show ExactQuotient (divide (.mpq p) (.i64 n)) p.toRat n.toInt
      unfold divide
      dsimp only
      by_cases hzero : n = 0
      · rw [if_pos hzero, hzero]
        unfold ExactQuotient
        rw [Int64.toInt_zero, Int.cast_zero, if_pos rfl]
        rfl
      · have hn : (n.toInt : ℚ) ≠ 0 := Int.cast_ne_zero.mpr fun h => hzero (Signed64.toInt_eq_zero.mp h)
        rw [if_neg hzero, mpqSetSi64_one, Option.bind_eq_bind, Option.bind_some,
          mpqDiv_of_ne_zero (by rwa [Mpq.toRat_ofRat]), Mpq.toRat_ofRat]
        exact exactQuotient_of_exact hn (exact_newNumberObject _)
  | mpq q =>
    -- The divisor is a rational and not zero.
    have hq : q.toRat ≠ 0 := fun h => Number.Normal.num_ne_zero hb (Mpq.toRat_eq_zero.mp h)
    refine iff_of_true ?_ fun h => ?_
    · cases a with
      | i64 m =>
        show ExactQuotient (divide (.i64 m) (.mpq q)) m.toInt q.toRat
        unfold divide
        dsimp only
        rw [mpqSetSi64_one, Option.bind_eq_bind, Option.bind_some, mpqDiv_of_ne_zero hq,
          Mpq.toRat_ofRat]
        exact exactQuotient_of_exact hq (exact_newNumberObject _)
      | mpq p =>
        show ExactQuotient (divide (.mpq p) (.mpq q)) p.toRat q.toRat
        unfold divide
        dsimp only
        rw [mpqDiv_of_ne_zero hq]
        exact exactQuotient_of_exact hq (exact_newNumberObject _)
    · unfold DivisionOverflows at h
      split at h
      case h_1 heq => cases heq
      case h_2 => exact h

/-- Division, in the machine and as a method, raises the error for a zero divisor and is exact and
normalised otherwise, without an operation that overflows and without a zero divisor for GMP, exactly
if it is not a negative integer that divides an integer where one of the two is the least. -/
theorem division_iff (a b : NumberObject) :
    (ExactQuotient (doDivision a.1 b.1) a.1.toRat b.1.toRat ∧
      ExactQuotient (a.1.division b.1) a.1.toRat b.1.toRat) ↔ ¬DivisionOverflows a.1 b.1 :=
  (and_self_iff).trans (divide_iff a b)

/-- `INT64_MIN / -1` is not `2^63`: the negation of the dividend overflows. -/
theorem not_forall_division_exact :
    ¬∀ a b : NumberObject, ExactQuotient (doDivision a.1 b.1) a.1.toRat b.1.toRat := by
  intro h
  exact (division_i64_iff Int64.minValue (-1)).mp
    (h ⟨.i64 Int64.minValue, trivial⟩ ⟨.i64 (-1), trivial⟩) ⟨by decide, Or.inl rfl⟩

end Chloride
