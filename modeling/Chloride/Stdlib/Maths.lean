import Chloride.Runtime.Computation
import Chloride.Runtime.FloorDivision

/-!
# Rounding

`int`, `floor`, `ceil` and `round` of `stdlib/maths/init.ar` on numbers, with the handlers of the
operators that they use. The functions negate a number before they divide it, and subtract one from what
is rounded to zero: `maths_rounding_iff` says for which numbers none of that overflows. They then do what
their names say.
-/

namespace Chloride

/-! ## The functions -/

namespace Maths

/-- The literal `0.5`. -/
def half : Number := .mpq ⟨1, 2, Nat.two_pos⟩

def int (num : Number) : ExceptT ArErr Option Number := do
  if doLessThan num (.i64 0) then
    let negated ← ExceptT.lift (doNegation num)
    let quotient ← doFloorDivision negated (.i64 1)
    ExceptT.lift (doNegation quotient)
  else doFloorDivision num (.i64 1)

def floor (num : Number) : ExceptT ArErr Option Number := do
  let i ← int num
  if doLessThan num (.i64 0) && doNotEqual num i then ExceptT.lift (doSubtraction i (.i64 1))
  else return i

def ceil (num : Number) : ExceptT ArErr Option Number := do
  let i ← int num
  if doGreaterThan num (.i64 0) && doNotEqual num i then ExceptT.lift (doAddition i (.i64 1))
  else return i

def round (num precision : Number) : ExceptT ArErr Option Number := do
  let num ← doDivision num precision
  if doGreaterThanEqual num (.i64 0) then
    let sum ← ExceptT.lift (doAddition num half)
    let rounded ← floor sum
    ExceptT.lift (doMultiplication rounded precision)
  else
    let difference ← ExceptT.lift (doSubtraction num half)
    let rounded ← ceil difference
    ExceptT.lift (doMultiplication rounded precision)

end Maths

/-! ## What they should give -/

/-- A number without its fractional part. -/
def truncate (q : ℚ) : ℤ := if q < 0 then ⌈q⌉ else ⌊q⌋

/-- The nearest integer, and of two that are equally near the one further from zero. -/
def roundAway (q : ℚ) : ℤ := if 0 ≤ q then ⌊q + 1 / 2⌋ else ⌈q - 1 / 2⌉

/-- A multiple of `p` that is nearest to `q`, and of two that are equally near the one further from
zero. -/
structure NearestMultiple (q p r : ℚ) : Prop where
  multiple : ∃ k : ℤ, r = k * p
  nearest : ∀ k : ℤ, |q - r| ≤ |q - k * p|
  away : ∀ k : ℤ, |q - k * p| = |q - r| → |k * p| ≤ |r|

/-- A function gives a number object with a property. -/
def Gives (r : ExceptT ArErr Option Number) (property : ℚ → Prop) : Prop :=
  ∃ c : NumberObject, r.run = some (.ok c.1) ∧ property c.1.toRat

/-- The integer `n` in place of a number, and an integer in place of itself. -/
def InPlaceOf (q : ℚ) (n : ℤ) (r : ℚ) : Prop := r = n ∧ ∀ k : ℤ, q = k → r = q

/-- The four functions do what their names say. -/
structure Rounded (x p : NumberObject) : Prop where
  int : Gives (Maths.int x.1) (InPlaceOf x.1.toRat (truncate x.1.toRat))
  floor : Gives (Maths.floor x.1) (InPlaceOf x.1.toRat ⌊x.1.toRat⌋)
  ceil : Gives (Maths.ceil x.1) (InPlaceOf x.1.toRat ⌈x.1.toRat⌉)
  round : Gives (Maths.round x.1 p.1) (NearestMultiple x.1.toRat p.1.toRat)

theorem roundAway_neg {q : ℚ} (hq : q ≠ 0) : roundAway (-q) = -roundAway q := by
  unfold roundAway
  rcases lt_or_gt_of_ne hq with hneg | hpos
  · rw [if_pos (by linarith), if_neg (by linarith), ← Int.floor_neg]
    congr 1
    ring
  · rw [if_neg (by linarith), if_pos hpos.le, ← Int.ceil_neg]
    congr 1
    ring

/-- No integer is nearer than the rounded number, and none that is as near is further from zero. -/
theorem roundAway_nearest (q : ℚ) (k : ℤ) :
    |q - roundAway q| ≤ |q - k| ∧ (|q - k| = |q - roundAway q| → |k| ≤ |roundAway q|) := by
  -- The negative numbers are the mirror image of the positive ones.
  have hnonneg : ∀ q : ℚ, 0 ≤ q → ∀ k : ℤ, |q - roundAway q| ≤ |q - k| ∧
      (|q - k| = |q - roundAway q| → |k| ≤ |roundAway q|) := by
    intro q hq k
    have hround : roundAway q = ⌊q + 1 / 2⌋ := if_pos hq
    have hle := Int.floor_le (q + 1 / 2)
    have hlt := Int.lt_floor_add_one (q + 1 / 2)
    have hpos : 0 ≤ ⌊q + 1 / 2⌋ := Int.floor_nonneg.mpr (by linarith)
    rw [hround, abs_of_nonneg hpos]
    generalize ⌊q + 1 / 2⌋ = n at hle hlt hpos
    have hnear : |q - n| ≤ 1 / 2 := abs_le.mpr ⟨by linarith, by linarith⟩
    rcases lt_trichotomy k n with hk | rfl | hk
    · have hk' : (k : ℚ) + 1 ≤ n := by exact_mod_cast hk
      have hdistance : |q - k| = q - k := abs_of_nonneg (by linarith)
      rw [hdistance]
      refine ⟨by linarith, fun htie => ?_⟩
      have hlow : (-1 : ℚ) < k := by linarith
      have hlow' : -1 < k := by exact_mod_cast hlow
      exact abs_le.mpr ⟨by omega, by omega⟩
    · exact ⟨le_rfl, fun _ => (abs_of_nonneg hpos).le⟩
    · have hk' : (n : ℚ) + 1 ≤ k := by exact_mod_cast hk
      have hdistance : |q - k| = k - q := by
        rw [abs_sub_comm]
        exact abs_of_nonneg (by linarith)
      rw [hdistance]
      exact ⟨by linarith, fun htie => by linarith⟩
  rcases le_or_gt 0 q with hq | hq
  · exact hnonneg q hq k
  · have hmirror := hnonneg (-q) (by linarith) (-k)
    have hflip (m : ℤ) : |-q - (-m : ℤ)| = |q - m| := by
      rw [← abs_neg]
      congr 1
      push_cast
      ring
    rw [roundAway_neg hq.ne, hflip, hflip, abs_neg, abs_neg] at hmirror
    exact hmirror

/-- A multiple of `p` is as near to a number as the integer is to the number of times `p` is in it. -/
theorem nearestMultiple_roundAway (q : ℚ) {p : ℚ} (hp : 0 < p) :
    NearestMultiple q p (roundAway (q / p) * p) := by
  have hscale (k : ℤ) : |q - k * p| = |q / p - k| * p := by
    have hq : q - k * p = (q / p - k) * p := by field_simp
    rw [hq, abs_mul, abs_of_pos hp]
  have hnearest := roundAway_nearest (q / p)
  refine ⟨⟨_, rfl⟩, fun k => ?_, fun k htie => ?_⟩
  · rw [hscale, hscale]
    exact mul_le_mul_of_nonneg_right (hnearest k).1 hp.le
  · rw [hscale, hscale] at htie
    rw [abs_mul, abs_mul]
    have htie' := mul_right_cancel₀ hp.ne' htie
    have hle : |(k : ℚ)| ≤ |(roundAway (q / p) : ℚ)| := by exact_mod_cast (hnearest k).2 htie'
    exact mul_le_mul_of_nonneg_right hle (abs_nonneg p)

/-! ## The numbers that they use -/

namespace Maths

/-- The least 64-bit integer. -/
def least : ℚ := -2^63

theorem least_eq : least = (Int64.minValue.toInt : ℚ) := by
  rw [Int64.toInt_minValue]
  norm_num [least]

theorem numberOf_one : numberOf 1 = .i64 1 := numberOf_eq_i64.mpr (by
  have hone : (1 : Int64).toInt = 1 := by decide
  rw [hone, Int.cast_one])

theorem half_eq : half = numberOf (1 / 2) := by
  have hnormal : half.Normal := ⟨Nat.coprime_one_left 2, by decide⟩
  refine NumberObject.eq_numberOf (c := ⟨half, hnormal⟩) ?_
  show ((1 : ℤ) : ℚ) / ((2 : ℕ) : ℚ) = 1 / 2
  norm_num

/-- A negative integer is compared rightly with what is not greater. -/
theorem compared {a b : ℚ} (ha : ∀ n : Int64, a = n.toInt → a < 0 → b ≤ a)
    (hb : ∀ n : Int64, b = n.toInt → b < 0 → a ≤ b) : ComparedAsRationals (numberOf a) (numberOf b) := by
  refine (comparedAsRationals_iff _ _).mpr ((reading_eq_compare_iff _ _).mpr fun hmisread => ?_)
  have hneg {n : Int64} (hn : n < 0) : (n.toInt : ℚ) < 0 := by
    rw [Int64.lt_iff_toInt_lt, Int64.toInt_zero] at hn
    exact_mod_cast hn
  -- One of the two is stored as an integer and the other is not.
  unfold Misread at hmisread
  split at hmisread
  case h_1 n q hna hqb =>
    have hvalue := numberOf_eq_i64.mp hna
    have hq : q.toRat = b := by rw [← numberOf_toRat b, hqb]; rfl
    have hle := ha n hvalue (hvalue ▸ hneg hmisread.1)
    have heq : b = n.toInt := by linarith [hmisread.2.1]
    rw [numberOf_eq_i64.mpr heq] at hqb
    cases hqb
  case h_2 q n hqa hnb =>
    have hvalue := numberOf_eq_i64.mp hnb
    have hq : q.toRat = a := by rw [← numberOf_toRat a, hqa]; rfl
    have hle := hb n hvalue (hvalue ▸ hneg hmisread.1)
    have heq : a = n.toInt := by linarith [hmisread.2.1]
    rw [numberOf_eq_i64.mpr heq] at hqa
    cases hqa
  case h_3 => exact hmisread

theorem doLessThan_zero (q : ℚ) : doLessThan (numberOf q) (.i64 0) = decide (q < 0) := by
  have h := (compared_zero q).lessThan.1
  rw [numberOf_toRat] at h
  rw [h]
  have hzero : (Number.i64 0).toRat = 0 := Int.cast_zero
  simp only [hzero]

theorem doGreaterThan_zero (q : ℚ) : doGreaterThan (numberOf q) (.i64 0) = decide (0 < q) := by
  have h := (compared_zero q).greaterThan.1
  rw [numberOf_toRat] at h
  rw [h]
  have hzero : (Number.i64 0).toRat = 0 := Int.cast_zero
  simp only [hzero, gt_iff_lt]

theorem doGreaterThanEqual_zero (q : ℚ) :
    doGreaterThanEqual (numberOf q) (.i64 0) = decide (0 ≤ q) := by
  have h := (compared_zero q).greaterThanEqual.1
  rw [numberOf_toRat] at h
  rw [h]
  have hzero : (Number.i64 0).toRat = 0 := Int.cast_zero
  simp only [hzero, ge_iff_le]

theorem truncate_intCast (n : ℤ) : truncate n = n := by
  unfold truncate
  rw [Int.ceil_intCast, Int.floor_intCast, ite_self]

/-- A number is compared rightly with itself without its fractional part. -/
theorem doNotEqual_truncate (q : ℚ) :
    doNotEqual (numberOf q) (numberOf (truncate q)) = decide (q ≠ truncate q) := by
  have hcompared : ComparedAsRationals (numberOf q) (numberOf (truncate q)) := by
    apply compared
    · intro n hn _
      have hsame : (truncate q : ℚ) = q := by rw [hn, truncate_intCast]
      exact hsame.le
    · intro n hn hneg
      unfold truncate at hn hneg ⊢
      split at hneg
      case isTrue h =>
        rw [if_pos h]
        exact Int.le_ceil q
      case isFalse h =>
        have hfloor : (0 : ℤ) ≤ ⌊q⌋ := Int.floor_nonneg.mpr (not_lt.mp h)
        have hcast : (0 : ℚ) ≤ ⌊q⌋ := by exact_mod_cast hfloor
        exact absurd hneg (not_lt.mpr hcast)
  have h := hcompared.notEqual.1
  rwa [numberOf_toRat, numberOf_toRat] at h

/-- A floor division by one. -/
theorem doFloorDivision_one_computes (q : ℚ) :
    Computes (doFloorDivision (numberOf q) (.i64 1)) True ⌊q⌋ := by
  have hround : ¬RoundedToZero (numberOf q) (.i64 1) := by
    unfold RoundedToZero
    split
    case h_1 a b hab =>
      cases hab
      rintro (h | h)
      · exact absurd h.2 (by decide)
      · exact h.1 (one_dvd _)
    case h_2 => exact fun h => h
  have hfloor := ((roundedDown_iff ⟨_, numberOf_normal q⟩ ⟨.i64 1, trivial⟩).mpr hround).floorDivision.1
  have hone : (Number.i64 1).toRat = 1 := Int.cast_one
  unfold ExactUnlessZero at hfloor
  simp only [numberOf_toRat, hone, div_one, if_neg one_ne_zero] at hfloor
  obtain ⟨c, hc, hvalue⟩ := hfloor
  intro d
  show doFloorDivision (numberOf q) (.i64 1) = some (.ok d) ↔ _
  rw [hc, NumberObject.eq_numberOf hvalue, true_and, Option.some.injEq, Except.ok.injEq]
  exact eq_comm

theorem negationOverflows_iff (q : ℚ) : NegationOverflows (numberOf q) ↔ q = least := by
  unfold NegationOverflows
  rw [numberOf_eq_i64, least_eq]

/-! ## What they compute -/

/-- Only the least integer has no opposite. -/
theorem int_computes (q : ℚ) : Computes (int (numberOf q)) (q ≠ least) (truncate q) := by
  by_cases hneg : q < 0
  · have hceil : truncate q = -⌊-q⌋ := by
      unfold truncate
      rw [if_pos hneg, Int.floor_neg, neg_neg]
    -- The quotient is not negative, so that it has an opposite.
    have hquotient : ¬NegationOverflows (numberOf (⌊-q⌋ : ℤ)) := by
      rw [negationOverflows_iff]
      have hnonneg : (0 : ℤ) ≤ ⌊-q⌋ := Int.floor_nonneg.mpr (by linarith)
      have hcast : (0 : ℚ) ≤ ⌊-q⌋ := by exact_mod_cast hnonneg
      unfold least
      intro h
      linarith
    have h : Computes (int (numberOf q)) (¬NegationOverflows (numberOf q) ∧ True ∧
        ¬NegationOverflows (numberOf (⌊-q⌋ : ℤ))) (-(⌊-q⌋ : ℤ)) := by
      unfold int
      rw [doLessThan_zero, if_pos (decide_eq_true hneg)]
      exact (doNegation_computes q).bind
        ((doFloorDivision_one_computes (-q)).bind (doNegation_computes _))
    rw [hceil, Int.cast_neg]
    refine h.congr ?_
    rw [negationOverflows_iff, true_and, and_iff_left hquotient]
  · have hfloor : truncate q = ⌊q⌋ := if_neg hneg
    have h : Computes (int (numberOf q)) True ⌊q⌋ := by
      unfold int
      rw [doLessThan_zero, if_neg (by simpa using hneg)]
      exact doFloorDivision_one_computes q
    rw [hfloor]
    refine h.congr (iff_of_true trivial ?_)
    rintro rfl
    exact hneg (by norm_num [least])

theorem subtractionOverflows_one_iff (n : ℤ) :
    SubtractionOverflows (numberOf n) (.i64 1) ↔ (n : ℚ) = least := by
  rw [least_eq]
  cases hn : numberOf (n : ℚ) with
  | i64 m =>
    have hvalue := numberOf_eq_i64.mp hn
    have hone : (1 : Int64).toInt = 1 := by decide
    have hbounds := Signed64.fits_toInt m
    unfold Signed64.Fits at hbounds
    rw [hvalue, Int.cast_inj, Int64.toInt_inj]
    refine or_iff_left_of_imp fun hmissed => ?_
    unfold MissedDifference at hmissed
    omega
  | mpq r =>
    refine iff_of_false (fun h => h) fun h => ?_
    rw [numberOf_eq_i64.mpr h] at hn
    cases hn

theorem intCast_least : ((-2^63 : ℤ) : ℚ) = least := by norm_num [least]

/-- The numbers with the least integer as the integer that is not less. -/
theorem ceil_eq_least_iff (q : ℚ) : (⌈q⌉ : ℚ) = least ↔ least - 1 < q ∧ q ≤ least := by
  rw [← intCast_least, Int.cast_inj, Int.ceil_eq_iff]

/-- One is subtracted from an integer part that is the least integer, if there is a fractional part. -/
theorem floor_computes (q : ℚ) :
    Computes (floor (numberOf q)) (¬(least - 1 < q ∧ q ≤ least)) ⌊q⌋ := by
  by_cases hdown : q < 0 ∧ q ≠ truncate q
  · have hceil : truncate q = ⌈q⌉ := if_pos hdown.1
    rw [hceil] at hdown
    have hvalue : (⌈q⌉ : ℚ) - 1 = ⌊q⌋ := by
      have hle := Int.ceil_le_floor_add_one q
      have hge := Int.floor_le_ceil q
      have hfrac : ⌊q⌋ ≠ ⌈q⌉ := fun h =>
        hdown.2 (le_antisymm (Int.le_ceil q) (h ▸ Int.floor_le q))
      have hone : ⌈q⌉ = ⌊q⌋ + 1 := by omega
      rw [hone]
      push_cast
      ring
    have h : Computes (floor (numberOf q))
        (q ≠ least ∧ ¬SubtractionOverflows (numberOf ⌈q⌉) (numberOf 1)) (⌈q⌉ - 1) := by
      refine (int_computes q).bind ?_
      rw [doLessThan_zero, doNotEqual_truncate, hceil, if_pos (by simpa using hdown), ← numberOf_one]
      exact doSubtraction_computes _ _
    rw [← hvalue]
    refine h.congr ?_
    rw [numberOf_one, subtractionOverflows_one_iff, ceil_eq_least_iff]
    refine and_iff_right_of_imp fun hrange hleast => hrange ?_
    rw [hleast]
    exact ⟨by linarith, le_rfl⟩
  · have hvalue : truncate q = ⌊q⌋ := by
      by_cases hneg : q < 0
      · have hint : q = truncate q := by
          by_contra h
          exact hdown ⟨hneg, h⟩
        rw [hint, truncate_intCast, Int.floor_intCast]
      · exact if_neg hneg
    have h : Computes (floor (numberOf q)) (q ≠ least ∧ True) (truncate q) := by
      refine (int_computes q).bind ?_
      rw [doLessThan_zero, doNotEqual_truncate, if_neg (by simpa using hdown)]
      exact .pure _
    rw [← hvalue]
    refine h.congr ?_
    rw [and_true, ← ceil_eq_least_iff, not_iff_not]
    by_cases hneg : q < 0
    · have hint : q = truncate q := by
        by_contra h
        exact hdown ⟨hneg, h⟩
      have hceil : truncate q = ⌈q⌉ := if_pos hneg
      rw [← hceil, ← hint]
    · -- Such a number is not near the least integer.
      have hceil : (0 : ℤ) ≤ ⌈q⌉ := Int.ceil_nonneg (not_lt.mp hneg)
      have hcast : (0 : ℚ) ≤ ⌈q⌉ := by exact_mod_cast hceil
      have hleast : least < 0 := by norm_num [least]
      exact iff_of_false (fun h => hneg (h ▸ hleast)) fun h => absurd (h ▸ hcast) (not_le.mpr hleast)

/-- What is added to has an integer part. -/
theorem ceil_computes (q : ℚ) : Computes (ceil (numberOf q)) (q ≠ least) ⌈q⌉ := by
  by_cases hup : 0 < q ∧ q ≠ truncate q
  · have hfloor : truncate q = ⌊q⌋ := if_neg (not_lt.mpr hup.1.le)
    rw [hfloor] at hup
    have hvalue : (⌊q⌋ : ℚ) + 1 = ⌈q⌉ := by
      have hle := Int.ceil_le_floor_add_one q
      have hge := Int.floor_le_ceil q
      have hfrac : ⌊q⌋ ≠ ⌈q⌉ := fun h =>
        hup.2 (le_antisymm (h ▸ Int.le_ceil q) (Int.floor_le q))
      have hone : ⌈q⌉ = ⌊q⌋ + 1 := by omega
      rw [hone]
      push_cast
      ring
    have h : Computes (ceil (numberOf q)) (q ≠ least ∧ True) (⌊q⌋ + 1) := by
      refine (int_computes q).bind ?_
      rw [doGreaterThan_zero, doNotEqual_truncate, hfloor, if_pos (by simpa using hup),
        ← numberOf_one]
      exact doAddition_computes _ _
    rw [← hvalue]
    exact h.congr (and_true _).to_iff
  · have hvalue : truncate q = ⌈q⌉ := by
      by_cases hpos : 0 < q
      · have hint : q = truncate q := by
          by_contra h
          exact hup ⟨hpos, h⟩
        rw [hint, truncate_intCast, Int.ceil_intCast]
      · rcases (not_lt.mp hpos).lt_or_eq with hneg | rfl
        · exact if_pos hneg
        · rw [← Int.cast_zero, truncate_intCast, Int.ceil_intCast]
    have h : Computes (ceil (numberOf q)) (q ≠ least ∧ True) (truncate q) := by
      refine (int_computes q).bind ?_
      rw [doGreaterThan_zero, doNotEqual_truncate, if_neg (by simpa using hup)]
      exact .pure _
    rw [← hvalue]
    exact h.congr (and_true _).to_iff

theorem subtractionOverflows_half (q : ℚ) : ¬SubtractionOverflows (numberOf q) half := by
  unfold SubtractionOverflows half
  split
  case h_1 h => cases h
  case h_2 => exact fun h => h

/-- The integer that `ceil` is asked for is the least one for one quotient only. -/
theorem round_computes (q : ℚ) {p : ℚ} (hp : 0 < p) :
    Computes (round (numberOf q) (numberOf p)) (q / p ≠ least + 1 / 2)
      (roundAway (q / p) * p) := by
  have hdivision : p ≠ 0 ∧ ¬DivisionOverflows (numberOf q) (numberOf p) := by
    refine ⟨hp.ne', fun h => ?_⟩
    unfold DivisionOverflows at h
    split at h
    case h_1 a b _ hb =>
      have hvalue := numberOf_eq_i64.mp hb
      have hneg : (b.toInt : ℚ) < 0 := by exact_mod_cast h.1
      linarith
    case h_2 => exact h
  have hleast : least < 0 := by norm_num [least]
  by_cases hnonneg : 0 ≤ q / p
  · have haway : roundAway (q / p) = ⌊q / p + 1 / 2⌋ := if_pos hnonneg
    have hfloor : ¬(least - 1 < q / p + 1 / 2 ∧ q / p + 1 / 2 ≤ least) := fun h => by
      linarith [h.2]
    have h : Computes (round (numberOf q) (numberOf p))
        ((p ≠ 0 ∧ ¬DivisionOverflows (numberOf q) (numberOf p)) ∧ True ∧
          ¬(least - 1 < q / p + 1 / 2 ∧ q / p + 1 / 2 ≤ least) ∧ True)
        (⌊q / p + 1 / 2⌋ * p) := by
      refine (doDivision_computes q p).bind ?_
      rw [doGreaterThanEqual_zero, if_pos (by simpa using hnonneg), half_eq]
      exact (doAddition_computes _ _).bind
        ((floor_computes _).bind (doMultiplication_computes _ _))
    rw [haway]
    refine h.congr (iff_of_true ⟨hdivision, trivial, hfloor, trivial⟩ ?_)
    intro heq
    have hlow : least + 1 / 2 < 0 := by norm_num [least]
    linarith
  · have haway : roundAway (q / p) = ⌈q / p - 1 / 2⌉ := if_neg hnonneg
    have hhalf : ¬SubtractionOverflows (numberOf (q / p)) (numberOf (1 / 2)) := by
      rw [← half_eq]
      exact subtractionOverflows_half _
    have h : Computes (round (numberOf q) (numberOf p))
        ((p ≠ 0 ∧ ¬DivisionOverflows (numberOf q) (numberOf p)) ∧
          ¬SubtractionOverflows (numberOf (q / p)) (numberOf (1 / 2)) ∧ q / p - 1 / 2 ≠ least ∧ True)
        (⌈q / p - 1 / 2⌉ * p) := by
      refine (doDivision_computes q p).bind ?_
      rw [doGreaterThanEqual_zero, if_neg (by simpa using hnonneg), half_eq]
      exact (doSubtraction_computes _ _).bind
        ((ceil_computes _).bind (doMultiplication_computes _ _))
    rw [haway]
    refine h.congr ?_
    rw [and_iff_right hdivision, and_iff_right hhalf, and_true, ne_eq, ne_eq, sub_eq_iff_eq_add]

/-- What computes a number gives it exactly under its condition. -/
theorem gives_iff {r : ExceptT ArErr Option Number} {condition : Prop} {q : ℚ}
    {property : ℚ → Prop} (h : Computes r condition q) (hproperty : property q) :
    Gives r property ↔ condition := by
  constructor
  · rintro ⟨c, hc, -⟩
    exact ((h c.1).mp hc).1
  · intro hcondition
    refine ⟨⟨_, numberOf_normal q⟩, (h _).mpr ⟨hcondition, rfl⟩, ?_⟩
    rwa [numberOf_toRat]

theorem int_iff (x : NumberObject) :
    Gives (int x.1) (InPlaceOf x.1.toRat (truncate x.1.toRat)) ↔ x.1.toRat ≠ least := by
  have h := int_computes x.1.toRat
  rw [← NumberObject.eq_numberOf rfl] at h
  refine gives_iff h ⟨rfl, fun k hk => ?_⟩
  rw [hk, truncate_intCast]

theorem floor_iff (x : NumberObject) :
    Gives (floor x.1) (InPlaceOf x.1.toRat ⌊x.1.toRat⌋) ↔
      ¬(least - 1 < x.1.toRat ∧ x.1.toRat ≤ least) := by
  have h := floor_computes x.1.toRat
  rw [← NumberObject.eq_numberOf rfl] at h
  refine gives_iff h ⟨rfl, fun k hk => ?_⟩
  rw [hk, Int.floor_intCast]

theorem ceil_iff (x : NumberObject) :
    Gives (ceil x.1) (InPlaceOf x.1.toRat ⌈x.1.toRat⌉) ↔ x.1.toRat ≠ least := by
  have h := ceil_computes x.1.toRat
  rw [← NumberObject.eq_numberOf rfl] at h
  refine gives_iff h ⟨rfl, fun k hk => ?_⟩
  rw [hk, Int.ceil_intCast]

theorem round_iff (x : NumberObject) {p : NumberObject} (hp : 0 < p.1.toRat) :
    Gives (round x.1 p.1) (NearestMultiple x.1.toRat p.1.toRat) ↔
      x.1.toRat / p.1.toRat ≠ least + 1 / 2 := by
  have h := round_computes x.1.toRat hp
  rw [← NumberObject.eq_numberOf rfl, ← NumberObject.eq_numberOf rfl] at h
  exact gives_iff h (nearestMultiple_roundAway _ hp)

end Maths

/-- The rounding functions do what their names say for every number but those next to the least integer,
where they negate it or subtract from it. -/
theorem maths_rounding_iff (x : NumberObject) (p : {p : NumberObject // 0 < p.1.toRat}) :
    (Rounded x p ↔ ¬(Maths.least - 1 < x.1.toRat ∧ x.1.toRat ≤ Maths.least) ∧
      x.1.toRat / p.1.1.toRat ≠ Maths.least + 1 / 2) ∧
    (Gives (Maths.int x.1) (InPlaceOf x.1.toRat (truncate x.1.toRat)) ↔ x.1.toRat ≠ Maths.least) ∧
    (Gives (Maths.floor x.1) (InPlaceOf x.1.toRat ⌊x.1.toRat⌋) ↔
      ¬(Maths.least - 1 < x.1.toRat ∧ x.1.toRat ≤ Maths.least)) ∧
    (Gives (Maths.ceil x.1) (InPlaceOf x.1.toRat ⌈x.1.toRat⌉) ↔ x.1.toRat ≠ Maths.least) ∧
    (Gives (Maths.round x.1 p.1.1) (NearestMultiple x.1.toRat p.1.1.toRat) ↔
      x.1.toRat / p.1.1.toRat ≠ Maths.least + 1 / 2) := by
  refine ⟨⟨fun h => ?_, fun ⟨hrange, hquotient⟩ => ?_⟩, Maths.int_iff x, Maths.floor_iff x,
    Maths.ceil_iff x, Maths.round_iff x p.2⟩
  · exact ⟨(Maths.floor_iff x).mp h.floor, (Maths.round_iff x p.2).mp h.round⟩
  · -- The least integer is among the numbers that `floor` fails for.
    have hleast : x.1.toRat ≠ Maths.least := by
      intro h
      apply hrange
      rw [h]
      exact ⟨by linarith, le_rfl⟩
    exact ⟨(Maths.int_iff x).mpr hleast, (Maths.floor_iff x).mpr hrange,
      (Maths.ceil_iff x).mpr hleast, (Maths.round_iff x p.2).mpr hquotient⟩

/-- `maths.floor(-9223372036854775808.5)` subtracts one from the least integer. -/
theorem not_forall_rounded : ¬∀ (x : NumberObject) (p : {p : NumberObject // 0 < p.1.toRat}),
    Rounded x p := by
  intro h
  have hone : 0 < (Number.i64 1).toRat := by
    have hvalue : (Number.i64 1).toRat = 1 := Int.cast_one
    rw [hvalue]
    exact one_pos
  have hrounded := h ⟨_, numberOf_normal (Maths.least - 1 / 2)⟩ ⟨⟨.i64 1, trivial⟩, hone⟩
  have hrange := (Maths.floor_iff _).mp hrounded.floor
  rw [numberOf_toRat] at hrange
  exact hrange ⟨by linarith, by linarith⟩

end Chloride
