import Mathlib

/-!
# Signed 64-bit arithmetic as C defines it

The operations of C on `int64_t`: they give the exact result if it fits, and are undefined, `none`,
if it does not or if a divisor is zero. Division truncates. `land` and `lor` are `&&` and `||`, which
look at their second operand only if they have to.

The overflow tests at the end are the usual ones that look only at operands and at quotients of the
limits by them.
-/

namespace Signed64

/-- The numbers that fit. -/
def Fits (z : ℤ) : Prop := -2^63 ≤ z ∧ z < 2^63

instance (z : ℤ) : Decidable (Fits z) := inferInstanceAs (Decidable (_ ∧ _))

/-- The result of an operation, of its exact result. -/
def exact (z : ℤ) : Option Int64 := if Fits z then some (Int64.ofInt z) else none

def neg (a : Int64) : Option Int64 := exact (-a.toInt)

def add (a b : Int64) : Option Int64 := exact (a.toInt + b.toInt)

def sub (a b : Int64) : Option Int64 := exact (a.toInt - b.toInt)

def mul (a b : Int64) : Option Int64 := exact (a.toInt * b.toInt)

/-- `a / b`. -/
def quot (a b : Int64) : Option Int64 := if b = 0 then none else exact (a.toInt.tdiv b.toInt)

/-- `a % b`, which is undefined where `a / b` is. -/
def rem (a b : Int64) : Option Int64 :=
  if b = 0 then none
  else if Fits (a.toInt.tdiv b.toInt) then exact (a.toInt.tmod b.toInt) else none

/-- `p && q`. -/
def land (p : Bool) (q : Option Bool) : Option Bool := if p then q else some false

/-- `p || q`. -/
def lor (p q : Option Bool) : Option Bool := p.bind fun b => if b then some true else q

theorem fits_toInt (a : Int64) : Fits a.toInt := ⟨a.le_toInt, a.toInt_lt⟩

theorem toInt_ofInt {z : ℤ} (h : Fits z) : (Int64.ofInt z).toInt = z :=
  Int64.toInt_ofInt_of_le h.1 h.2

theorem exact_eq_some {z : ℤ} {c : Int64} : exact z = some c ↔ c.toInt = z := by
  unfold exact
  constructor
  · intro h
    split at h
    case isTrue hfits =>
      rw [← Option.some.inj h]
      exact toInt_ofInt hfits
    case isFalse => cases h
  · intro h
    have hfits : Fits z := h ▸ fits_toInt c
    rw [if_pos hfits, ← h, Int64.ofInt_toInt]

theorem exact_eq_none {z : ℤ} : exact z = none ↔ ¬Fits z := by
  unfold exact
  split <;> simp_all

theorem exact_of_fits {z : ℤ} (h : Fits z) : ∃ c, exact z = some c ∧ c.toInt = z :=
  ⟨Int64.ofInt z, if_pos h, toInt_ofInt h⟩

theorem toInt_eq_zero {a : Int64} : a.toInt = 0 ↔ a = 0 := by
  rw [← Int64.toInt_inj, Int64.toInt_zero]

theorem toInt_eq_minValue {a : Int64} : a.toInt = -2^63 ↔ a = Int64.minValue := by
  rw [← Int64.toInt_inj, Int64.toInt_minValue]

/-- Only one quotient does not fit. -/
theorem fits_tdiv_iff {a b : Int64} (hb : b ≠ 0) :
    Fits (a.toInt.tdiv b.toInt) ↔ ¬(a = Int64.minValue ∧ b = -1) := by
  have ha := fits_toInt a
  have hb0 : b.toInt ≠ 0 := fun h => hb (toInt_eq_zero.mp h)
  have hminus : b = -1 ↔ b.toInt = -1 := by rw [← Int64.toInt_inj]; rfl
  have habs : (a.toInt.tdiv b.toInt).natAbs = a.toInt.natAbs / b.toInt.natAbs :=
    Int.natAbs_tdiv a.toInt b.toInt
  rw [← toInt_eq_minValue, hminus]
  unfold Fits at *
  by_cases hone : b.toInt = -1
  · rw [hone, Int.tdiv_neg, Int.tdiv_one]
    omega
  · -- The quotient is at most the dividend, and if it is as large, both are of the same sign.
    have hle : a.toInt.natAbs / b.toInt.natAbs ≤ a.toInt.natAbs := Nat.div_le_self _ _
    rcases Nat.lt_or_ge b.toInt.natAbs 2 with hsmall | hlarge
    · have hunit : b.toInt = 1 := by omega
      rw [hunit, Int.tdiv_one]
      omega
    · have hhalf : a.toInt.natAbs / b.toInt.natAbs ≤ a.toInt.natAbs / 2 :=
        Nat.div_le_div_left hlarge (by decide)
      omega

theorem quot_of_fits {a b : Int64} (hb : b ≠ 0) (h : Fits (a.toInt.tdiv b.toInt)) :
    ∃ q, quot a b = some q ∧ q.toInt = a.toInt.tdiv b.toInt := by
  unfold quot
  rw [if_neg hb]
  exact exact_of_fits h

theorem rem_of_fits {a b : Int64} (hb : b ≠ 0) (h : Fits (a.toInt.tdiv b.toInt)) :
    ∃ r, rem a b = some r ∧ r.toInt = a.toInt.tmod b.toInt := by
  have hb' := fits_toInt b
  have hb0 : b.toInt ≠ 0 := fun h => hb (toInt_eq_zero.mp h)
  unfold rem
  rw [if_neg hb, if_pos h]
  apply exact_of_fits
  have hlt : (a.toInt.tmod b.toInt).natAbs < b.toInt.natAbs := by
    rw [Int.natAbs_tmod]
    exact Nat.mod_lt _ (by omega)
  unfold Fits at *
  omega

/-! ## Unsigned numbers -/

/-- The unsigned number an integer is taken for. -/
theorem toNat_toUInt64 (n : Int64) :
    (n.toUInt64.toNat : ℤ) = if n < 0 then n.toInt + 2^64 else n.toInt := by
  have hbounds := fits_toInt n
  have hcast : (n.toUInt64.toNat : ℤ) = n.toInt % 2^64 := by
    show (n.toBitVec.toNat : ℤ) = n.toBitVec.toInt % ((2^64 : ℕ) : ℤ)
    rw [BitVec.toInt_eq_toNat_bmod, Int.bmod_emod]
    have hlt := n.toBitVec.isLt
    omega
  unfold Fits at hbounds
  rw [hcast]
  split
  case isTrue hneg =>
    rw [Int64.lt_iff_toInt_lt, Int64.toInt_zero] at hneg
    omega
  case isFalse hnonneg =>
    rw [Int64.lt_iff_toInt_lt, Int64.toInt_zero] at hnonneg
    omega

/-- A sum that fits is the sum of the integers. -/
theorem toInt_add {a b : Int64} (h : Fits (a.toInt + b.toInt)) : (a + b).toInt = a.toInt + b.toInt := by
  have hsum : a + b = Int64.ofInt (a.toInt + b.toInt) := by
    rw [Int64.ofInt_add, Int64.ofInt_toInt, Int64.ofInt_toInt]
  rw [hsum, toInt_ofInt h]

/-- A size that is not too large for the sign, taken for an integer. -/
theorem toInt_toInt64 {x : UInt64} (h : x.toNat < 2^63) : x.toInt64.toInt = x.toNat := by
  show x.toBitVec.toInt = x.toNat
  rw [BitVec.toInt_eq_toNat_of_lt (by show 2 * x.toNat < 2^64; omega)]
  rfl

/-! ## Overflow tests -/

/-- `a > MAX - b` and `a < MIN - b` tell whether a sum of two positive, or two negative, numbers
overflows; other sums do not. -/
theorem fits_add_iff {a b : ℤ} (ha : Fits a) (hb : Fits b) : Fits (a + b) ↔
    ¬(0 < a ∧ 0 < b ∧ 2^63 - 1 - b < a) ∧ ¬(a < 0 ∧ b < 0 ∧ a < -2^63 - b) := by
  unfold Fits at *
  omega

/-- A product of positive numbers is above a limit if one of them is above the quotient of the limit
by the other. -/
theorem lt_mul_iff_tdiv_lt {m a b : ℤ} (hm : 0 ≤ m) (hb : 0 < b) : m < a * b ↔ m.tdiv b < a := by
  rw [Int.tdiv_eq_ediv_of_nonneg hm, Int.ediv_lt_iff_lt_mul hb]

/-- The test for products, by the signs of the factors. -/
theorem fits_mul_iff {a b : ℤ} : Fits (a * b) ↔
    ¬(if 0 < a then if 0 < b then (2^63 - 1 : ℤ).tdiv b < a else b < (-2^63 : ℤ).tdiv a
      else if 0 < b then a < (-2^63 : ℤ).tdiv b else a ≠ 0 ∧ b < (2^63 - 1 : ℤ).tdiv a) := by
  unfold Fits at *
  have hmax : (0 : ℤ) ≤ 2^63 - 1 := by norm_num
  have hmin : (0 : ℤ) ≤ 2^63 := by norm_num
  split
  case isTrue hapos =>
    split
    case isTrue hbpos =>
      -- The product is positive: only the upper limit counts.
      have hpos : 0 < a * b := Int.mul_pos hapos hbpos
      have htest := lt_mul_iff_tdiv_lt (a := a) hmax hbpos
      omega
    case isFalse hbneg =>
      -- The product is not positive: only the lower limit counts.
      have hnonpos : a * b ≤ 0 := Int.mul_nonpos_of_nonneg_of_nonpos hapos.le (not_lt.mp hbneg)
      have htest := lt_mul_iff_tdiv_lt (a := -b) hmin hapos
      have hneg : -b * a = -(a * b) := by ring
      rw [Int.neg_tdiv]
      omega
  case isFalse haneg =>
    split
    case isTrue hbpos =>
      have hnonpos : a * b ≤ 0 := Int.mul_nonpos_of_nonpos_of_nonneg (not_lt.mp haneg) hbpos.le
      have htest := lt_mul_iff_tdiv_lt (a := -a) hmin hbpos
      have hneg : -a * b = -(a * b) := by ring
      rw [Int.neg_tdiv]
      omega
    case isFalse hbneg =>
      -- The product is not negative; one factor can be zero.
      have hnonneg : 0 ≤ a * b := Int.mul_nonneg_of_nonpos_of_nonpos (not_lt.mp haneg) (not_lt.mp hbneg)
      rcases eq_or_ne a 0 with rfl | hne
      · simp
      · have htest := lt_mul_iff_tdiv_lt (a := -b) hmax (show 0 < -a by omega)
        have hneg : -b * -a = a * b := by ring
        rw [Int.tdiv_neg] at htest
        omega

end Signed64
