import Chloride.Runtime.Arithmetic

/-!
# Exponentiation

Powers of numbers: `DO_EXPONENTIATION` of `src/runtime/runtime.c`, and `__exponent__`, `mpq_pow_z`
and `mpq_pow_q` of `src/runtime/objects/number/number.c`. Two 64-bit integers with an exponent that
is not negative are first tried with 64-bit multiplications that report overflow, and computed again
with GMP if one overflows. Both loops square repeatedly, and keep `result * a ^ e`
(`powInt64_eq_some`, `mpqPowLoop_eq`).

A power with a fraction as exponent is computed with floating-point numbers of MPFR. It is a parameter
here. An inversion of zero, which ends the process, is `none`.
-/

namespace Chloride

/-- The loop of the 64-bit path; `none` is `overflow`. -/
def powInt64 (result a : Int64) (e : ℕ) : Option Int64 :=
  if _ : 0 < e then do
    let result ← (if e % 2 = 1 then Signed64.mul result a else some result)
    let a ← (if e / 2 ≠ 0 then Signed64.mul a a else some a)
    powInt64 result a (e / 2)
  else some result
termination_by e

/-- The loop of `mpq_pow_z`. -/
def mpqPowLoop (result tmp : Mpq) (e : ℕ) : Mpq :=
  if _ : 0 < e then
    mpqPowLoop (if e % 2 = 1 then mpqMul result tmp else result) (mpqMul tmp tmp) (e / 2)
  else result
termination_by e

/-- `mpq_inv`, which ends the process for zero. -/
def mpqInv (a : Mpq) : Option Mpq := if a.num = 0 then none else some (Mpq.ofRat a.toRat⁻¹)

/-- `mpq_pow_z`. -/
def mpqPowZ (base : Mpq) (exp : ℤ) : Option Mpq :=
  let result := mpqPowLoop (Mpq.ofRat 1) base exp.natAbs
  if exp < 0 then mpqInv result else some result

section

-- The power with a fraction as exponent, for a base that is not zero.
variable (mpfrPow : Mpq → Mpq → Option Mpq)

/-- `mpq_pow_q`. -/
def mpqPowQ (e n : Mpq) : Option Mpq := if n.den = 1 then mpqPowZ e n.num else mpfrPow e n

/-- The path of GMP, with the checks in front of it. -/
def exponentiateMpq (a b : Mpq) : Option (Except ArErr Number) :=
  if a.num = 0 ∧ b.num ≤ 0 then
    return .error ⟨"MathsError", "0 cannot be raised to zero or a negative power"⟩
  else if a.num < 0 ∧ b.den ≠ 1 then
    return .error ⟨"MathsError", "Negative base with fractional exponent is not a real number"⟩
  else do return .ok (newNumberObject (← mpqPowQ mpfrPow a b))

/-- The code of an exponentiation. -/
def exponentiate : Number → Number → Option (Except ArErr Number)
  | .i64 base, .i64 exp =>
    if exp < 0 then do
      let a ← mpqSetSi64 base 1
      let b ← mpqSetSi64 exp 1
      return .ok (newNumberObject (← mpqPowQ mpfrPow a b))
    else
      match powInt64 1 base exp.toInt.toNat with
      | some result => return .ok (.i64 result)
      -- It overflows: once more with GMP.
      | none => do exponentiateMpq mpfrPow (← mpqSetSi64 base 1) (← mpqSetSi64 exp 1)
  | .i64 base, .mpq exp => do exponentiateMpq mpfrPow (← mpqSetSi64 base 1) exp
  | .mpq base, .i64 exp => do exponentiateMpq mpfrPow base (← mpqSetSi64 exp 1)
  | .mpq base, .mpq exp => exponentiateMpq mpfrPow base exp

/-- `DO_EXPONENTIATION` on numbers. -/
def doExponentiation : Number → Number → Option (Except ArErr Number) := exponentiate mpfrPow

/-- `ARGON_NUMBER_TYPE___exponent__` on numbers. -/
def Number.exponent : Number → Number → Option (Except ArErr Number) := exponentiate mpfrPow

end

/-- The result of an integer power: an error for a negative power of zero, and otherwise the power,
exact and normalised. -/
def ExactPower (r : Option (Except ArErr Number)) (p : ℚ) (z : ℤ) : Prop :=
  if p = 0 ∧ z < 0 then ∃ e, r = some (.error e)
  else ∃ c : NumberObject, r = some (.ok c.1) ∧ c.1.toRat = p ^ z

/-- Where a 64-bit zero is inverted: its power with a negative 64-bit exponent. -/
def InvertsZero : Number → Number → Prop
  | .i64 b, .i64 e => b = 0 ∧ e < 0
  | _, _ => False

/-! ## The loops -/

/-- A turn of the loop: the exponent is halved and the base squared. -/
theorem mul_pow_half {M : Type*} [Monoid M] (r a : M) (e : ℕ) :
    (if e % 2 = 1 then r * a else r) * (a * a) ^ (e / 2) = r * a ^ e := by
  have hsquare : (a * a) ^ (e / 2) = a ^ (2 * (e / 2)) := by rw [← pow_two, pow_mul]
  have he : 2 * (e / 2) + e % 2 = e := Nat.div_add_mod e 2
  rw [hsquare]
  split
  case isTrue hodd =>
    calc r * a * a ^ (2 * (e / 2)) = r * a ^ (2 * (e / 2) + 1) := by rw [mul_assoc, ← pow_succ']
      _ = r * a ^ e := by rw [← hodd, he]
  case isFalse heven =>
    have he' : 2 * (e / 2) = e := by omega
    rw [he']

/-- A product that does not overflow. -/
theorem mul_eq_some {a b c : Int64} : Signed64.mul a b = some c ↔ c.toInt = a.toInt * b.toInt :=
  Signed64.exact_eq_some

/-- Without overflow the 64-bit loop gives the power. -/
theorem powInt64_eq_some {result a c : Int64} {e : ℕ} (h : powInt64 result a e = some c) :
    c.toInt = result.toInt * a.toInt ^ e := by
  induction e using Nat.strong_induction_on generalizing result a with
  | _ e ih =>
    unfold powInt64 at h
    split at h
    case isFalse hzero =>
      rw [Nat.eq_zero_of_not_pos hzero, pow_zero, mul_one, Option.some.inj h]
    case isTrue hpos =>
      obtain ⟨r, hr, h⟩ := Option.bind_eq_some_iff.mp h
      obtain ⟨a', ha', h⟩ := Option.bind_eq_some_iff.mp h
      have hstep := ih (e / 2) (by omega) h
      have hresult : r.toInt = if e % 2 = 1 then result.toInt * a.toInt else result.toInt := by
        split at hr
        case isTrue hodd => rw [if_pos hodd, mul_eq_some.mp hr]
        case isFalse heven => rw [if_neg heven, Option.some.inj hr]
      -- The base is squared unless the loop ends here.
      have hpow : a'.toInt ^ (e / 2) = (a.toInt * a.toInt) ^ (e / 2) := by
        split at ha'
        case isTrue => rw [mul_eq_some.mp ha']
        case isFalse hlast => rw [not_not.mp hlast, pow_zero, pow_zero]
      rw [hstep, hresult, hpow, mul_pow_half]

/-- The loop of GMP gives the power. -/
theorem mpqPowLoop_eq (p : ℚ) (tmp : Mpq) (e : ℕ) :
    mpqPowLoop (Mpq.ofRat p) tmp e = Mpq.ofRat (p * tmp.toRat ^ e) := by
  induction e using Nat.strong_induction_on generalizing p tmp with
  | _ e ih =>
    unfold mpqPowLoop
    split
    case isFalse hzero => rw [Nat.eq_zero_of_not_pos hzero, pow_zero, mul_one]
    case isTrue hpos =>
      have hresult : (if e % 2 = 1 then mpqMul (Mpq.ofRat p) tmp else Mpq.ofRat p) =
          Mpq.ofRat (if e % 2 = 1 then p * tmp.toRat else p) := by
        unfold mpqMul
        rw [Mpq.toRat_ofRat]
        split <;> rfl
      have hsquare : (mpqMul tmp tmp).toRat = tmp.toRat * tmp.toRat := Mpq.toRat_ofRat _
      rw [hresult, ih (e / 2) (by omega), hsquare, mul_pow_half]

/-- An integer power is exact unless zero is inverted. -/
theorem mpqPowZ_eq {base : Mpq} {z : ℤ} (h : ¬(base.toRat = 0 ∧ z < 0)) :
    mpqPowZ base z = some (Mpq.ofRat (base.toRat ^ z)) := by
  unfold mpqPowZ
  dsimp only
  rw [mpqPowLoop_eq, one_mul]
  split
  case isTrue hneg =>
    have hne : base.toRat ^ z.natAbs ≠ 0 := pow_ne_zero _ fun h0 => h ⟨h0, hneg⟩
    have hnum : (Mpq.ofRat (base.toRat ^ z.natAbs)).num ≠ 0 := Rat.num_ne_zero.mpr hne
    have hz : z = -(z.natAbs : ℤ) := by omega
    unfold mpqInv
    rw [if_neg hnum, Mpq.toRat_ofRat, ← zpow_natCast, ← zpow_neg, ← hz]
  case isFalse hnonneg =>
    have hz : z = (z.natAbs : ℤ) := by omega
    rw [← zpow_natCast, ← hz]

/-- The inversion of zero. -/
theorem mpqPowZ_zero {base : Mpq} {z : ℤ} (hbase : base.toRat = 0) (hz : z < 0) :
    mpqPowZ base z = none := by
  have hpow : base.toRat ^ z.natAbs = 0 := by rw [hbase, zero_pow (by omega)]
  unfold mpqPowZ mpqInv
  dsimp only
  rw [mpqPowLoop_eq, one_mul, hpow, if_pos hz]
  rfl

/-! ## The results -/

section

variable {mpfrPow : Mpq → Mpq → Option Mpq}

theorem mpqPowQ_eq {a : Mpq} {z : ℤ} (h : ¬(a.toRat = 0 ∧ z < 0)) :
    mpqPowQ mpfrPow a (Mpq.ofRat z) = some (Mpq.ofRat (a.toRat ^ z)) := by
  have hden : (Mpq.ofRat (z : ℚ)).den = 1 := Rat.den_intCast z
  have hnum : (Mpq.ofRat (z : ℚ)).num = z := Rat.num_intCast z
  unfold mpqPowQ
  rw [if_pos hden, hnum, mpqPowZ_eq h]

/-- The path of GMP is right for integer exponents, but for zero to the power of zero. -/
theorem exponentiateMpq_exact {a : Mpq} {z : ℤ} (h : a.toRat = 0 → z ≠ 0) :
    ExactPower (exponentiateMpq mpfrPow a (Mpq.ofRat z)) a.toRat z := by
  have hden : (Mpq.ofRat (z : ℚ)).den = 1 := Rat.den_intCast z
  have hnum : (Mpq.ofRat (z : ℚ)).num = z := Rat.num_intCast z
  have ha0 : a.num = 0 ↔ a.toRat = 0 := Mpq.toRat_eq_zero.symm
  unfold ExactPower exponentiateMpq
  rw [hnum, hden]
  by_cases hzero : a.toRat = 0 ∧ z < 0
  · -- The check finds the negative power of zero.
    rw [if_pos hzero, if_pos ⟨ha0.mpr hzero.1, hzero.2.le⟩]
    exact ⟨_, rfl⟩
  · have hcheck : ¬(a.num = 0 ∧ z ≤ 0) := by
      rintro ⟨ha, hz⟩
      have hne := h (ha0.mp ha)
      exact hzero ⟨ha0.mp ha, by omega⟩
    rw [if_neg hzero, if_neg hcheck, if_neg fun hfraction => hfraction.2 rfl, mpqPowQ_eq hzero]
    obtain ⟨c, hc, hvalue⟩ := exact_newNumberObject (a.toRat ^ z)
    exact ⟨c, congrArg (Option.map Except.ok) hc, hvalue⟩

/-- Powers of 64-bit integers. -/
theorem exponentiate_i64_iff (base exp : Int64) :
    ExactPower (exponentiate mpfrPow (.i64 base) (.i64 exp)) base.toInt exp.toInt ↔
      ¬(base = 0 ∧ exp < 0) := by
  have hbase : (Mpq.ofRat (base.toInt : ℚ)).toRat = base.toInt := Mpq.toRat_ofRat _
  have hbase0 : (base.toInt : ℚ) = 0 ↔ base = 0 := Int.cast_eq_zero.trans Signed64.toInt_eq_zero
  have hneg : exp < 0 ↔ exp.toInt < 0 := Int64.lt_iff_toInt_lt
  unfold exponentiate
  dsimp only
  rw [mpqSetSi64_one, mpqSetSi64_one, Option.bind_eq_bind, Option.bind_some]
  by_cases hexp : exp < 0
  · -- A negative exponent: the power is inverted without a check of the base.
    rw [if_pos hexp, Option.bind_some]
    by_cases hzero : base = 0
    · refine iff_of_false ?_ fun h => h ⟨hzero, hexp⟩
      have hnone : mpqPowQ mpfrPow (Mpq.ofRat base.toInt) (Mpq.ofRat exp.toInt) = none := by
        have hden : (Mpq.ofRat (exp.toInt : ℚ)).den = 1 := Rat.den_intCast exp.toInt
        have hnum : (Mpq.ofRat (exp.toInt : ℚ)).num = exp.toInt := Rat.num_intCast exp.toInt
        unfold mpqPowQ
        rw [if_pos hden, hnum, mpqPowZ_zero (hbase.trans (hbase0.mpr hzero)) (hneg.mp hexp)]
      rw [hnone]
      unfold ExactPower
      rw [if_pos ⟨hbase0.mpr hzero, hneg.mp hexp⟩]
      rintro ⟨e, he⟩
      cases he
    · refine iff_of_true ?_ fun h => hzero h.1
      have hne : ¬((base.toInt : ℚ) = 0 ∧ exp.toInt < 0) := fun h => hzero (hbase0.mp h.1)
      rw [mpqPowQ_eq (by rwa [hbase]), hbase]
      unfold ExactPower
      rw [if_neg hne]
      obtain ⟨c, hc, hvalue⟩ := exact_newNumberObject ((base.toInt : ℚ) ^ exp.toInt)
      exact ⟨c, congrArg (Option.map Except.ok) hc, hvalue⟩
  · refine iff_of_true ?_ fun h => hexp h.2
    rw [if_neg hexp]
    have hnonneg : 0 ≤ exp.toInt := not_lt.mp (hneg.not.mp hexp)
    cases hloop : powInt64 1 base exp.toInt.toNat with
    | some c =>
      have hvalue := powInt64_eq_some hloop
      have hz : (exp.toInt.toNat : ℤ) = exp.toInt := Int.toNat_of_nonneg hnonneg
      unfold ExactPower
      rw [if_neg fun h => absurd h.2 (not_lt.mpr hnonneg)]
      refine ⟨⟨.i64 c, trivial⟩, rfl, ?_⟩
      show (c.toInt : ℚ) = (base.toInt : ℚ) ^ exp.toInt
      rw [hvalue, ← hz, zpow_natCast, Int.toNat_natCast, show (1 : Int64).toInt = 1 from rfl, one_mul,
        Int.cast_pow]
    | none =>
      -- The power of zero is one without a multiplication that could overflow.
      have hne : exp.toInt ≠ 0 := by
        intro h
        rw [h] at hloop
        unfold powInt64 at hloop
        cases hloop
      have hgmp := @exponentiateMpq_exact mpfrPow (Mpq.ofRat base.toInt) _ fun _ => hne
      rw [hbase] at hgmp
      exact hgmp

/-- A power of numbers with an integer as exponent. -/
theorem exponentiate_iff (a b : NumberObject) {z : ℤ} (hz : b.1.toRat = z) :
    ExactPower (exponentiate mpfrPow a.1 b.1) a.1.toRat z ↔ ¬InvertsZero a.1 b.1 := by
  obtain ⟨a, ha⟩ := a
  obtain ⟨b, hb⟩ := b
  cases b with
  | i64 exp =>
    have hexp : exp.toInt = z := Int.cast_injective hz
    cases a with
    | i64 base =>
      rw [← hexp]
      exact exponentiate_i64_iff base exp
    | mpq p =>
      refine iff_of_true ?_ fun h => h
      show ExactPower (exponentiate mpfrPow (.mpq p) (.i64 exp)) p.toRat z
      unfold exponentiate
      dsimp only
      rw [mpqSetSi64_one, Option.bind_eq_bind, Option.bind_some, hexp]
      exact exponentiateMpq_exact fun h =>
        absurd (Mpq.toRat_eq_zero.mp h) (Number.Normal.num_ne_zero ha)
  | mpq exp =>
    -- An integer as exponent that does not fit 64 bits.
    have hz' : exp.toRat = z := hz
    have hexp : exp = Mpq.ofRat z := by rw [← hz', Mpq.ofRat_toRat hb.1]
    have hne : z ≠ 0 := fun h => Number.Normal.num_ne_zero hb
      (Mpq.toRat_eq_zero.mp (by rw [hz', h, Int.cast_zero]))
    refine iff_of_true ?_ fun h => ?_
    · show ExactPower (exponentiate mpfrPow a (.mpq exp)) a.toRat z
      rw [hexp]
      cases a with
      | i64 base =>
        have hgmp := @exponentiateMpq_exact mpfrPow (Mpq.ofRat base.toInt) _
          fun _ => hne
        rw [Mpq.toRat_ofRat] at hgmp
        unfold exponentiate
        dsimp only
        rw [mpqSetSi64_one, Option.bind_eq_bind, Option.bind_some]
        exact hgmp
      | mpq p => exact exponentiateMpq_exact fun _ => hne
    · unfold InvertsZero at h
      split at h
      case h_1 heq => cases heq
      case h_2 => exact h

/-- The two paths agree where the 64-bit one does not overflow. -/
theorem newNumberObject_mpqPowQ {base exp c : Int64} (hexp : 0 ≤ exp)
    (h : powInt64 1 base exp.toInt.toNat = some c) :
    (mpqPowQ mpfrPow (Mpq.ofRat base.toInt) (Mpq.ofRat exp.toInt)).map newNumberObject =
      some (.i64 c) := by
  have hnonneg : 0 ≤ exp.toInt := by
    rw [Int64.le_iff_toInt_le, Int64.toInt_zero] at hexp
    exact hexp
  have hz : (exp.toInt.toNat : ℤ) = exp.toInt := Int.toNat_of_nonneg hnonneg
  have hvalue : (base.toInt : ℚ) ^ exp.toInt = c.toInt := by
    rw [powInt64_eq_some h, ← hz, zpow_natCast, Int.toNat_natCast, show (1 : Int64).toInt = 1 from rfl,
      one_mul, Int.cast_pow]
  rw [mpqPowQ_eq fun hzero => absurd hzero.2 (not_lt.mpr hnonneg), Mpq.toRat_ofRat, hvalue,
    Option.map_some]
  unfold newNumberObject
  rw [mpqToInt64_ofRat]

end

/-- A power with an integer as exponent, in the machine and as a method, raises an error exactly for a
negative power of zero and is exact and normalised otherwise, without an inversion of zero, exactly if
it is not a negative 64-bit power of the 64-bit zero. The 64-bit path and the one of GMP agree where
the former does not overflow. -/
theorem exponentiation_iff (mpfrPow : Mpq → Mpq → Option Mpq) :
    (∀ (a b : NumberObject) (z : ℤ), b.1.toRat = z →
      ((ExactPower (doExponentiation mpfrPow a.1 b.1) a.1.toRat z ∧
        ExactPower (a.1.exponent mpfrPow b.1) a.1.toRat z) ↔ ¬InvertsZero a.1 b.1)) ∧
    ∀ base exp c : Int64, 0 ≤ exp → powInt64 1 base exp.toInt.toNat = some c →
      (mpqPowQ mpfrPow (Mpq.ofRat base.toInt) (Mpq.ofRat exp.toInt)).map newNumberObject =
        some (.i64 c) :=
  ⟨fun a b _ hz => (and_self_iff).trans (exponentiate_iff a b hz),
    fun _ _ _ hexp h => newNumberObject_mpqPowQ hexp h⟩

/-- `(2/3) ^ -2`, and the two paths for `3 ^ 4`. -/
theorem exponentiation_iff_two_thirds :
    ExactPower (doExponentiation (fun _ _ => none) (.mpq ⟨2, 3, by decide⟩) (.i64 (-2)))
      (Number.mpq ⟨2, 3, by decide⟩).toRat (-2) ∧
    (mpqPowQ (fun _ _ => none) (Mpq.ofRat (3 : Int64).toInt) (Mpq.ofRat (4 : Int64).toInt)).map
      newNumberObject = some (.i64 81) := by
  have hnormal : (Number.mpq ⟨2, 3, by decide⟩).Normal :=
    ⟨show Nat.Coprime 2 3 by decide, by decide⟩
  have hz : (Number.i64 (-2)).toRat = ((-2 : ℤ) : ℚ) := by
    have htwo : (-2 : Int64).toInt = -2 := by decide
    show (((-2 : Int64).toInt : ℤ) : ℚ) = ((-2 : ℤ) : ℚ)
    rw [htwo]
  have h := exponentiation_iff fun _ _ => none
  refine ⟨((h.1 ⟨_, hnormal⟩ ⟨.i64 (-2), trivial⟩ (-2) hz).mpr fun hinv => hinv).1,
    h.2 3 4 81 (by decide) ?_⟩
  have hfour : (4 : Int64).toInt.toNat = 4 := by decide
  rw [hfour]
  unfold powInt64
  simp [powInt64, Signed64.mul, Signed64.exact, Signed64.Fits]

/-- `0 ^ -1` inverts zero. -/
theorem not_forall_exact_power :
    ¬∀ (a b : NumberObject) (z : ℤ), b.1.toRat = z →
      ExactPower (doExponentiation (fun _ _ => none) a.1 b.1) a.1.toRat z := by
  intro h
  have hone : (-1 : Int64).toInt = -1 := by decide
  have hexact := h ⟨.i64 0, trivial⟩ ⟨.i64 (-1), trivial⟩ (-1) (by
    show (((-1 : Int64).toInt : ℤ) : ℚ) = ((-1 : ℤ) : ℚ)
    rw [hone])
  rw [← hone] at hexact
  exact (exponentiate_i64_iff 0 (-1)).mp hexact ⟨rfl, by decide⟩

end Chloride
