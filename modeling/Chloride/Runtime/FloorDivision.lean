import Chloride.Runtime.Arithmetic

/-!
# Floor division and modulo

Floor division and modulo of numbers: `DO_FLOOR_DIVISION` and `DO_MODULO` of
`src/runtime/runtime.c`, and `mpq_fdiv`, `mpq_fmod` and the two methods of
`src/runtime/objects/number/number.c`. Both paths test an integer divisor for zero. The path of
rationals rounds down, and the path of two 64-bit integers is `/` and `%` of C, which round to zero.

`quot_floor_iff` and `rem_floor_iff` tell for which integers the operators of C are those with
rounding down; `floor_division_iff` is the result for all numbers.
-/

namespace Chloride

/-- `mpq_fdiv`. -/
def mpqFdiv (a b : Mpq) : Option Mpq := do
  let tmp ← mpqDiv a b
  return Mpq.ofRat (tmp.num.fdiv tmp.den)

/-- `mpq_fmod`. -/
def mpqFmod (a b : Mpq) : Option Mpq := do
  let q ← mpqFdiv a b
  return mpqSub a (mpqMul b q)

/-- The code of a division with rounding: the operation on two integers, the one of GMP, and the
message for a zero divisor. -/
def roundedDivision (onInt64 : Int64 → Int64 → Option Int64) (onMpq : Mpq → Mpq → Option Mpq)
    (message : String) : Number → Number → Option (Except ArErr Number)
  | .i64 a, .i64 b =>
    if b = 0 then return .error ⟨"ZeroDivisionError", message⟩
    else do return .ok (.i64 (← onInt64 a b))
  | .mpq a, .mpq b => do return .ok (newNumberObject (← onMpq a b))
  | .i64 a, .mpq b => do return .ok (newNumberObject (← onMpq (← mpqSetSi64 a 1) b))
  | .mpq a, .i64 b =>
    if b = 0 then return .error ⟨"ZeroDivisionError", message⟩
    else do return .ok (newNumberObject (← onMpq a (← mpqSetSi64 b 1)))

/-- `DO_FLOOR_DIVISION` on numbers. -/
def doFloorDivision : Number → Number → Option (Except ArErr Number) :=
  roundedDivision Signed64.quot mpqFdiv "floor division by zero"

/-- `ARGON_NUMBER_TYPE___floor_division__` on numbers. -/
def Number.floorDivision : Number → Number → Option (Except ArErr Number) :=
  roundedDivision Signed64.quot mpqFdiv "floor division by zero"

/-- `DO_MODULO` on numbers. -/
def doModulo : Number → Number → Option (Except ArErr Number) :=
  roundedDivision Signed64.rem mpqFmod "modulo by zero"

/-- `ARGON_NUMBER_TYPE___modulo__` on numbers. -/
def Number.modulo : Number → Number → Option (Except ArErr Number) :=
  roundedDivision Signed64.rem mpqFmod "modulo by zero"

/-- The result of a division by `divisor`: the error if it is zero, and otherwise a value, exact and
normalised. -/
def ExactUnlessZero (message : String) (r : Option (Except ArErr Number)) (divisor value : ℚ) : Prop :=
  if divisor = 0 then r = some (.error ⟨"ZeroDivisionError", message⟩)
  else ∃ c : NumberObject, r = some (.ok c.1) ∧ c.1.toRat = value

/-- Floor division and modulo of two numbers, in the machine and as methods, round down. -/
structure RoundedDown (a b : Number) : Prop where
  floorDivision :
    ExactUnlessZero "floor division by zero" (doFloorDivision a b) b.toRat ⌊a.toRat / b.toRat⌋ ∧
    ExactUnlessZero "floor division by zero" (a.floorDivision b) b.toRat ⌊a.toRat / b.toRat⌋
  modulo :
    ExactUnlessZero "modulo by zero" (doModulo a b) b.toRat
      (a.toRat - b.toRat * ⌊a.toRat / b.toRat⌋) ∧
    ExactUnlessZero "modulo by zero" (a.modulo b) b.toRat (a.toRat - b.toRat * ⌊a.toRat / b.toRat⌋)

/-- The dividend is made up again of quotient and remainder. -/
def Recomposed (a b : Number) : Prop :=
  b.toRat ≠ 0 → ∃ q r : Number, doFloorDivision a b = some (.ok q) ∧ doModulo a b = some (.ok r) ∧
    a.toRat = b.toRat * q.toRat + r.toRat

/-- The integers for which the operators of C do not round down: those that do not divide and have
different signs, and those whose quotient overflows. -/
def RoundedToZero : Number → Number → Prop
  | .i64 a, .i64 b =>
    (a = Int64.minValue ∧ b = -1) ∨ (¬b.toInt ∣ a.toInt ∧ (a < 0 ∧ 0 < b ∨ 0 < a ∧ b < 0))
  | _, _ => False

/-! ## Rounding down -/

/-- Division with rounding down is the floor of the quotient. -/
theorem fdiv_eq_floor (a b : ℤ) : a.fdiv b = ⌊(a : ℚ) / b⌋ := by
  have hnonneg : ∀ a b : ℤ, 0 ≤ b → a.fdiv b = ⌊(a : ℚ) / b⌋ := by
    intro a b hb
    obtain ⟨d, rfl⟩ := Int.eq_ofNat_of_zero_le hb
    have hfloor := Rat.floor_intCast_div_natCast a d
    rw [Int.fdiv_eq_ediv_of_nonneg a hb, Int.cast_natCast, hfloor]
  rcases le_total 0 b with hb | hb
  · exact hnonneg a b hb
  · -- The signs cancel.
    have h := hnonneg (-a) (-b) (neg_nonneg.mpr hb)
    rwa [Int.neg_fdiv_neg, Int.cast_neg, Int.cast_neg, neg_div_neg_eq] at h

/-- Rounding to zero is rounding down for an exact quotient and for a positive one. -/
theorem tdiv_eq_fdiv_iff {a b : ℤ} :
    a.tdiv b = a.fdiv b ↔ ¬(¬b ∣ a ∧ (a < 0 ∧ 0 < b ∨ 0 < a ∧ b < 0)) := by
  rw [Int.tdiv_eq_fdiv]
  by_cases hdvd : b ∣ a
  · rw [if_pos hdvd, add_zero]
    exact iff_of_true rfl fun h => h.1 hdvd
  · have ha : a ≠ 0 := fun h => hdvd (h ▸ dvd_zero b)
    rw [if_neg hdvd, and_iff_right hdvd]
    rcases lt_trichotomy b 0 with hb | hb | hb
    · rw [Int.sign_eq_neg_one_of_neg hb]
      split_ifs <;> omega
    · rw [hb, Int.sign_zero]
      split_ifs <;> omega
    · rw [Int.sign_eq_one_of_pos hb]
      split_ifs <;> omega

/-- `/` of C is division with rounding down for all integers but those. -/
theorem quot_floor_iff {a b : Int64} (hb : b ≠ 0) :
    (∃ q, Signed64.quot a b = some q ∧ (q.toInt : ℚ) = ⌊(a.toInt : ℚ) / b.toInt⌋) ↔
      ¬RoundedToZero (.i64 a) (.i64 b) := by
  have hfits := Signed64.fits_tdiv_iff (a := a) hb
  have hround := tdiv_eq_fdiv_iff (a := a.toInt) (b := b.toInt)
  have hpos : ∀ c : Int64, 0 < c ↔ 0 < c.toInt := fun c => Int64.lt_iff_toInt_lt
  have hneg : ∀ c : Int64, c < 0 ↔ c.toInt < 0 := fun c => Int64.lt_iff_toInt_lt
  unfold RoundedToZero Signed64.quot
  dsimp only
  rw [if_neg hb, not_or, hpos, hpos, hneg, hneg, ← hfits, ← hround, fdiv_eq_floor]
  constructor
  · rintro ⟨q, hq, hvalue⟩
    have hexact := Signed64.exact_eq_some.mp hq
    exact ⟨hexact ▸ Signed64.fits_toInt q, by rw [← hexact]; exact_mod_cast hvalue⟩
  · rintro ⟨hfit, hvalue⟩
    obtain ⟨q, hq, hexact⟩ := Signed64.exact_of_fits hfit
    exact ⟨q, hq, by rw [hexact, hvalue]⟩

/-- So is `%` of C. -/
theorem rem_floor_iff {a b : Int64} (hb : b ≠ 0) :
    (∃ r, Signed64.rem a b = some r ∧
      (r.toInt : ℚ) = a.toInt - b.toInt * ⌊(a.toInt : ℚ) / b.toInt⌋) ↔
      ¬RoundedToZero (.i64 a) (.i64 b) := by
  have hb0 : (b.toInt : ℚ) ≠ 0 := Int.cast_ne_zero.mpr fun h => hb (Signed64.toInt_eq_zero.mp h)
  rw [← quot_floor_iff hb]
  have hdiv : (a.toInt : ℚ) = b.toInt * a.toInt.tdiv b.toInt + a.toInt.tmod b.toInt := by
    exact_mod_cast (Int.mul_tdiv_add_tmod a.toInt b.toInt).symm
  -- The remainder belongs to the quotient of C, and determines it.
  have hiff : ((a.toInt.tmod b.toInt : ℤ) : ℚ) = a.toInt - b.toInt * ⌊(a.toInt : ℚ) / b.toInt⌋ ↔
      ((a.toInt.tdiv b.toInt : ℤ) : ℚ) = ⌊(a.toInt : ℚ) / b.toInt⌋ := by
    constructor
    · intro h
      have hmul : (b.toInt : ℚ) * a.toInt.tdiv b.toInt = b.toInt * ⌊(a.toInt : ℚ) / b.toInt⌋ := by
        linarith
      exact mul_left_cancel₀ hb0 hmul
    · intro h
      rw [← h]
      linarith
  unfold Signed64.rem Signed64.quot
  rw [if_neg hb, if_neg hb]
  constructor
  · rintro ⟨r, hr, hvalue⟩
    split at hr
    case isTrue hfit =>
      have hexact := Signed64.exact_eq_some.mp hr
      obtain ⟨q, hq, hquot⟩ := Signed64.exact_of_fits hfit
      rw [hexact, hiff] at hvalue
      exact ⟨q, hq, by rw [hquot, hvalue]⟩
    case isFalse => cases hr
  · rintro ⟨q, hq, hvalue⟩
    have hexact := Signed64.exact_eq_some.mp hq
    have hfit : Signed64.Fits (a.toInt.tdiv b.toInt) := hexact ▸ Signed64.fits_toInt q
    have hmod : (a.toInt.tmod b.toInt).natAbs < b.toInt.natAbs := by
      rw [Int.natAbs_tmod]
      exact Nat.mod_lt _ (Int.natAbs_pos.mpr fun h => hb (Signed64.toInt_eq_zero.mp h))
    have hbounds := Signed64.fits_toInt b
    obtain ⟨r, hr, hrem⟩ := Signed64.exact_of_fits (z := a.toInt.tmod b.toInt)
      (by unfold Signed64.Fits at *; omega)
    rw [if_pos hfit]
    exact ⟨r, hr, by rw [hrem, hiff, ← hexact, hvalue]⟩

/-! ## The results -/

theorem mpqFdiv_of_ne_zero {a b : Mpq} (hb : b.toRat ≠ 0) :
    mpqFdiv a b = some (Mpq.ofRat ⌊a.toRat / b.toRat⌋) := by
  unfold mpqFdiv
  rw [mpqDiv_of_ne_zero hb, Option.bind_eq_bind, Option.bind_some]
  have hfloor := fdiv_eq_floor (a.toRat / b.toRat).num (a.toRat / b.toRat).den
  rw [Int.cast_natCast, Rat.num_div_den] at hfloor
  show some (Mpq.ofRat (((a.toRat / b.toRat).num.fdiv (a.toRat / b.toRat).den : ℤ) : ℚ)) = _
  rw [hfloor]

theorem mpqFmod_of_ne_zero {a b : Mpq} (hb : b.toRat ≠ 0) :
    mpqFmod a b = some (Mpq.ofRat (a.toRat - b.toRat * ⌊a.toRat / b.toRat⌋)) := by
  unfold mpqFmod
  rw [mpqFdiv_of_ne_zero hb, Option.bind_eq_bind, Option.bind_some]
  unfold mpqSub mpqMul
  rw [Mpq.toRat_ofRat, Mpq.toRat_ofRat]
  rfl

theorem exactUnlessZero_zero (message : String) {divisor value : ℚ} (h : divisor = 0) :
    ExactUnlessZero message (some (.error ⟨"ZeroDivisionError", message⟩)) divisor value :=
  (if_pos h).mpr rfl

theorem exactUnlessZero_of_exact {message : String} {r : Option Number} {divisor value : ℚ}
    (hdivisor : divisor ≠ 0) (h : Exact r value) :
    ExactUnlessZero message (r.map .ok) divisor value := by
  obtain ⟨c, rfl, hvalue⟩ := h
  exact (if_neg hdivisor).mpr ⟨c, rfl, hvalue⟩

/-- With an operation of GMP that is exact for every divisor but zero, the code is right for all
numbers, if the operation on two integers is. -/
theorem roundedDivision_iff {onInt64 : Int64 → Int64 → Option Int64} {onMpq : Mpq → Mpq → Option Mpq}
    (message : String) {f : ℚ → ℚ → ℚ}
    (hmpq : ∀ a b, b.toRat ≠ 0 → onMpq a b = some (Mpq.ofRat (f a.toRat b.toRat)))
    (hint : ∀ a b : Int64, b ≠ 0 → ((∃ c, onInt64 a b = some c ∧ (c.toInt : ℚ) = f a.toInt b.toInt) ↔
      ¬RoundedToZero (.i64 a) (.i64 b)))
    (a b : NumberObject) :
    ExactUnlessZero message (roundedDivision onInt64 onMpq message a.1 b.1) b.1.toRat
      (f a.1.toRat b.1.toRat) ↔ ¬RoundedToZero a.1 b.1 := by
  obtain ⟨a, ha⟩ := a
  obtain ⟨b, hb⟩ := b
  have hi64 : ∀ n : Int64, n ≠ 0 → (n.toInt : ℚ) ≠ 0 := fun n hn =>
    Int.cast_ne_zero.mpr fun h => hn (Signed64.toInt_eq_zero.mp h)
  have hzero : ((0 : Int64).toInt : ℚ) = 0 := by rw [Int64.toInt_zero, Int.cast_zero]
  -- A normalised rational divisor is not zero.
  have hq : ∀ q : Mpq, (Number.mpq q).Normal → q.toRat ≠ 0 := fun q hq h =>
    Number.Normal.num_ne_zero hq (Mpq.toRat_eq_zero.mp h)
  cases b with
  | i64 n =>
    by_cases hn : n = 0
    · -- Both kinds of dividend are tested with a divisor that is zero.
      rw [hn]
      refine iff_of_true ?_ ?_
      · cases a <;> exact exactUnlessZero_zero message hzero
      · cases a with
        | i64 m =>
          rintro (h | ⟨_, h | h⟩)
          · exact absurd h.2 (by decide)
          · exact absurd h.2 (by decide)
          · exact absurd h.2 (by decide)
        | mpq p => exact fun h => h
    · cases a with
      | i64 m =>
        rw [← hint m n hn]
        have hcode : roundedDivision onInt64 onMpq message (.i64 m) (.i64 n) =
            ((onInt64 m n).map Number.i64).map .ok := by
          unfold roundedDivision
          dsimp only
          rw [if_neg hn]
          cases onInt64 m n <;> rfl
        show ExactUnlessZero message (roundedDivision onInt64 onMpq message (.i64 m) (.i64 n))
          n.toInt (f m.toInt n.toInt) ↔ _
        rw [hcode]
        unfold ExactUnlessZero
        rw [if_neg (hi64 n hn)]
        constructor
        · rintro ⟨c, hc, hvalue⟩
          obtain ⟨x, hx, hok⟩ := Option.map_eq_some_iff.mp hc
          obtain ⟨k, hk, rfl⟩ := Option.map_eq_some_iff.mp hx
          exact ⟨k, hk, by rw [← hvalue, ← Except.ok.inj hok]; rfl⟩
        · rintro ⟨c, hc, hvalue⟩
          rw [hc]
          exact ⟨⟨.i64 c, trivial⟩, rfl, hvalue⟩
      | mpq p =>
        refine iff_of_true ?_ fun h => h
        show ExactUnlessZero message (roundedDivision onInt64 onMpq message (.mpq p) (.i64 n))
          n.toInt (f p.toRat n.toInt)
        have hm := hmpq p (Mpq.ofRat n.toInt) (by rw [Mpq.toRat_ofRat]; exact hi64 n hn)
        rw [Mpq.toRat_ofRat] at hm
        unfold roundedDivision
        dsimp only
        rw [if_neg hn, mpqSetSi64_one, Option.bind_eq_bind, Option.bind_some, hm]
        exact exactUnlessZero_of_exact (hi64 n hn) (exact_newNumberObject _)
  | mpq q =>
    have hne := hq q hb
    refine iff_of_true ?_ fun h => ?_
    · cases a with
      | i64 m =>
        show ExactUnlessZero message (roundedDivision onInt64 onMpq message (.i64 m) (.mpq q))
          q.toRat (f m.toInt q.toRat)
        have hm := hmpq (Mpq.ofRat m.toInt) q hne
        rw [Mpq.toRat_ofRat] at hm
        unfold roundedDivision
        dsimp only
        rw [mpqSetSi64_one, Option.bind_eq_bind, Option.bind_some, hm]
        exact exactUnlessZero_of_exact hne (exact_newNumberObject _)
      | mpq p =>
        show ExactUnlessZero message (roundedDivision onInt64 onMpq message (.mpq p) (.mpq q))
          q.toRat (f p.toRat q.toRat)
        unfold roundedDivision
        dsimp only
        rw [hmpq p q hne]
        exact exactUnlessZero_of_exact hne (exact_newNumberObject _)
    · unfold RoundedToZero at h
      split at h
      case h_1 heq => cases heq
      case h_2 => exact h

/-- Floor division and modulo round down for all numbers but the integers for which C does not. -/
theorem roundedDown_iff (a b : NumberObject) : RoundedDown a.1 b.1 ↔ ¬RoundedToZero a.1 b.1 := by
  have hfloor := roundedDivision_iff "floor division by zero" (f := fun p q => ⌊p / q⌋)
    (fun _ _ h => mpqFdiv_of_ne_zero h) (fun _ _ h => quot_floor_iff h) a b
  have hmod := roundedDivision_iff "modulo by zero" (f := fun p q => p - q * ⌊p / q⌋)
    (fun _ _ h => mpqFmod_of_ne_zero h) (fun _ _ h => rem_floor_iff h) a b
  refine ⟨fun h => hfloor.mp h.floorDivision.1, fun h => ?_⟩
  have hf := hfloor.mpr h
  have hm := hmod.mpr h
  exact ⟨⟨hf, hf⟩, ⟨hm, hm⟩⟩

theorem recomposed_of_roundedDown {a b : Number} (h : RoundedDown a b) : Recomposed a b := by
  intro hb
  obtain ⟨q, hq, hquot⟩ := (if_neg hb).mp h.floorDivision.1
  obtain ⟨r, hr, hrem⟩ := (if_neg hb).mp h.modulo.1
  refine ⟨q.1, r.1, hq, hr, ?_⟩
  rw [hquot, hrem]
  ring

/-- Floor division and modulo, in the machine and as methods, raise an error exactly for a zero divisor
and give the quotient rounded down and what it leaves, exact and normalised, for all numbers but the
integers that C divides with another rounding. Then the dividend is made up of quotient and
remainder. The results depend on the rational numbers only. -/
theorem floor_division_iff (a b : NumberObject) :
    (RoundedDown a.1 b.1 ↔ ¬RoundedToZero a.1 b.1) ∧ (RoundedDown a.1 b.1 → Recomposed a.1 b.1) ∧
    ∀ a' b' : NumberObject, a'.1.toRat = a.1.toRat → b'.1.toRat = b.1.toRat →
      doFloorDivision a'.1 b'.1 = doFloorDivision a.1 b.1 ∧ doModulo a'.1 b'.1 = doModulo a.1 b.1 := by
  refine ⟨roundedDown_iff a b, recomposed_of_roundedDown, fun a' b' ha hb => ?_⟩
  have ha' : a' = a := NumberObject.toRat_injective ha
  have hb' : b' = b := NumberObject.toRat_injective hb
  rw [ha', hb']
  exact ⟨rfl, rfl⟩

/-- `7 // 2` and `7 % 2`. -/
theorem floor_division_iff_seven_two : Recomposed (.i64 7) (.i64 2) := by
  have h := floor_division_iff ⟨.i64 7, trivial⟩ ⟨.i64 2, trivial⟩
  refine h.2.1 (h.1.mpr ?_)
  rintro (hleast | ⟨_, hsigns | hsigns⟩)
  · exact absurd hleast.2 (by decide)
  · exact absurd hsigns.1 (by decide)
  · exact absurd hsigns.2 (by decide)

/-- `-7 // 2` is not rounded down: C gives `-3`. -/
theorem not_forall_rounded_down : ¬∀ a b : NumberObject, RoundedDown a.1 b.1 := by
  intro h
  have hround := (roundedDown_iff ⟨.i64 (-7), trivial⟩ ⟨.i64 2, trivial⟩).mp (h _ _)
  exact hround (Or.inr ⟨by decide, Or.inl ⟨by decide, by decide⟩⟩)

end Chloride
