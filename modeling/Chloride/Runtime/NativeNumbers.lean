import Chloride.Runtime.Arithmetic

/-!
# Numbers for native code

`argon_to_num_and_den` and `rational_to_argon` of `src/runtime/api/api.c`, by which a native extension
takes a number apart into `struct rational` and makes one of it. Both fields of the struct are signed,
and the denominator is tested as an unsigned number: `nativeNumbers_iff` tells for which numbers that
makes a difference, and for which fields the number that is made of them is their quotient.
-/

namespace Chloride

/-- `struct rational`. -/
structure Rational where
  n : Int64
  d : Int64
  deriving DecidableEq

/-- `mpz_fits_ulong_p`, of a number that is not negative. -/
def mpzFitsUlong (n : ℕ) : Bool := n < 2^64

/-- `argon_to_num_and_den`. The denominator comes from `mpz_get_ui` and is cast to the field. -/
def argonToNumAndDen : Value → Except ArErr Rational
  | .number (.i64 n) => .ok ⟨n, 1⟩
  | .number (.mpq q) =>
    if ¬Signed64.Fits q.num then .error ⟨"RuntimeError", "numerator does not fit int64"⟩
    else if ¬mpzFitsUlong q.den then .error ⟨"RuntimeError", "denominator does not fit uint64"⟩
    else .ok ⟨Int64.ofInt q.num, (UInt64.ofNat q.den).toInt64⟩
  | _ => .error ⟨"RuntimeError", "expected number"⟩

/-- `rational_to_argon`. -/
def rationalToArgon (r : Rational) : Option Number := newNumberObjectFromNumAndDen r.n r.d

/-- What is promised of the conversion of a number: a struct with a positive denominator of which the
same number is made again, or a failure if a part of the number in lowest terms does not fit its field. -/
def RoundTrips (x : NumberObject) : Prop :=
  (∀ r, argonToNumAndDen (.number x.1) = .ok r →
    0 < r.d.toInt ∧ Exact (rationalToArgon r) x.1.toRat) ∧
  ((∃ e, argonToNumAndDen (.number x.1) = .error e) ↔
    ¬(Signed64.Fits x.1.toRat.num ∧ Signed64.Fits x.1.toRat.den))

/-- The denominator fits an unsigned field, and not the signed one that there is. -/
def DenominatorWraps (q : ℚ) : Prop := Signed64.Fits q.num ∧ 2^63 ≤ q.den ∧ q.den < 2^64

/-- An unsigned number in a signed field. -/
theorem toInt_toInt64_ofNat {n : ℕ} (h : n < 2^64) :
    (UInt64.ofNat n).toInt64.toInt = if n < 2^63 then (n : ℤ) else n - 2^64 := by
  have hnat : (UInt64.ofNat n).toBitVec.toNat = n := UInt64.toNat_ofNat_of_lt' h
  have hint : (UInt64.ofNat n).toInt64.toInt = (UInt64.ofNat n).toBitVec.toInt := rfl
  rw [hint, BitVec.toInt_eq_toNat_cond, hnat]
  split_ifs <;> omega

/-- A number taken apart has its numerator in the first field. -/
theorem argonToNumAndDen_mpq {q : Mpq} (hnum : Signed64.Fits q.num) (hden : q.den < 2^64) :
    argonToNumAndDen (.number (.mpq q)) =
      .ok ⟨Int64.ofInt q.num, (UInt64.ofNat q.den).toInt64⟩ := by
  have hfits : mpzFitsUlong q.den = true := decide_eq_true hden
  unfold argonToNumAndDen
  dsimp only
  rw [if_neg (not_not.mpr hnum), if_neg (not_not.mpr hfits)]

/-- It fails if one of its parts does not fit. -/
theorem argonToNumAndDen_error {q : Mpq} (h : ¬(Signed64.Fits q.num ∧ q.den < 2^64)) :
    ∃ e, argonToNumAndDen (.number (.mpq q)) = .error e := by
  unfold argonToNumAndDen
  dsimp only
  by_cases hnum : Signed64.Fits q.num
  · have hfits : ¬(mpzFitsUlong q.den = true) := fun hden => h ⟨hnum, of_decide_eq_true hden⟩
    rw [if_neg (not_not.mpr hnum), if_pos hfits]
    exact ⟨_, rfl⟩
  · rw [if_pos hnum]
    exact ⟨_, rfl⟩

/-- Of two fields their quotient is made, unless it overflows. -/
theorem rationalToArgon_iff {n d : Int64} (hd : d ≠ 0) :
    Exact (rationalToArgon ⟨n, d⟩) (n.toInt / d.toInt) ↔ ¬(n = Int64.minValue ∧ d = -1) := by
  constructor
  · rintro ⟨c, hc, _⟩ ⟨rfl, rfl⟩
    have hnone : rationalToArgon ⟨Int64.minValue, -1⟩ = none := by decide
    rw [hnone] at hc
    cases hc
  · intro h
    exact newNumberObjectFromNumAndDen_exact_of_fits hd ((Signed64.fits_tdiv_iff hd).mpr h)

/-- An integer is its own numerator. -/
theorem roundTrips_i64 {n : Int64} (h : (Number.i64 n).Normal) : RoundTrips ⟨.i64 n, h⟩ := by
  have hvalue : ((n.toInt : ℚ).num = n.toInt) ∧ (n.toInt : ℚ).den = 1 := ⟨rfl, rfl⟩
  constructor
  · rintro r ⟨⟩
    have hone : (1 : Int64).toInt = 1 := rfl
    refine ⟨by rw [hone]; decide, ?_⟩
    have hexact := (rationalToArgon_iff (n := n) (d := 1) (by decide)).mpr fun h => absurd h.2 (by decide)
    rwa [hone, Int.cast_one, div_one] at hexact
  · refine iff_of_false nofun fun hnot => hnot ⟨Signed64.fits_toInt n, ?_⟩
    show Signed64.Fits 1
    decide

/-- A rational that is not an integer makes the round trip unless its denominator wraps. -/
theorem roundTrips_mpq_iff {q : Mpq} (h : (Number.mpq q).Normal) :
    RoundTrips ⟨.mpq q, h⟩ ↔ ¬DenominatorWraps q.toRat := by
  obtain ⟨hnum, hden⟩ := h.1.toRat_parts
  have hrat : q.toRat = q.num / q.den := rfl
  unfold RoundTrips DenominatorWraps
  simp only [Number.toRat, hnum, hden]
  by_cases hfits : Signed64.Fits q.num ∧ q.den < 2^64
  case neg =>
    -- The failure is what is promised.
    obtain ⟨e, he⟩ := argonToNumAndDen_error hfits
    rw [he]
    refine iff_of_true ⟨nofun, iff_of_true ⟨e, rfl⟩ ?_⟩ fun hwraps => hfits ⟨hwraps.1, hwraps.2.2⟩
    unfold Signed64.Fits at *
    omega
  case pos =>
    obtain ⟨hnumfits, hlt⟩ := hfits
    have hd := toInt_toInt64_ofNat hlt
    rw [argonToNumAndDen_mpq hnumfits hlt]
    by_cases hsmall : q.den < 2^63
    · -- The denominator fits the signed field.
      rw [if_pos hsmall] at hd
      have hpos : 0 < (UInt64.ofNat q.den).toInt64.toInt := by
        have := q.den_pos
        omega
      refine iff_of_true ⟨?_, iff_of_false nofun fun hnot => hnot ⟨hnumfits, ?_⟩⟩ fun hwraps => ?_
      · rintro r ⟨⟩
        have hexact := newNumberObjectFromNumAndDen_exact (n := Int64.ofInt q.num) hpos
        rw [Signed64.toInt_ofInt hnumfits, hd, Int.cast_natCast, ← hrat] at hexact
        exact ⟨hpos, hexact⟩
      · unfold Signed64.Fits
        omega
      · omega
    · -- It wraps, and the struct has a negative denominator.
      rw [if_neg hsmall] at hd
      refine iff_of_false (fun hround => ?_) fun hnot => hnot ⟨hnumfits, by omega, hlt⟩
      have hpos := (hround.1 _ rfl).1
      simp only at hpos
      omega

/-- A number makes the round trip through the struct, and fails to where it should, if and only if its
denominator does not wrap; and of two fields their quotient is made if and only if it does not
overflow. -/
theorem nativeNumbers_iff (x : NumberObject) (n d : Int64) :
    (RoundTrips x ↔ ¬DenominatorWraps x.1.toRat) ∧
      (d ≠ 0 → (Exact (rationalToArgon ⟨n, d⟩) (n.toInt / d.toInt) ↔
        ¬(n = Int64.minValue ∧ d = -1))) := by
  refine ⟨?_, rationalToArgon_iff⟩
  obtain ⟨x, hx⟩ := x
  cases x with
  | i64 a =>
    refine iff_of_true (roundTrips_i64 hx) fun hwraps => ?_
    have hden : 2^63 ≤ 1 := hwraps.2.1
    omega
  | mpq q => exact roundTrips_mpq_iff hx

/-- The reciprocal of `2^63` comes out with a negative denominator, and the quotient of the least
integer and minus one divides by it. -/
theorem not_forall_roundTrips :
    ¬((∀ x, RoundTrips x) ∧ ∀ n d : Int64, d ≠ 0 → Exact (rationalToArgon ⟨n, d⟩) (n.toInt / d.toInt)) := by
  rintro ⟨hround, _⟩
  let q : Mpq := ⟨1, 2^63, by decide⟩
  have hnormal : (Number.mpq q).Normal := ⟨Nat.coprime_one_left _, by decide⟩
  have hok : argonToNumAndDen (.number (.mpq q)) = .ok ⟨1, Int64.minValue⟩ := by decide
  obtain ⟨hpos, _⟩ := (hround ⟨.mpq q, hnormal⟩).1 _ hok
  exact absurd hpos (by decide)

end Chloride
