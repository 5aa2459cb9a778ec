import Chloride.Numerics.Numerals

/-!
# Writing numerals

`ARGON_NUMBER_TYPE___string__`: an integer is written with all of its digits, and any other number with
the digits and the exponent that GMP's `mpf_get_str` gives for it, which come in as a parameter. The
digits get a point in front of them, among them, or an exponent. `string_faithful` says that every such
text is in the grammar of `mpq_set_decimal_str_exp` and stands for what GMP gave.
-/

namespace Chloride

/-! ## The text of a number -/

/-- The decimal digits of a natural number. -/
def decimalBytes (n : ℕ) : List UInt8 :=
  if n = 0 then [byte '0'] else ((Nat.digits 10 n).map fun d => UInt8.ofNat (48 + d)).reverse

/-- `%ld`, and `mpz_get_str` with base 10. -/
def decimalText (z : ℤ) : List UInt8 := (if z < 0 then [byte '-'] else []) ++ decimalBytes z.natAbs

/-- `%+ld`. -/
def signedText (z : ℤ) : List UInt8 :=
  (if z < 0 then byte '-' else byte '+') :: decimalBytes z.natAbs

/-- The bytes that `new_string_object_null_terminated` takes. -/
def nullTerminated (text : List UInt8) : List UInt8 := text.takeWhile (· ≠ 0)

/-- `SIGNIFICANT_DIGITS`. -/
def significantDigits : ℕ := 16

/-- Whether the exponent is written. -/
def useScientific (exp : ℤ) : Bool := exp - 1 < -4 || (significantDigits : ℤ) ≤ exp - 1

/-- The form with an exponent: `d.ddde+x`. -/
def scientificText (digits : List UInt8) (exp : ℤ) : List UInt8 :=
  digits.headD 0 :: (if digits.length > 1 then byte '.' :: digits.drop 1 else []) ++
    byte 'e' :: signedText (exp - 1)

/-- The form without an exponent. -/
def fixedText (digits : List UInt8) (exp : ℤ) : List UInt8 :=
  if exp ≤ 0 then [byte '0', byte '.'] ++ List.replicate (-exp).toNat (byte '0') ++ digits
  else if exp ≤ digits.length then
    digits.take exp.toNat ++
      if digits.length > exp.toNat then byte '.' :: digits.drop exp.toNat else []
  else digits ++ List.replicate (exp.toNat - digits.length) (byte '0')

/-- The size of the buffer. -/
def bufSize (negative : Bool) (digits : List UInt8) (exp : ℤ) : ℕ :=
  (if negative then 1 else 0) + 1 + 1 + (significantDigits - 1) + 1 + 1 + 32 + 1 +
    if useScientific exp then 0 else max exp.toNat digits.length + 16

/-- The text for what `mpf_get_str` gives. Writing behind the buffer is undefined. -/
def layout (mant : List UInt8) (exp : ℤ) : Option (List UInt8) :=
  if mant = [] ∨ mant = [byte '0'] then some [byte '0']
  else
    let negative : Bool := mant.head? = some (byte '-')
    let digits := if negative then mant.drop 1 else mant
    let out := (if negative then [byte '-'] else []) ++
      if useScientific exp then scientificText digits exp else fixedText digits exp
    if out.length < bufSize negative digits exp then some (nullTerminated out) else none

/-- `ARGON_NUMBER_TYPE___string__`; `mpfGetStr` is `mpf_get_str` with base 10 and as many digits, of the
number that `mpf_set_q` makes of the rational. The buffer for a 64-bit integer has 32 bytes. -/
def Number.string (mpfGetStr : Mpq → List UInt8 × ℤ) : Number → Option (List UInt8)
  | .i64 n => some (nullTerminated ((decimalText n.toInt).take 31))
  | .mpq q =>
    if q.den = 1 then some (nullTerminated (decimalText q.num))
    else layout (mpfGetStr q).1 (mpfGetStr q).2

/-- What `mpf_get_str` gives for a number that is not zero: a sign, up to as many digits as are asked
for, the first of them not zero, and an exponent. -/
structure MpfDigits where
  negative : Bool
  digits : List UInt8
  exp : ℤ
  digits_decimal : ∀ c ∈ digits, isDigit c = true
  digits_ne_nil : digits ≠ []
  head_ne_zero : digits.head? ≠ some (byte '0')
  length_le : digits.length ≤ significantDigits

namespace MpfDigits

/-- The string. -/
def mant (d : MpfDigits) : List UInt8 := (if d.negative then [byte '-'] else []) ++ d.digits

/-- The number `0.d₁…dₖ · 10^exp`. -/
def magnitude (d : MpfDigits) : ℚ := mpzSetStr d.digits 10 * (10 : ℚ) ^ (d.exp - d.digits.length)

/-- The number with its sign. -/
def value (d : MpfDigits) : ℚ := if d.negative then -d.magnitude else d.magnitude

end MpfDigits

/-- The numerator and the denominator have no more limbs of 64 bits than the `int` of an `mpz_t` can
count. -/
def Mpq.Sized (q : Mpq) : Prop :=
  q.num.natAbs < 2 ^ (64 * (2 ^ 31 - 1)) ∧ q.den < 2 ^ (64 * (2 ^ 31 - 1))

/-! ## Digits -/

theorem mpzSetStr_foldl (digits : List UInt8) (radix n : ℕ) :
    digits.foldl (fun n c => radix * n + digitValue c) n =
      n * radix ^ digits.length + mpzSetStr digits radix := by
  induction digits generalizing n with
  | nil => simp [mpzSetStr]
  | cons c digits ih =>
    have hcons : mpzSetStr (c :: digits) radix =
        digitValue c * radix ^ digits.length + mpzSetStr digits radix := by
      calc mpzSetStr (c :: digits) radix
          = digits.foldl (fun n c => radix * n + digitValue c) (radix * 0 + digitValue c) := rfl
        _ = digitValue c * radix ^ digits.length + mpzSetStr digits radix := by
          rw [ih, Nat.mul_zero, Nat.zero_add]
    rw [List.foldl_cons, ih, hcons, List.length_cons, pow_succ]
    ring

theorem mpzSetStr_append (a b : List UInt8) (radix : ℕ) :
    mpzSetStr (a ++ b) radix = mpzSetStr a radix * radix ^ b.length + mpzSetStr b radix := by
  have h := mpzSetStr_foldl b radix (mpzSetStr a radix)
  unfold mpzSetStr at h ⊢
  rw [List.foldl_append]
  exact h

/-- Zeros count for nothing. -/
theorem mpzSetStr_zeros (n radix : ℕ) : mpzSetStr (List.replicate n (byte '0')) radix = 0 := by
  induction n with
  | zero => rfl
  | succ n ih =>
    have hzero : digitValue (byte '0') = 0 := rfl
    have hone : mpzSetStr [byte '0'] radix = 0 := by
      show radix * 0 + digitValue (byte '0') = 0
      rw [hzero, Nat.mul_zero]
    rw [List.replicate_succ', mpzSetStr_append, ih, hone, Nat.zero_mul]

/-- The digits of a number below ten. -/
theorem digitByte_facts {d : ℕ} (hd : d < 10) :
    isDigit (UInt8.ofNat (48 + d)) = true ∧ digitValue (UInt8.ofNat (48 + d)) = d := by
  interval_cases d <;> decide

theorem isDigit_decimalBytes (n : ℕ) : ∀ c ∈ decimalBytes n, isDigit c = true := by
  intro c hc
  unfold decimalBytes at hc
  split at hc
  case isTrue =>
    rw [List.mem_singleton.mp hc]
    rfl
  case isFalse =>
    obtain ⟨d, hd, rfl⟩ := List.mem_map.mp (List.mem_reverse.mp hc)
    exact (digitByte_facts (Nat.digits_lt_base (by decide) hd)).1

theorem mpzSetStr_reverse_digits {digits : List ℕ} (h : ∀ d ∈ digits, d < 10) :
    mpzSetStr (digits.map fun d => UInt8.ofNat (48 + d)).reverse 10 = Nat.ofDigits 10 digits := by
  induction digits with
  | nil => rfl
  | cons d digits ih =>
    have hd := (digitByte_facts (h d (List.mem_cons_self ..))).2
    have hone : mpzSetStr [UInt8.ofNat (48 + d)] 10 = d := by
      show 10 * 0 + digitValue (UInt8.ofNat (48 + d)) = d
      rw [hd, Nat.mul_zero, Nat.zero_add]
    rw [List.map_cons, List.reverse_cons, mpzSetStr_append,
      ih fun d hd => h d (List.mem_cons_of_mem _ hd), hone, Nat.ofDigits_cons]
    simp only [List.length_singleton, pow_one]
    omega

/-- The digits that are written are those that are read. -/
theorem mpzSetStr_decimalBytes (n : ℕ) : mpzSetStr (decimalBytes n) 10 = n := by
  unfold decimalBytes
  split
  case isTrue hn =>
    rw [hn]
    rfl
  case isFalse =>
    rw [mpzSetStr_reverse_digits fun d hd => Nat.digits_lt_base (by decide) hd]
    exact Nat.ofDigits_digits 10 n

theorem decimalBytes_ne_nil (n : ℕ) : decimalBytes n ≠ [] := by
  unfold decimalBytes
  split
  case isTrue => exact List.cons_ne_nil _ _
  case isFalse hn =>
    rw [ne_eq, List.reverse_eq_nil_iff, List.map_eq_nil_iff]
    exact Nat.digits_ne_nil_iff_ne_zero.mpr hn

theorem length_decimalBytes_le {n k : ℕ} (hk : 0 < k) (h : n < 10 ^ k) : (decimalBytes n).length ≤ k := by
  unfold decimalBytes
  split
  case isTrue => exact hk
  case isFalse hn =>
    rw [List.length_reverse, List.length_map]
    exact (Nat.digits_length_le_iff (by decide) n).mpr h

/-! ## The texts are numerals -/

set_option maxRecDepth 5000 in
/-- Digits of the decimal base. -/
theorem isDigitInBase_ten {c : UInt8} (h : isDigit c = true) :
    isDigitInBase c NumeralBase.decimal.radix = true := by
  revert c
  decide

theorem denotes_decimal (sign : Option Bool) {t : Numeral .decimal} (hread : t.Readable)
    (hplain : t.Plain) :
    Denotes (signBytes sign ++ t.bytes) (if sign = some true then -t.value else t.value) :=
  ⟨⟨[], sign, [], _, t, nofun, .decimal⟩, hread, hplain, rfl, rfl⟩

/-- A decimal numeral is its digits times a power of ten. -/
theorem Numeral.value_decimal (t : Numeral .decimal) : t.value =
    mpzSetStr (t.int ++ t.fractionDigits) 10 *
      (10 : ℚ) ^ (t.exponentValue - t.fractionDigits.length) := by
  have hradix : ((NumeralBase.decimal.radix : ℕ) : ℚ) = 10 := rfl
  have hbase : ((NumeralBase.decimal.expBase : ℕ) : ℚ) = 10 := rfl
  have hten : (10 : ℚ) ≠ 0 := by norm_num
  unfold value
  rw [hradix, hbase, zpow_sub₀ hten, zpow_natCast, div_mul_eq_mul_div, mul_div_assoc]
  rfl

/-- No null byte is in a string of the grammar. -/
theorem Denotes.nullTerminated {str : List UInt8} {q : ℚ} (h : Denotes str q) :
    nullTerminated str = str := by
  have hvisible := h.visible
  obtain ⟨l, hread, _, rfl, _⟩ := h
  have hpart := Literal.unsignedPart_bytes hread []
  rw [List.append_nil, List.append_nil] at hpart
  rw [hpart] at hvisible
  apply List.takeWhile_eq_self_iff.mpr
  intro c hc
  apply decide_eq_true
  rcases List.mem_append.mp hc with hblank | hc
  · rintro rfl
    exact absurd (l.blanks_spaces 0 hblank) (by decide)
  · rcases List.mem_append.mp hc with hsign | hunsigned
    · rintro rfl
      exact absurd (isSign_of_mem_signBytes hsign) (by decide)
    · exact (hvisible c hunsigned).2

/-- Digits stand for their number. -/
theorem denotes_digits (sign : Option Bool) {digits : List UInt8} (hne : digits ≠ [])
    (h : ∀ c ∈ digits, isDigit c = true) : Denotes (signBytes sign ++ digits)
      (if sign = some true then -(mpzSetStr digits 10 : ℚ) else mpzSetStr digits 10) := by
  let t : Numeral .decimal := ⟨digits, none, none, fun c hc => isDigitInBase_ten (h c hc), nofun⟩
  have hdigits : t.int ++ t.fractionDigits = digits := List.append_nil _
  have hread : t.Readable := by
    refine ⟨?_, nofun⟩
    rwa [hdigits]
  have hvalue : t.value = mpzSetStr digits 10 := by
    rw [t.value_decimal, hdigits]
    exact mul_one _
  have hbytes : t.bytes = digits := List.append_nil _
  have hdenotes := denotes_decimal sign hread nofun
  rwa [hvalue, hbytes] at hdenotes

/-- The text of an integer stands for it. -/
theorem denotes_decimalText (z : ℤ) : Denotes (decimalText z) z := by
  have h := fun sign => denotes_digits sign (decimalBytes_ne_nil z.natAbs) (isDigit_decimalBytes _)
  have habs : ((z.natAbs : ℤ) : ℚ) = z.natAbs := Int.cast_natCast _
  rw [mpzSetStr_decimalBytes] at h
  unfold decimalText
  by_cases hz : z < 0
  · have hneg : z = -(z.natAbs : ℤ) := by omega
    have hcast : (z : ℚ) = -(z.natAbs : ℚ) := by
      rw [← habs, ← Int.cast_neg, ← hneg]
    rw [if_pos hz, hcast]
    exact h (some true)
  · have hpos : z = (z.natAbs : ℤ) := by omega
    have hcast : (z : ℚ) = (z.natAbs : ℚ) := by rw [← habs, ← hpos]
    rw [if_neg hz, hcast]
    exact h none

/-- The exponent that is written. -/
def writtenExponent (z : ℤ) : Exponent where
  upper := false
  blanks := []
  sign := some (z < 0)
  digits := decimalBytes z.natAbs
  blanks_spaces := nofun
  digits_decimal := isDigit_decimalBytes _

theorem writtenExponent_bytes (z : ℤ) : (writtenExponent z).bytes = signedText z := by
  unfold writtenExponent Exponent.bytes signBytes signedText
  simp

theorem writtenExponent_value (z : ℤ) : (writtenExponent z).value = z := by
  unfold writtenExponent Exponent.value
  simp only [mpzSetStr_decimalBytes, Option.some.injEq, decide_eq_true_eq]
  split <;> omega

theorem writtenExponent_readable {z : ℤ} (hz : z.natAbs < 10 ^ 11) : (writtenExponent z).Readable :=
  ⟨decimalBytes_ne_nil _, length_decimalBytes_le (by decide) hz⟩

/-- Digits with a point behind the first few, or none if these are all. -/
def pointed (digits : List UInt8) (n : ℕ) (exponent : Option Exponent)
    (h : ∀ c ∈ digits, isDigit c = true) : Numeral .decimal where
  int := digits.take n
  fraction := if digits.length > n then some (digits.drop n) else none
  exponent := exponent
  int_digits c hc := isDigitInBase_ten (h c (List.mem_of_mem_take hc))
  fraction_digits := by
    intro part hpart c hc
    split at hpart
    case isTrue =>
      cases hpart
      exact isDigitInBase_ten (h c (List.mem_of_mem_drop hc))
    case isFalse => cases hpart

section Pointed

variable {digits : List UInt8} {n : ℕ} {exponent : Option Exponent}
  {h : ∀ c ∈ digits, isDigit c = true}

theorem pointed_fractionDigits : (pointed digits n exponent h).fractionDigits = digits.drop n := by
  unfold pointed Numeral.fractionDigits
  dsimp only
  split
  case isTrue => rfl
  case isFalse hle => exact (List.drop_eq_nil_of_le (by omega)).symm

theorem pointed_digits :
    (pointed digits n exponent h).int ++ (pointed digits n exponent h).fractionDigits = digits := by
  rw [pointed_fractionDigits]
  exact List.take_append_drop n digits

theorem pointed_mantissaBytes : (pointed digits n exponent h).mantissaBytes =
    digits.take n ++ if digits.length > n then byte '.' :: digits.drop n else [] := by
  unfold pointed Numeral.mantissaBytes
  dsimp only
  split
  · rfl
  · exact (List.append_nil _).symm

theorem pointed_readable (hne : digits ≠ []) (he : ∀ e ∈ exponent, e.Readable) :
    (pointed digits n exponent h).Readable := by
  unfold Numeral.Readable
  rw [pointed_digits]
  exact ⟨hne, he⟩

end Pointed

/-! ## The layouts -/

namespace MpfDigits

variable (d : MpfDigits)

/-- The form with an exponent is a numeral for the digits and the exponent of GMP. -/
theorem exists_scientific (hexp : (d.exp - 1).natAbs < 10 ^ 11) : ∃ t : Numeral .decimal, t.Readable ∧
    t.Plain ∧ t.bytes = scientificText d.digits d.exp ∧ t.value = d.magnitude := by
  obtain ⟨c, rest, hcons⟩ := List.exists_cons_of_ne_nil d.digits_ne_nil
  let e := writtenExponent (d.exp - 1)
  let t := pointed d.digits 1 (some e) d.digits_decimal
  have hread : t.Readable := by
    apply pointed_readable d.digits_ne_nil
    rintro _ ⟨⟩
    exact writtenExponent_readable hexp
  have hplain : t.Plain := by
    rintro _ ⟨⟩
    rfl
  have hbytes : t.bytes = scientificText d.digits d.exp := by
    calc t.bytes = t.mantissaBytes ++ byte 'e' :: e.bytes := rfl
      _ = _ := by
        rw [pointed_mantissaBytes, writtenExponent_bytes]
        unfold scientificText
        rw [hcons]
        rfl
  have hvalue : t.value = d.magnitude := by
    have hexponent : t.exponentValue = d.exp - 1 := writtenExponent_value _
    have hlength : ((d.digits.drop 1).length : ℤ) = d.digits.length - 1 := by
      rw [hcons]
      simp
    have hsub : d.exp - 1 - ((d.digits.length : ℤ) - 1) = d.exp - d.digits.length := by omega
    rw [t.value_decimal, pointed_digits, hexponent, pointed_fractionDigits, hlength, hsub]
    rfl
  exact ⟨t, hread, hplain, hbytes, hvalue⟩

set_option maxRecDepth 5000 in
/-- A zero, a point, zeros and the digits. -/
theorem exists_fixed_of_nonpos (hexp : d.exp ≤ 0) : ∃ t : Numeral .decimal, t.Readable ∧ t.Plain ∧
    t.bytes = fixedText d.digits d.exp ∧ t.value = d.magnitude := by
  let part := List.replicate (-d.exp).toNat (byte '0') ++ d.digits
  have hpart : ∀ c ∈ part, isDigitInBase c NumeralBase.decimal.radix = true := by
    intro c hc
    rcases List.mem_append.mp hc with hzero | hdigit
    · rw [List.eq_of_mem_replicate hzero]
      decide
    · exact isDigitInBase_ten (d.digits_decimal c hdigit)
  let t : Numeral .decimal := ⟨[byte '0'], some part, none, by decide, by
    rintro _ ⟨⟩ c hc
    exact hpart c hc⟩
  have hread : t.Readable := ⟨List.cons_ne_nil _ _, nofun⟩
  have hbytes : t.bytes = fixedText d.digits d.exp := by
    unfold fixedText
    rw [if_pos hexp]
    calc t.bytes = ([byte '0'] ++ byte '.' :: part) ++ [] := rfl
      _ = _ := by rw [List.append_nil, List.append_assoc]; rfl
  have hvalue : t.value = d.magnitude := by
    have hall : t.int ++ t.fractionDigits =
        List.replicate ((-d.exp).toNat + 1) (byte '0') ++ d.digits := by
      rw [List.replicate_succ, List.cons_append]
      rfl
    have hlength : ((t.fractionDigits.length : ℕ) : ℤ) = d.digits.length - d.exp := by
      show ((part.length : ℕ) : ℤ) = _
      rw [List.length_append, List.length_replicate]
      omega
    have hsub : t.exponentValue - ((d.digits.length : ℤ) - d.exp) = d.exp - d.digits.length := by
      show 0 - ((d.digits.length : ℤ) - d.exp) = _
      omega
    rw [t.value_decimal, hall, mpzSetStr_append, mpzSetStr_zeros, Nat.zero_mul, Nat.zero_add, hlength,
      hsub]
    rfl
  exact ⟨t, hread, nofun, hbytes, hvalue⟩

/-- The point among the digits, or behind them and left out. -/
theorem exists_fixed_of_le (hpos : 0 < d.exp) (hexp : d.exp ≤ d.digits.length) :
    ∃ t : Numeral .decimal, t.Readable ∧ t.Plain ∧ t.bytes = fixedText d.digits d.exp ∧
      t.value = d.magnitude := by
  let t := pointed d.digits d.exp.toNat none d.digits_decimal
  have hbytes : t.bytes = fixedText d.digits d.exp := by
    unfold fixedText
    rw [if_neg (by omega), if_pos hexp]
    calc t.bytes = t.mantissaBytes ++ [] := rfl
      _ = _ := by rw [List.append_nil, pointed_mantissaBytes]
  have hvalue : t.value = d.magnitude := by
    have hsub : t.exponentValue - (((d.digits.drop d.exp.toNat).length : ℕ) : ℤ) =
        d.exp - d.digits.length := by
      show 0 - (((d.digits.drop d.exp.toNat).length : ℕ) : ℤ) = _
      rw [List.length_drop]
      omega
    rw [t.value_decimal, pointed_digits, pointed_fractionDigits, hsub]
    rfl
  exact ⟨t, pointed_readable d.digits_ne_nil nofun, nofun, hbytes, hvalue⟩

/-- The digits and zeros. -/
theorem exists_fixed_of_lt (hexp : (d.digits.length : ℤ) < d.exp) : ∃ t : Numeral .decimal,
    t.Readable ∧ t.Plain ∧ t.bytes = fixedText d.digits d.exp ∧ t.value = d.magnitude := by
  let zeros := d.exp.toNat - d.digits.length
  let all := d.digits ++ List.replicate zeros (byte '0')
  have hall : ∀ c ∈ all, isDigitInBase c NumeralBase.decimal.radix = true := by
    intro c hc
    rcases List.mem_append.mp hc with hdigit | hzero
    · exact isDigitInBase_ten (d.digits_decimal c hdigit)
    · rw [List.eq_of_mem_replicate hzero]
      decide
  let t : Numeral .decimal := ⟨all, none, none, hall, nofun⟩
  have hint : t.int ++ t.fractionDigits = all := List.append_nil _
  have hread : t.Readable := by
    refine ⟨?_, nofun⟩
    rw [hint]
    exact List.append_ne_nil_of_left_ne_nil d.digits_ne_nil _
  have hbytes : t.bytes = fixedText d.digits d.exp := by
    unfold fixedText
    rw [if_neg (by omega), if_neg (by omega)]
    calc t.bytes = all ++ [] := rfl
      _ = all := List.append_nil _
  have hvalue : t.value = d.magnitude := by
    have hten : (10 : ℚ) ≠ 0 := by norm_num
    have hzeros : (zeros : ℤ) = d.exp - d.digits.length := by
      show ((d.exp.toNat - d.digits.length : ℕ) : ℤ) = _
      omega
    have hexponent : t.exponentValue - ((t.fractionDigits.length : ℕ) : ℤ) = 0 := rfl
    rw [t.value_decimal, hint, mpzSetStr_append, mpzSetStr_zeros, List.length_replicate, hexponent,
      zpow_zero, mul_one, Nat.add_zero, Nat.cast_mul, Nat.cast_pow]
    unfold magnitude
    rw [← hzeros, zpow_natCast]
    rfl
  exact ⟨t, hread, nofun, hbytes, hvalue⟩

/-- Whichever form is chosen, it is a numeral for what GMP gave. -/
theorem exists_numeral (hexp : (d.exp - 1).natAbs < 10 ^ 11) : ∃ t : Numeral .decimal, t.Readable ∧
    t.Plain ∧ t.bytes = (if useScientific d.exp then scientificText d.digits d.exp
      else fixedText d.digits d.exp) ∧ t.value = d.magnitude := by
  by_cases hscientific : useScientific d.exp = true
  · rw [if_pos hscientific]
    exact d.exists_scientific hexp
  · rw [if_neg hscientific]
    rcases le_or_gt d.exp 0 with hnonpos | hpos
    · exact d.exists_fixed_of_nonpos hnonpos
    · rcases le_or_gt d.exp d.digits.length with hle | hlt
      · exact d.exists_fixed_of_le hpos hle
      · exact d.exists_fixed_of_lt hlt

/-- The text fits the buffer. -/
theorem length_lt_bufSize (hexp : (d.exp - 1).natAbs < 10 ^ 11) :
    ((if d.negative then [byte '-'] else []) ++
      if useScientific d.exp then scientificText d.digits d.exp
      else fixedText d.digits d.exp).length < bufSize d.negative d.digits d.exp := by
  have hsign : (if d.negative then [byte '-'] else []).length = if d.negative then 1 else 0 := by
    cases d.negative <;> rfl
  have hlength := d.length_le
  unfold significantDigits at hlength
  have hexponent := length_decimalBytes_le (by decide) hexp
  unfold bufSize significantDigits
  rw [List.length_append, hsign]
  by_cases hscientific : useScientific d.exp = true
  · rw [if_pos hscientific, if_pos hscientific]
    unfold scientificText signedText
    have hpart : (if d.digits.length > 1 then byte '.' :: d.digits.drop 1 else []).length ≤ 16 := by
      split
      · rw [List.length_cons, List.length_drop]
        omega
      · exact Nat.zero_le _
    simp only [List.cons_append, List.length_cons, List.length_append]
    omega
  · rw [if_neg hscientific, if_neg hscientific]
    unfold useScientific significantDigits at hscientific
    simp only [Bool.or_eq_true, decide_eq_true_eq, not_or, not_lt, not_le] at hscientific
    have hfixed : (fixedText d.digits d.exp).length ≤ max d.exp.toNat d.digits.length + 5 := by
      unfold fixedText
      split
      · simp only [List.length_append, List.length_cons, List.length_nil, List.length_replicate]
        omega
      · split
        · rw [List.length_append, List.length_take]
          split
          · rw [List.length_cons, List.length_drop]
            omega
          · rw [List.length_nil]
            omega
        · rw [List.length_append, List.length_replicate]
          omega
    omega

/-- The text is in the grammar and stands for the number of GMP. -/
theorem exists_layout (hexp : (d.exp - 1).natAbs < 10 ^ 11) :
    ∃ text, layout d.mant d.exp = some text ∧ Denotes text d.value := by
  obtain ⟨c, rest, hcons⟩ := List.exists_cons_of_ne_nil d.digits_ne_nil
  have hc : isSign c = false := (isDigit_plain (d.digits_decimal c (hcons ▸ List.mem_cons_self ..))).1
  have hnonzero : ¬(d.mant = [] ∨ d.mant = [byte '0']) := by
    have hhead := d.head_ne_zero
    unfold mant
    rw [hcons] at hhead ⊢
    cases d.negative with
    | true => rintro (h | h) <;> cases h
    | false =>
      rintro (h | h)
      · cases h
      · apply hhead
        rw [(List.cons.inj h).1]
        rfl
  have hnegative : decide (d.mant.head? = some (byte '-')) = d.negative := by
    unfold mant
    rw [hcons]
    cases d.negative with
    | true => rfl
    | false =>
      apply decide_eq_false
      rintro ⟨⟩
      cases hc
  have hdigits : (if d.negative then d.mant.drop 1 else d.mant) = d.digits := by
    unfold mant
    cases d.negative <;> rfl
  obtain ⟨t, hread, hplain, hbytes, hvalue⟩ := d.exists_numeral hexp
  have hdenotes : Denotes ((if d.negative then [byte '-'] else []) ++
      if useScientific d.exp then scientificText d.digits d.exp
      else fixedText d.digits d.exp) d.value := by
    rw [← hbytes]
    unfold value
    rw [← hvalue]
    cases d.negative with
    | true => exact denotes_decimal (some true) hread hplain
    | false => exact denotes_decimal none hread hplain
  refine ⟨_, ?_, hdenotes⟩
  unfold layout
  rw [if_neg hnonzero]
  simp only [hnegative, hdigits]
  rw [if_pos (d.length_lt_bufSize hexp), hdenotes.nullTerminated]

end MpfDigits

/-! ## The exponents of GMP -/

set_option maxRecDepth 5000 in
theorem digitValue_facts {c : UInt8} (hc : isDigit c = true) :
    digitValue c < 10 ∧ (c ≠ byte '0' → 0 < digitValue c) := by
  revert c
  decide

theorem mpzSetStr_cons (c : UInt8) (digits : List UInt8) (radix : ℕ) :
    mpzSetStr (c :: digits) radix = digitValue c * radix ^ digits.length + mpzSetStr digits radix := by
  have hone : mpzSetStr [c] radix = digitValue c := by
    show radix * 0 + digitValue c = digitValue c
    rw [Nat.mul_zero, Nat.zero_add]
  rw [← List.singleton_append, mpzSetStr_append, hone]

theorem mpzSetStr_lt {digits : List UInt8} (h : ∀ c ∈ digits, isDigit c = true) :
    mpzSetStr digits 10 < 10 ^ digits.length := by
  induction digits with
  | nil => exact Nat.one_pos
  | cons c digits ih =>
    have hc := (digitValue_facts (h c (List.mem_cons_self ..))).1
    have hrest := ih fun c hc => h c (List.mem_cons_of_mem _ hc)
    have hmul : digitValue c * 10 ^ digits.length ≤ 9 * 10 ^ digits.length :=
      Nat.mul_le_mul_right _ (by omega)
    rw [mpzSetStr_cons, List.length_cons, pow_succ]
    omega

/-- The digits begin with one that is not zero. -/
theorem MpfDigits.pow_le_digits (d : MpfDigits) :
    10 ^ (d.digits.length - 1) ≤ mpzSetStr d.digits 10 := by
  obtain ⟨c, rest, hcons⟩ := List.exists_cons_of_ne_nil d.digits_ne_nil
  have hhead := d.head_ne_zero
  rw [hcons] at hhead
  have hpos := (digitValue_facts (d.digits_decimal c (hcons ▸ List.mem_cons_self ..))).2 fun h =>
    hhead (by rw [h]; rfl)
  rw [hcons, mpzSetStr_cons, List.length_cons, Nat.add_sub_cancel]
  calc 10 ^ rest.length = 1 * 10 ^ rest.length := (Nat.one_mul _).symm
    _ ≤ digitValue c * 10 ^ rest.length := Nat.mul_le_mul_right _ hpos
    _ ≤ _ := Nat.le_add_right _ _

/-- The number that GMP gives is between two powers of ten. -/
theorem MpfDigits.magnitude_bounds (d : MpfDigits) :
    (10 : ℚ) ^ (d.exp - 1) ≤ d.magnitude ∧ d.magnitude < (10 : ℚ) ^ d.exp := by
  have hten : (10 : ℚ) ≠ 0 := by norm_num
  have hpos := List.length_pos_of_ne_nil d.digits_ne_nil
  have hpower : 0 < (10 : ℚ) ^ (d.exp - d.digits.length) := zpow_pos (by norm_num) _
  have hlower : ((10 : ℚ) ^ (d.digits.length - 1)) ≤ mpzSetStr d.digits 10 := by
    exact_mod_cast d.pow_le_digits
  have hupper : (mpzSetStr d.digits 10 : ℚ) < (10 : ℚ) ^ d.digits.length := by
    exact_mod_cast mpzSetStr_lt d.digits_decimal
  unfold magnitude
  constructor
  · calc (10 : ℚ) ^ (d.exp - 1)
        = (10 : ℚ) ^ (d.digits.length - 1) * (10 : ℚ) ^ (d.exp - d.digits.length) := by
          rw [← zpow_natCast, ← zpow_add₀ hten]
          congr 1
          omega
      _ ≤ _ := mul_le_mul_of_nonneg_right hlower hpower.le
  · calc (mpzSetStr d.digits 10 : ℚ) * (10 : ℚ) ^ (d.exp - d.digits.length)
        < (10 : ℚ) ^ d.digits.length * (10 : ℚ) ^ (d.exp - d.digits.length) :=
          mul_lt_mul_of_pos_right hupper hpower
      _ = (10 : ℚ) ^ d.exp := by
          rw [← zpow_natCast, ← zpow_add₀ hten]
          congr 1
          omega

theorem MpfDigits.abs_value (d : MpfDigits) : |d.value| = d.magnitude := by
  have hnonneg : 0 ≤ d.magnitude := (zpow_nonneg (by norm_num) _).trans d.magnitude_bounds.1
  unfold value
  split
  · rw [abs_neg, abs_of_nonneg hnonneg]
  · exact abs_of_nonneg hnonneg

/-- A power of ten that no part of a rational of GMP reaches. -/
def gmpDigits : ℕ := 45812984470

theorem Mpq.Sized.lt_pow {q : Mpq} (hq : q.Sized) :
    q.num.natAbs < 10 ^ gmpDigits ∧ q.den < 10 ^ gmpDigits := by
  have hpow : 2 ^ (64 * (2 ^ 31 - 1)) ≤ 10 ^ gmpDigits := by
    calc 2 ^ (64 * (2 ^ 31 - 1)) ≤ 2 ^ (3 * gmpDigits) :=
          Nat.pow_le_pow_right (by decide) (by unfold gmpDigits; omega)
      _ = (2 ^ 3) ^ gmpDigits := pow_mul 2 3 gmpDigits
      _ ≤ 10 ^ gmpDigits := Nat.pow_le_pow_left (by decide) _
  exact ⟨hq.1.trans_le hpow, hq.2.trans_le hpow⟩

/-- A rational of GMP is between two powers of ten. -/
theorem Mpq.Sized.abs_bounds {q : Mpq} (hq : q.Sized) (hne : q.num ≠ 0) :
    (10 : ℚ) ^ (-(gmpDigits : ℤ)) ≤ |q.toRat| ∧ |q.toRat| ≤ (10 : ℚ) ^ (gmpDigits : ℤ) := by
  obtain ⟨hnum, hden⟩ := hq.lt_pow
  have hdenpos : (0 : ℚ) < q.den := Nat.cast_pos.mpr q.den_pos
  have habs : |q.toRat| = q.num.natAbs / q.den := by
    unfold Mpq.toRat
    rw [abs_div, abs_of_pos hdenpos, Nat.cast_natAbs, Int.cast_abs]
  have hone : (1 : ℚ) ≤ q.num.natAbs := by
    exact_mod_cast Int.natAbs_pos.mpr hne
  have hnum' : (q.num.natAbs : ℚ) ≤ (10 : ℚ) ^ gmpDigits := by exact_mod_cast hnum.le
  have hden' : (q.den : ℚ) ≤ (10 : ℚ) ^ gmpDigits := by exact_mod_cast hden.le
  have hdenone : (1 : ℚ) ≤ q.den := by exact_mod_cast q.den_pos
  rw [habs, zpow_neg, zpow_natCast]
  constructor
  · rw [le_div_iff₀ hdenpos, inv_mul_le_iff₀ (by positivity)]
    calc (q.den : ℚ) ≤ (10 : ℚ) ^ gmpDigits := hden'
      _ = (10 : ℚ) ^ gmpDigits * 1 := (mul_one _).symm
      _ ≤ _ := mul_le_mul_of_nonneg_left hone (by positivity)
  · exact (div_le_self (by positivity) hdenone).trans hnum'

/-- The exponent of what GMP gives for a number of its size has at most eleven digits. -/
theorem MpfDigits.exp_lt {d : MpfDigits} {q : Mpq} (hq : q.Sized) (hne : q.num ≠ 0)
    (hclose : |d.value - q.toRat| ≤ |q.toRat| / 2) : (d.exp - 1).natAbs < 10 ^ 11 := by
  obtain ⟨hlower, hupper⟩ := d.magnitude_bounds
  obtain ⟨hsmall, hlarge⟩ := hq.abs_bounds hne
  have htri := abs_sub_abs_le_abs_sub d.value q.toRat
  have htri' := abs_sub_abs_le_abs_sub q.toRat d.value
  rw [abs_sub_comm] at htri'
  rw [d.abs_value] at htri htri'
  have hpos : (0 : ℚ) < (10 : ℚ) ^ (gmpDigits : ℤ) := zpow_pos (by norm_num) _
  have hpos' : (0 : ℚ) < (10 : ℚ) ^ (-(gmpDigits : ℤ)) := zpow_pos (by norm_num) _
  have hten : (10 : ℚ) ≠ 0 := by norm_num
  -- Up to a half, the number is the one that was written.
  have hupper' : (10 : ℚ) ^ (d.exp - 1) < (10 : ℚ) ^ ((gmpDigits : ℤ) + 1) := by
    rw [zpow_add_one₀ hten]
    linarith
  have hlower' : (10 : ℚ) ^ (-(gmpDigits : ℤ) - 1) < (10 : ℚ) ^ d.exp := by
    rw [zpow_sub_one₀ hten]
    linarith
  have hone : (1 : ℚ) < 10 := by norm_num
  have h₁ := (zpow_lt_zpow_iff_right₀ hone).mp hupper'
  have h₂ := (zpow_lt_zpow_iff_right₀ hone).mp hlower'
  unfold gmpDigits at h₁ h₂
  omega

/-! ## Reading the text again -/

/-- A number object is the one that is made of its value. -/
theorem NumberObject.newNumberObject_toRat (x : NumberObject) :
    newNumberObject (Mpq.ofRat x.1.toRat) = x.1 := by
  have hsame : (⟨_, newNumberObject_normal (Mpq.canonical_ofRat x.1.toRat)⟩ : NumberObject) = x := by
    apply NumberObject.toRat_injective
    exact (Chloride.newNumberObject_toRat _).trans (Mpq.toRat_ofRat _)
  exact congrArg Subtype.val hsame

/-- What is read of a text in the grammar. -/
theorem Denotes.numberOfString {str : List UInt8} {q : ℚ} (h : Denotes str q) :
    numberOfString str = some (.ok (newNumberObject (Mpq.ofRat q))) := by
  unfold Chloride.numberOfString
  rw [h.read (terminated_of_null _ _)]
  rfl

/-- What is read of digits. -/
theorem numberOfString_decimal {digits : List UInt8} (hne : digits ≠ []) (h : ∀ c ∈ digits, isDigit c = true) :
    numberOfString digits = some (.ok (newNumberObject (Mpq.ofRat (mpzSetStr digits 10)))) :=
  (denotes_digits none hne h).numberOfString

/-- The text of an integer is read as the same integer, and the text of any other number is in the grammar
and is read as exactly the digits and the exponent that GMP gave for it. -/
theorem string_faithful (mpfGetStr : Mpq → List UInt8 × ℤ) :
    (∀ x : NumberObject, x.1.toRat.den = 1 → ∃ text, x.1.string mpfGetStr = some text ∧
      numberOfString text = some (.ok x.1)) ∧
    ∀ (q : Mpq) (d : MpfDigits), q.Canonical → q.den ≠ 1 → q.Sized →
      mpfGetStr q = (d.mant, d.exp) → |d.value - q.toRat| ≤ |q.toRat| / 2 →
      ∃ text, (Number.mpq q).string mpfGetStr = some text ∧ Denotes text d.value ∧
        ∃ c : NumberObject, numberOfString text = some (.ok c.1) ∧ c.1.toRat = d.value := by
  constructor
  · rintro ⟨x, hx⟩ hden
    cases x with
    | i64 n =>
      have hdenotes := denotes_decimalText n.toInt
      have hlength : (decimalText n.toInt).length ≤ 31 := by
        have hfits := Signed64.fits_toInt n
        have habs : n.toInt.natAbs < 10 ^ 19 := by
          unfold Signed64.Fits at hfits
          omega
        have hdigits := length_decimalBytes_le (by decide) habs
        unfold decimalText
        rw [List.length_append]
        split
        · rw [List.length_singleton]
          omega
        · rw [List.length_nil]
          omega
      refine ⟨_, rfl, ?_⟩
      rw [List.take_of_length_le hlength, hdenotes.nullTerminated, hdenotes.numberOfString]
      exact congrArg (some ∘ Except.ok) (NumberObject.newNumberObject_toRat ⟨.i64 n, hx⟩)
    | mpq q =>
      have hq : q.den = 1 := hx.1.toRat_parts.2.symm.trans hden
      have hvalue : (q.num : ℚ) = q.toRat := by
        unfold Mpq.toRat
        rw [hq, Nat.cast_one, div_one]
      have hdenotes := denotes_decimalText q.num
      refine ⟨_, if_pos hq, ?_⟩
      rw [hdenotes.nullTerminated, hdenotes.numberOfString, hvalue]
      exact congrArg (some ∘ Except.ok) (NumberObject.newNumberObject_toRat ⟨.mpq q, hx⟩)
  · intro q d hq hden hsized hgmp hclose
    have hne : q.num ≠ 0 := by
      intro hzero
      apply hden
      unfold Mpq.Canonical at hq
      rw [hzero] at hq
      exact (Nat.coprime_zero_left _).mp hq
    obtain ⟨text, htext, hdenotes⟩ := d.exists_layout (MpfDigits.exp_lt hsized hne hclose)
    refine ⟨text, ?_, hdenotes, ⟨_, newNumberObject_normal (Mpq.canonical_ofRat d.value)⟩,
      hdenotes.numberOfString, ?_⟩
    · unfold Number.string
      dsimp only
      rw [if_neg hden, hgmp]
      exact htext
    · rw [newNumberObject_toRat, Mpq.toRat_ofRat]

set_option maxRecDepth 5000 in
/-- A quarter is written `0.25`. -/
theorem string_quarter : ∃ text,
    (Number.mpq ⟨1, 4, by decide⟩).string (fun _ => ([byte '2', byte '5'], 0)) = some text ∧
    Denotes text (25 * 10 ^ (-2 : ℤ)) ∧
    ∃ c : NumberObject, numberOfString text = some (.ok c.1) ∧ c.1.toRat = 25 * 10 ^ (-2 : ℤ) := by
  let q : Mpq := ⟨1, 4, by decide⟩
  let d : MpfDigits := ⟨false, [byte '2', byte '5'], 0, by decide, List.cons_ne_nil _ _,
    by decide, by decide⟩
  have hvalue : d.value = 25 * 10 ^ (-2 : ℤ) := rfl
  have hsized : q.Sized := by
    have hthree : 2 ^ 3 ≤ 2 ^ (64 * (2 ^ 31 - 1)) := Nat.pow_le_pow_right (by decide) (by decide)
    exact ⟨lt_of_lt_of_le (by decide) hthree, lt_of_lt_of_le (by decide) hthree⟩
  have hclose : |d.value - q.toRat| ≤ |q.toRat| / 2 := by
    rw [hvalue]
    norm_num [q, Mpq.toRat]
  have h := (string_faithful fun _ => ([byte '2', byte '5'], 0)).2 q d (Nat.coprime_one_left 4)
    (by decide) hsized rfl hclose
  rwa [hvalue] at h

end Chloride
