import Chloride.Objects.StringBytes
import Chloride.Runtime.Arithmetic

/-!
# Reading numerals

`mpq_set_decimal_str_exp` of `src/parser/number/number.c`, which reads a numeral of one of four bases
into a GMP rational. It gets a pointer and a length, so the model has the bytes of the given length and
the memory beyond them. A read behind the end of the memory, and a length that is counted down from
zero, are `none`.

A numeral behind its sign and its prefix is a `Numeral`, whose digits are digits of its base.
`readBody_eq_some` says what the reader takes for one; the reader's own grammar lets blanks stand behind
the mark of an exponent, and ends at a null byte. `mpqSetDecimalStrExp_iff` tells for which bytes that
makes no difference to the grammar of the comment in the source.
-/

namespace Chloride

/-! ## The reader -/

/-- `isspace`, in the "C" locale. -/
def isSpace (c : UInt8) : Bool := c = 32 || (9 ≤ c && c ≤ 13)

/-- `isdigit`. -/
def isDigit (c : UInt8) : Bool := byte '0' ≤ c && c ≤ byte '9'

/-- The letters that are digits in base 16. -/
def isHexLetter (c : UInt8) : Bool := (byte 'a' ≤ c && c ≤ byte 'f') || (byte 'A' ≤ c && c ≤ byte 'F')

/-- `is_digit_in_base`. -/
def isDigitInBase (c : UInt8) (radix : ℕ) : Bool :=
  if radix ≤ 10 then byte '0' ≤ c && c.toNat < 48 + radix else isDigit c || isHexLetter c

/-- The value of a digit for `mpz_set_str`. -/
def digitValue (c : UInt8) : ℕ :=
  if isDigit c then c.toNat - 48 else if byte 'a' ≤ c then c.toNat - 87 else c.toNat - 55

/-- `mpz_set_str`, of digits of the base. -/
def mpzSetStr (digits : List UInt8) (radix : ℕ) : ℕ :=
  digits.foldl (fun n c => radix * n + digitValue c) 0

/-- What `detect_base` finds out. -/
structure NumeralBase where
  radix : ℕ
  expBase : ℕ
  expCharLo : UInt8
  expCharHi : UInt8
  prefixLen : ℕ
  deriving DecidableEq

namespace NumeralBase

def decimal : NumeralBase := ⟨10, 10, byte 'e', byte 'E', 0⟩

def hexadecimal : NumeralBase := ⟨16, 2, byte 'p', byte 'P', 2⟩

def octal : NumeralBase := ⟨8, 8, byte 'e', byte 'E', 2⟩

def binary : NumeralBase := ⟨2, 2, byte 'p', byte 'P', 2⟩

end NumeralBase

/-- `detect_base`, which looks at the second byte only behind a zero. -/
def detectBase : List UInt8 → Option NumeralBase
  | [] => none
  | c :: str =>
    if c = byte '0' then
      str.head?.map fun d =>
        if d = byte 'x' ∨ d = byte 'X' then .hexadecimal
        else if d = byte 'o' ∨ d = byte 'O' then .octal
        else if d = byte 'b' ∨ d = byte 'B' then .binary
        else .decimal
    else some .decimal

/-- The loop over leading whitespace, which does not look at the length: it ends at the first byte that
is none, in the memory beyond if need be. -/
def skipSpaces (str beyond : List UInt8) : Option (List UInt8 × List UInt8) :=
  match str.dropWhile isSpace, beyond.dropWhile isSpace with
  | c :: str, _ => some (c :: str, beyond)
  | [], c :: beyond => some ([], c :: beyond)
  | [], [] => none

/-- A byte that is a sign. -/
def isSign (c : UInt8) : Bool := c = byte '-' || c = byte '+'

/-- Whether there is a minus sign, and what is behind the sign. -/
def takeSign (str : List UInt8) : Bool × List UInt8 :=
  if str.head? = some (byte '-') then (true, str.drop 1)
  else if str.head? = some (byte '+') then (false, str.drop 1)
  else (false, str)

/-- The string up to a character, and what is behind it if `strchr` finds it. -/
def splitAtByte (c : UInt8) (str : List UInt8) : List UInt8 × Option (List UInt8) :=
  if c ∈ str then (str.takeWhile (· ≠ c), some ((str.dropWhile (· ≠ c)).drop 1)) else (str, none)

/-- The exponent, if what stands for it is one. -/
def readExponent (expPart : List UInt8) : Option ℤ :=
  let (expNeg, digits) := takeSign (expPart.dropWhile isSpace)
  let run := digits.takeWhile isDigit
  if run = [] ∨ run ≠ digits ∨ run.length > 11 then none
  else some (if expNeg then -(mpzSetStr run 10 : ℤ) else mpzSetStr run 10)

/-- The exponent of a numeral that may have none. -/
def expValue : Option (List UInt8) → Option ℤ
  | none => some 0
  | some expPart => readExponent expPart

/-- The exact rational value of the digits before and behind the point, and an exponent. -/
def exactValue (base : NumeralBase) (int frac : List UInt8) (expVal : ℤ) : ℚ :=
  let numerator := mpzSetStr (int ++ frac) base.radix
  let denomExp : ℤ := (if base.radix = 16 then 4 * frac.length else frac.length) - expVal
  if 0 ≤ denomExp then numerator / (base.expBase : ℚ) ^ denomExp.toNat
  else numerator * (base.expBase : ℚ) ^ (-denomExp).toNat

/-- The reader behind the prefix. -/
def readBody (base : NumeralBase) (str : List UInt8) : Option ℚ := do
  -- the string functions stop at the first null byte of the copy
  let buf := str.takeWhile (· ≠ 0)
  let expChar := if base.expCharLo ∈ buf then base.expCharLo else base.expCharHi
  let (mantissa, expPart) := splitAtByte expChar buf
  if mantissa.count (byte '.') > 1 ∨ ∃ c ∈ mantissa, c ≠ byte '.' ∧ !isDigitInBase c base.radix then none
  else
    let (int, frac) := splitAtByte (byte '.') mantissa
    let frac := frac.getD []
    let expVal ← expValue expPart
    if int ++ frac = [] then none else return exactValue base int frac expVal

/-- `mpq_set_decimal_str_exp` on the bytes of the given length and the memory beyond them; the inner
`none` is the answer -1. -/
def mpqSetDecimalStrExp (str beyond : List UInt8) : Option (Option Mpq) := do
  let (str, beyond) ← skipSpaces str beyond
  -- `len--` of a length that is zero
  if str = [] ∧ beyond.head?.any isSign then none
  else
    let (negative, str) := takeSign str
    let base ← detectBase (str ++ beyond)
    return (readBody base (str.drop base.prefixLen)).map fun r =>
      Mpq.ofRat (if negative then -r else r)

/-- `ARGON_STRING_TYPE___number__`. The bytes of a string object have a null byte behind them. -/
def numberOfString (str : List UInt8) : Option (Except ArErr Number) :=
  (mpqSetDecimalStrExp str [0]).map fun result =>
    match result with
    | none => .error ⟨"RuntimeError", "Unable to parse number"⟩
    | some r => .ok (newNumberObject r)

/-! ## Numerals -/

/-- The exponent of a numeral: which of its two marks it has, what is behind the mark, a sign, and
digits. -/
structure Exponent where
  upper : Bool
  blanks : List UInt8
  sign : Option Bool
  digits : List UInt8
  blanks_spaces : ∀ c ∈ blanks, isSpace c = true
  digits_decimal : ∀ c ∈ digits, isDigit c = true

/-- A numeral behind its sign and its prefix. Any of its parts can be there or not, and any of them can
have no digits. -/
structure Numeral (base : NumeralBase) where
  int : List UInt8
  fraction : Option (List UInt8)
  exponent : Option Exponent
  int_digits : ∀ c ∈ int, isDigitInBase c base.radix = true
  fraction_digits : ∀ digits ∈ fraction, ∀ c ∈ digits, isDigitInBase c base.radix = true

/-- Two strings with a character between them, or only the first. -/
def joinAt (c : UInt8) (before : List UInt8) : Option (List UInt8) → List UInt8
  | none => before
  | some after => before ++ c :: after

/-- A sign as it is written. -/
def signBytes : Option Bool → List UInt8
  | none => []
  | some negative => [if negative then byte '-' else byte '+']

namespace Exponent

/-- The exponent behind its mark. -/
def bytes (e : Exponent) : List UInt8 := e.blanks ++ signBytes e.sign ++ e.digits

/-- The number it stands for. -/
def value (e : Exponent) : ℤ :=
  if e.sign = some true then -(mpzSetStr e.digits 10 : ℤ) else mpzSetStr e.digits 10

/-- It has as many digits as the reader takes. -/
def Readable (e : Exponent) : Prop := e.digits ≠ [] ∧ e.digits.length ≤ 11

end Exponent

namespace Numeral

variable {base : NumeralBase} (t : Numeral base)

/-- The mark of an exponent. -/
def mark (base : NumeralBase) (e : Exponent) : UInt8 := if e.upper then base.expCharHi else base.expCharLo

/-- The digits behind the point. -/
def fractionDigits : List UInt8 := t.fraction.getD []

/-- The numeral up to its exponent. -/
def mantissaBytes : List UInt8 := joinAt (byte '.') t.int t.fraction

/-- The numeral as it is written. -/
def bytes : List UInt8 :=
  t.mantissaBytes ++
    match t.exponent with
    | none => []
    | some e => mark base e :: e.bytes

/-- The exponent, as a number. -/
def exponentValue : ℤ := (t.exponent.map Exponent.value).getD 0

/-- The rational number it stands for: its digits as an integer, divided by the power of the radix for
the fraction, and scaled by the power of the base of the exponent. -/
def value : ℚ :=
  mpzSetStr (t.int ++ t.fractionDigits) base.radix / (base.radix : ℚ) ^ t.fractionDigits.length *
    (base.expBase : ℚ) ^ t.exponentValue

/-- It has a digit before the exponent, and the exponent, if there is one, is readable. -/
def Readable : Prop := t.int ++ t.fractionDigits ≠ [] ∧ ∀ e ∈ t.exponent, e.Readable

/-- No blanks are behind the mark of the exponent. -/
def Plain : Prop := ∀ e ∈ t.exponent, e.blanks = []

end Numeral

/-! ## The parts of the reader -/

theorem splitAtByte_eq {c : UInt8} {before : List UInt8} {after : Option (List UInt8)} (h : c ∉ before) :
    splitAtByte c (joinAt c before after) = (before, after) := by
  unfold splitAtByte
  cases after with
  | none => exact if_neg h
  | some after =>
    have hall : ∀ b ∈ before, decide (b ≠ c) = true := fun b hb =>
      decide_eq_true fun heq => h (heq ▸ hb)
    unfold joinAt
    rw [if_pos (by simp), List.takeWhile_append_of_pos hall, List.dropWhile_append_of_pos hall,
      List.takeWhile_cons_of_neg (by simp), List.dropWhile_cons_of_neg (by simp), List.append_nil]
    rfl

theorem exists_joinAt (c : UInt8) (str : List UInt8) :
    ∃ before after, c ∉ before ∧ str = joinAt c before after := by
  by_cases h : c ∈ str
  · obtain ⟨before, after, rfl, hbefore⟩ := List.eq_append_cons_of_mem h
    exact ⟨before, some after, hbefore, rfl⟩
  · exact ⟨str, none, h, rfl⟩

/-- What is behind a sign, and the sign. -/
theorem exists_takeSign (str : List UInt8) :
    ∃ sign, str = signBytes sign ++ (takeSign str).2 ∧ (takeSign str).1 = decide (sign = some true) := by
  unfold takeSign
  cases str with
  | nil => exact ⟨none, rfl, rfl⟩
  | cons c rest =>
    by_cases hminus : c = byte '-'
    · subst hminus
      exact ⟨some true, rfl, rfl⟩
    · by_cases hplus : c = byte '+'
      · subst hplus
        exact ⟨some false, rfl, rfl⟩
      · refine ⟨none, ?_, ?_⟩
        · simp [hminus, hplus, signBytes]
        · simp [hminus, hplus]

theorem takeSign_signBytes (sign : Option Bool) {rest : List UInt8}
    (h : ∀ c ∈ rest.head?, isSign c = false) :
    takeSign (signBytes sign ++ rest) = (decide (sign = some true), rest) := by
  cases sign with
  | some negative => cases negative <;> rfl
  | none =>
    have hminus : rest.head? ≠ some (byte '-') := fun heq => by cases h _ heq
    have hplus : rest.head? ≠ some (byte '+') := fun heq => by cases h _ heq
    unfold takeSign signBytes
    rw [List.nil_append, if_neg hminus, if_neg hplus]
    rfl

set_option maxRecDepth 5000 in
theorem isDigit_plain {c : UInt8} (h : isDigit c = true) : isSign c = false ∧ isSpace c = false := by
  revert c
  decide

set_option maxRecDepth 5000 in
theorem isSign_not_isSpace {c : UInt8} (h : isSign c = true) : isSpace c = false := by
  revert c
  decide

theorem isSign_of_mem_signBytes {sign : Option Bool} {c : UInt8} (h : c ∈ signBytes sign) :
    isSign c = true := by
  cases sign with
  | none => cases h
  | some negative =>
    rw [List.mem_singleton.mp h]
    cases negative <;> rfl

/-- Spaces that are followed by something else. -/
theorem dropWhile_spaces {blanks rest : List UInt8} (hblanks : ∀ c ∈ blanks, isSpace c = true)
    (hrest : ∀ c ∈ rest.head?, isSpace c = false) : (blanks ++ rest).dropWhile isSpace = rest := by
  rw [List.dropWhile_append_of_pos hblanks]
  cases rest with
  | nil => rfl
  | cons c rest => exact List.dropWhile_cons_of_neg (by simp [hrest c rfl])

/-- What the reader takes for an exponent. -/
theorem readExponent_eq_some {expPart : List UInt8} {z : ℤ} (upper : Bool) :
    readExponent expPart = some z ↔
      ∃ e : Exponent, e.upper = upper ∧ e.Readable ∧ expPart = e.bytes ∧ z = e.value := by
  constructor
  · intro h
    unfold readExponent at h
    obtain ⟨sign, hsign, hneg⟩ := exists_takeSign (expPart.dropWhile isSpace)
    revert h
    generalize takeSign (expPart.dropWhile isSpace) = signed at hsign hneg
    obtain ⟨neg, digits⟩ := signed
    simp only at hsign hneg ⊢
    intro h
    split at h
    case isTrue => cases h
    case isFalse hrun =>
      push Not at hrun
      obtain ⟨hne, hall, hlength⟩ := hrun
      rw [hall] at hne hlength h
      have hdigits := List.takeWhile_eq_self_iff.mp hall
      let e : Exponent := ⟨upper, expPart.takeWhile isSpace, sign, digits,
        fun c hc => List.mem_takeWhile_imp hc, hdigits⟩
      refine ⟨e, rfl, ⟨hne, hlength⟩, ?_, ?_⟩
      · calc expPart = expPart.takeWhile isSpace ++ expPart.dropWhile isSpace :=
              (List.takeWhile_append_dropWhile).symm
          _ = e.bytes := by rw [hsign, ← List.append_assoc]; rfl
      · rw [← Option.some.inj h, hneg]
        unfold Exponent.value
        simp only [decide_eq_true_eq]
        rfl
  · rintro ⟨e, _, ⟨hne, hlength⟩, rfl, rfl⟩
    have hdigit : ∀ c ∈ e.digits.head?, isDigit c = true := fun c hc =>
      e.digits_decimal c (List.mem_of_head? hc)
    have hhead : ∀ c ∈ (signBytes e.sign ++ e.digits).head?, isSpace c = false := by
      intro c hc
      cases hs : e.sign with
      | none =>
        rw [hs] at hc
        exact (isDigit_plain (hdigit c hc)).2
      | some negative =>
        have hmem : c ∈ signBytes (some negative) := by
          rw [hs] at hc
          rw [← Option.some.inj hc]
          exact List.mem_singleton_self _
        exact isSign_not_isSpace (isSign_of_mem_signBytes hmem)
    have hsign := takeSign_signBytes e.sign fun c hc => (isDigit_plain (hdigit c hc)).1
    have hrun : e.digits.takeWhile isDigit = e.digits :=
      List.takeWhile_eq_self_iff.mpr e.digits_decimal
    unfold readExponent Exponent.bytes
    rw [List.append_assoc, dropWhile_spaces e.blanks_spaces hhead, hsign]
    simp only [hrun, ne_eq, not_true_eq_false, false_or]
    rw [if_neg (by rintro (h | h); exacts [hne h, absurd hlength (by omega)])]
    unfold Exponent.value
    simp only [decide_eq_true_eq]

/-- The bases there are. -/
def NumeralBase.Known (base : NumeralBase) : Prop :=
  base = .decimal ∨ base = .hexadecimal ∨ base = .octal ∨ base = .binary

set_option maxRecDepth 5000 in
/-- A digit of a base is none of the characters that the reader looks for. -/
theorem NumeralBase.Known.digit_plain {base : NumeralBase} (h : base.Known) {c : UInt8}
    (hc : isDigitInBase c base.radix = true) :
    c ≠ base.expCharLo ∧ c ≠ base.expCharHi ∧ c ≠ byte '.' ∧ c ≠ 0 ∧ isSpace c = false ∧
      isSign c = false := by
  rcases h with rfl | rfl | rfl | rfl
  all_goals
    revert c
    decide

/-- What the reader looks for in an exponent or a mantissa. -/
theorem NumeralBase.Known.marks_plain {base : NumeralBase} (h : base.Known) (upper : Bool) :
    (if upper then base.expCharHi else base.expCharLo) ≠ 0 ∧
      (if upper then base.expCharHi else base.expCharLo) ≠ byte '.' ∧
      isSpace (if upper then base.expCharHi else base.expCharLo) = false ∧
      isSign (if upper then base.expCharHi else base.expCharLo) = false ∧
      isDigit (if upper then base.expCharHi else base.expCharLo) = false ∧
      base.expCharLo ≠ base.expCharHi := by
  rcases h with rfl | rfl | rfl | rfl
  all_goals cases upper <;> decide

/-- Each digit behind the point is worth as many powers of the base of the exponent. -/
theorem NumeralBase.Known.radix_pow {base : NumeralBase} (h : base.Known) (n : ℕ) :
    (base.radix : ℚ) ^ n = (base.expBase : ℚ) ^ (if base.radix = 16 then 4 * n else n) := by
  rcases h with rfl | rfl | rfl | rfl
  · rfl
  · calc ((16 : ℕ) : ℚ) ^ n = (((2 : ℕ) : ℚ) ^ 4) ^ n := by norm_num
      _ = ((2 : ℕ) : ℚ) ^ (4 * n) := (pow_mul _ 4 n).symm
  · rfl
  · rfl

theorem NumeralBase.Known.expBase_ne_zero {base : NumeralBase} (h : base.Known) :
    (base.expBase : ℚ) ≠ 0 := by
  rcases h with rfl | rfl | rfl | rfl
  all_goals exact Nat.cast_ne_zero.mpr (by decide)

theorem NumeralBase.Known.exactValue_eq {base : NumeralBase} (h : base.Known) (int frac : List UInt8)
    (z : ℤ) : exactValue base int frac z =
      mpzSetStr (int ++ frac) base.radix / (base.radix : ℚ) ^ frac.length * (base.expBase : ℚ) ^ z := by
  have hbase := h.expBase_ne_zero
  unfold exactValue
  rw [h.radix_pow, div_mul_eq_mul_div, mul_div_assoc, ← zpow_natCast, ← zpow_sub₀ hbase]
  push_cast
  generalize (if base.radix = 16 then 4 * (frac.length : ℤ) else (frac.length : ℤ)) = k
  by_cases hk : 0 ≤ k - z
  · have hexp : z - k = -((k - z).toNat : ℤ) := by omega
    rw [if_pos hk, hexp, zpow_neg, zpow_natCast, div_eq_mul_inv]
  · have hexp : z - k = ((-(k - z)).toNat : ℤ) := by omega
    rw [if_neg hk, hexp, zpow_natCast]

theorem expValue_eq_some {expPart : Option (List UInt8)} {z : ℤ} (upper : Bool) :
    expValue expPart = some z ↔
      ∃ exponent : Option Exponent, (∀ e ∈ exponent, e.upper = upper ∧ e.Readable) ∧
        expPart = exponent.map Exponent.bytes ∧ z = (exponent.map Exponent.value).getD 0 := by
  cases expPart with
  | none =>
    constructor
    · intro h
      exact ⟨none, nofun, rfl, (Option.some.inj h).symm⟩
    · rintro ⟨exponent, _, hbytes, rfl⟩
      rw [Option.map_eq_none_iff.mp hbytes.symm]
      rfl
  | some expPart =>
    unfold expValue
    rw [readExponent_eq_some upper]
    constructor
    · rintro ⟨e, hupper, hreadable, rfl, rfl⟩
      refine ⟨some e, ?_, rfl, rfl⟩
      rintro _ ⟨⟩
      exact ⟨hupper, hreadable⟩
    · rintro ⟨exponent, hexponent, hbytes, rfl⟩
      obtain ⟨e, rfl, rfl⟩ := Option.map_eq_some_iff.mp hbytes.symm
      exact ⟨e, (hexponent e rfl).1, (hexponent e rfl).2, rfl, rfl⟩

/-- What is written of an exponent is none of what the reader looks for in a mantissa. -/
theorem NumeralBase.Known.mark_not_mem_exponent {base : NumeralBase} (h : base.Known) (upper : Bool)
    (e : Exponent) : (if upper then base.expCharHi else base.expCharLo) ∉ e.bytes := by
  obtain ⟨_, _, hspace, hsign, hdigit, _⟩ := h.marks_plain upper
  intro hmem
  rcases List.mem_append.mp hmem with hmem | hmem
  · rcases List.mem_append.mp hmem with hmem | hmem
    · rw [e.blanks_spaces _ hmem] at hspace
      cases hspace
    · rw [isSign_of_mem_signBytes hmem] at hsign
      cases hsign
  · rw [e.digits_decimal _ hmem] at hdigit
    cases hdigit

namespace Numeral

variable {base : NumeralBase} (t : Numeral base)

theorem mem_mantissaBytes {c : UInt8} (hc : c ∈ t.mantissaBytes) :
    c = byte '.' ∨ isDigitInBase c base.radix = true := by
  unfold mantissaBytes joinAt at hc
  cases hf : t.fraction with
  | none =>
    rw [hf] at hc
    exact .inr (t.int_digits c hc)
  | some digits =>
    rw [hf] at hc
    rcases List.mem_append.mp hc with hint | hfraction
    · exact .inr (t.int_digits c hint)
    · rcases List.mem_cons.mp hfraction with rfl | hdigit
      · exact .inl rfl
      · exact .inr (t.fraction_digits digits hf c hdigit)

theorem mark_not_mem_mantissa (h : base.Known) (upper : Bool) :
    (if upper then base.expCharHi else base.expCharLo) ∉ t.mantissaBytes := by
  intro hmem
  rcases t.mem_mantissaBytes hmem with heq | hdigit
  · exact (h.marks_plain upper).2.1 heq
  · obtain ⟨hlo, hhi, _⟩ := h.digit_plain hdigit
    cases upper
    · exact hlo rfl
    · exact hhi rfl

/-- A numeral whose exponent has the given mark. -/
theorem bytes_eq_joinAt {upper : Bool} (h : ∀ e ∈ t.exponent, e.upper = upper) :
    t.bytes = joinAt (if upper then base.expCharHi else base.expCharLo) t.mantissaBytes
      (t.exponent.map Exponent.bytes) := by
  unfold bytes
  cases he : t.exponent with
  | none => exact List.append_nil _
  | some e =>
    rw [← h e he]
    rfl

/-- The character at which the reader splits a numeral is the mark of its exponent, if it has one. -/
theorem expChar_bytes (h : base.Known) :
    ∃ upper, (∀ e ∈ t.exponent, e.upper = upper) ∧
      (if base.expCharLo ∈ t.bytes then base.expCharLo else base.expCharHi) =
        if upper then base.expCharHi else base.expCharLo := by
  have hlo := t.mark_not_mem_mantissa h false
  cases he : t.exponent with
  | none =>
    have hbytes : t.bytes = t.mantissaBytes := by
      unfold bytes
      rw [he]
      exact List.append_nil _
    exact ⟨true, nofun, if_neg (hbytes ▸ hlo)⟩
  | some e =>
    have hupper : ∀ e' ∈ t.exponent, e'.upper = e.upper := by
      intro e' he'
      rw [he] at he'
      rw [← Option.some.inj he']
    have hbytes := t.bytes_eq_joinAt hupper
    rw [he] at hbytes hupper
    refine ⟨e.upper, hupper, ?_⟩
    rw [hbytes]
    cases e.upper with
    | false => exact if_pos (List.mem_append_right _ (List.mem_cons_self ..))
    | true =>
      apply if_neg
      intro hmem
      rcases List.mem_append.mp hmem with hmantissa | hexponent
      · exact hlo hmantissa
      · rcases List.mem_cons.mp hexponent with heq | hexponent
        · exact (h.marks_plain true).2.2.2.2.2 heq
        · exact h.mark_not_mem_exponent false e hexponent

theorem point_not_mem (h : base.Known) {digits : List UInt8}
    (hdigits : ∀ c ∈ digits, isDigitInBase c base.radix = true) : byte '.' ∉ digits := fun hmem =>
  (h.digit_plain (hdigits _ hmem)).2.2.1 rfl

theorem count_point (h : base.Known) : t.mantissaBytes.count (byte '.') ≤ 1 := by
  have hint := List.count_eq_zero.mpr (point_not_mem h t.int_digits)
  unfold mantissaBytes joinAt
  cases hf : t.fraction with
  | none => exact hint.le.trans (Nat.zero_le 1)
  | some digits =>
    have hfraction := List.count_eq_zero.mpr (point_not_mem h (t.fraction_digits digits hf))
    simp [hint, hfraction]

/-- A readable numeral is read, and its value is exact. -/
theorem readBody_bytes (h : base.Known) (ht : t.Readable) {str : List UInt8}
    (hstr : str.takeWhile (· ≠ 0) = t.bytes) : readBody base str = some t.value := by
  obtain ⟨upper, hupper, hchar⟩ := t.expChar_bytes h
  have hsplit : splitAtByte (if upper then base.expCharHi else base.expCharLo) t.bytes =
      (t.mantissaBytes, t.exponent.map Exponent.bytes) := by
    rw [t.bytes_eq_joinAt hupper]
    exact splitAtByte_eq (t.mark_not_mem_mantissa h upper)
  have hpoint : splitAtByte (byte '.') t.mantissaBytes = (t.int, t.fraction) :=
    splitAtByte_eq (point_not_mem h t.int_digits)
  have hexponent : expValue (t.exponent.map Exponent.bytes) = some t.exponentValue :=
    (expValue_eq_some upper).mpr ⟨t.exponent, fun e he => ⟨hupper e he, ht.2 e he⟩, rfl, rfl⟩
  have hmantissa : ¬(t.mantissaBytes.count (byte '.') > 1 ∨
      ∃ c ∈ t.mantissaBytes, c ≠ byte '.' ∧ !isDigitInBase c base.radix) := by
    rintro (hcount | ⟨c, hc, hne, hdigit⟩)
    · exact absurd (t.count_point h) (by omega)
    · rcases t.mem_mantissaBytes hc with heq | heq
      · exact hne heq
      · rw [heq] at hdigit
        cases hdigit
  unfold readBody
  dsimp only
  rw [hstr, hchar, hsplit]
  simp only [if_neg hmantissa, hpoint, hexponent, Option.bind_eq_bind, Option.bind_some]
  exact (if_neg ht.1).trans (congrArg some (h.exactValue_eq _ _ _))

/-- What the reader takes for a numeral, and the value it finds. -/
theorem readBody_eq_some (h : base.Known) {str : List UInt8} {r : ℚ} :
    readBody base str = some r ↔
      ∃ t : Numeral base, t.Readable ∧ str.takeWhile (· ≠ 0) = t.bytes ∧ r = t.value := by
  constructor
  · intro hread
    unfold readBody at hread
    generalize str.takeWhile (· ≠ 0) = buf at hread ⊢
    dsimp only at hread
    obtain ⟨upper, hchar⟩ : ∃ upper : Bool, (if base.expCharLo ∈ buf then base.expCharLo
        else base.expCharHi) = if upper then base.expCharHi else base.expCharLo := by
      by_cases hlo : base.expCharLo ∈ buf
      · exact ⟨false, if_pos hlo⟩
      · exact ⟨true, if_neg hlo⟩
    obtain ⟨mantissa, expPart, hmark, rfl⟩ :=
      exists_joinAt (if upper then base.expCharHi else base.expCharLo) buf
    rw [hchar, splitAtByte_eq hmark] at hread
    obtain ⟨int, fraction, hint, rfl⟩ := exists_joinAt (byte '.') mantissa
    simp only [splitAtByte_eq hint] at hread
    split at hread
    case isTrue => cases hread
    case isFalse hmantissa =>
      push Not at hmantissa
      obtain ⟨hcount, hdigits⟩ := hmantissa
      obtain ⟨z, hz, hread⟩ := Option.bind_eq_some_iff.mp hread
      obtain ⟨exponent, hexponent, rfl, rfl⟩ := (expValue_eq_some upper).mp hz
      split at hread
      case isTrue => cases hread
      case isFalse hne =>
        have hdigit : ∀ c ∈ joinAt (byte '.') int fraction, c ≠ byte '.' →
            isDigitInBase c base.radix = true := by
          intro c hc hpoint
          simpa using hdigits c hc hpoint
        have hint_digits : ∀ c ∈ int, isDigitInBase c base.radix = true := by
          intro c hc
          apply hdigit c _ (fun heq => hint (heq ▸ hc))
          cases fraction with
          | none => exact hc
          | some digits => exact List.mem_append_left _ hc
        have hfraction_digits : ∀ digits ∈ fraction, ∀ c ∈ digits,
            isDigitInBase c base.radix = true := by
          rintro digits rfl c hc
          have hzero : digits.count (byte '.') = 0 := by
            unfold joinAt at hcount
            rw [List.count_append, List.count_cons_self] at hcount
            omega
          apply hdigit c
          · exact List.mem_append_right _ (List.mem_cons_of_mem _ hc)
          · rintro rfl
            exact List.count_eq_zero.mp hzero hc
        let t : Numeral base := ⟨int, fraction, exponent, hint_digits, hfraction_digits⟩
        refine ⟨t, ⟨hne, fun e he => (hexponent e he).2⟩, ?_, ?_⟩
        · exact (t.bytes_eq_joinAt fun e he => (hexponent e he).1).symm
        · rw [← Option.some.inj hread]
          exact h.exactValue_eq _ _ _
  · rintro ⟨t, ht, hstr, rfl⟩
    exact t.readBody_bytes h ht hstr

theorem mantissaBytes_ne_nil (ht : t.Readable) : t.mantissaBytes ≠ [] := by
  unfold mantissaBytes joinAt
  cases hf : t.fraction with
  | none =>
    have hne := ht.1
    unfold fractionDigits at hne
    rwa [hf, Option.getD_none, List.append_nil] at hne
  | some digits => exact List.append_ne_nil_of_right_ne_nil _ (List.cons_ne_nil _ _)

/-- A readable numeral begins with a digit or a point. -/
theorem exists_cons_bytes (ht : t.Readable) : ∃ c rest, t.bytes = c :: rest ∧
    (c = byte '.' ∨ isDigitInBase c base.radix = true) := by
  obtain ⟨c, rest, hmantissa⟩ := List.exists_cons_of_ne_nil (t.mantissaBytes_ne_nil ht)
  have hmem : c ∈ t.mantissaBytes := hmantissa ▸ List.mem_cons_self ..
  unfold bytes
  rw [hmantissa]
  exact ⟨c, _, rfl, t.mem_mantissaBytes hmem⟩

/-- What a numeral is written with. -/
theorem mem_bytes {c : UInt8} (hc : c ∈ t.bytes) :
    c = byte '.' ∨ isDigitInBase c base.radix = true ∨ c = base.expCharLo ∨ c = base.expCharHi ∨
      isSign c = true ∨ isDigit c = true ∨ ∃ e ∈ t.exponent, c ∈ e.blanks := by
  unfold bytes at hc
  rcases List.mem_append.mp hc with hmantissa | hexponent
  · rcases t.mem_mantissaBytes hmantissa with hpoint | hdigit
    · exact .inl hpoint
    · exact .inr (.inl hdigit)
  · cases he : t.exponent with
    | none =>
      rw [he] at hexponent
      cases hexponent
    | some e =>
      rw [he] at hexponent
      rcases List.mem_cons.mp hexponent with hmark | hbytes
      · unfold mark at hmark
        split at hmark
        · exact .inr (.inr (.inr (.inl hmark)))
        · exact .inr (.inr (.inl hmark))
      · rcases List.mem_append.mp hbytes with hbytes | hdigit
        · rcases List.mem_append.mp hbytes with hblank | hsign
          · exact .inr (.inr (.inr (.inr (.inr (.inr ⟨e, rfl, hblank⟩)))))
          · exact .inr (.inr (.inr (.inr (.inl (isSign_of_mem_signBytes hsign)))))
        · exact .inr (.inr (.inr (.inr (.inr (.inl (e.digits_decimal _ hdigit))))))

end Numeral

set_option maxRecDepth 5000 in
/-- Nothing that stands in a plain numeral is a blank or a null byte. -/
theorem NumeralBase.Known.visible {base : NumeralBase} (h : base.Known) {c : UInt8}
    (hc : c = byte '.' ∨ isDigitInBase c base.radix = true ∨ c = base.expCharLo ∨
      c = base.expCharHi ∨ isSign c = true ∨ isDigit c = true) : isSpace c = false ∧ c ≠ 0 := by
  rcases h with rfl | rfl | rfl | rfl
  all_goals
    revert c
    decide

/-! ## The grammar -/

/-- The prefixes of the bases, in either case. -/
inductive HasPrefix : List UInt8 → NumeralBase → Prop where
  | decimal : HasPrefix [] .decimal
  | hexadecimal {c : UInt8} (h : c = byte 'x' ∨ c = byte 'X') : HasPrefix [byte '0', c] .hexadecimal
  | octal {c : UInt8} (h : c = byte 'o' ∨ c = byte 'O') : HasPrefix [byte '0', c] .octal
  | binary {c : UInt8} (h : c = byte 'b' ∨ c = byte 'B') : HasPrefix [byte '0', c] .binary

/-- A numeral with its prefix and its sign, behind blanks. -/
structure Literal where
  blanks : List UInt8
  sign : Option Bool
  mark : List UInt8
  base : NumeralBase
  numeral : Numeral base
  blanks_spaces : ∀ c ∈ blanks, isSpace c = true
  hasPrefix : HasPrefix mark base

namespace Literal

/-- What is behind the sign. -/
def unsignedBytes (l : Literal) : List UInt8 := l.mark ++ l.numeral.bytes

/-- The literal as it is written. -/
def bytes (l : Literal) : List UInt8 := l.blanks ++ (signBytes l.sign ++ l.unsignedBytes)

def value (l : Literal) : ℚ := if l.sign = some true then -l.numeral.value else l.numeral.value

end Literal

/-- The grammar of the comment over `mpq_set_decimal_str_exp`, and the number that a string in it stands
for. -/
def Denotes (str : List UInt8) (q : ℚ) : Prop :=
  ∃ l : Literal, l.numeral.Readable ∧ l.numeral.Plain ∧ str = l.bytes ∧ q = l.value

/-- The string is a numeral but for blanks behind the mark of its exponent, or a null byte and anything
behind the numeral. -/
def Sloppy (str : List UInt8) : Prop :=
  ∃ (l : Literal) (tail : List UInt8), l.numeral.Readable ∧ (∀ c ∈ tail.head?, c = 0) ∧
    str = l.bytes ++ tail ∧ (¬l.numeral.Plain ∨ tail ≠ [])

/-- The string behind its blanks and its sign. -/
def unsignedPart (str : List UInt8) : List UInt8 := (takeSign (str.dropWhile isSpace)).2

/-- The letters of the prefixes. -/
def prefixLetters : List UInt8 := ['x', 'X', 'o', 'O', 'b', 'B'].map byte

/-- The reader looks beyond the string only where there is memory, and finds there nothing that makes a
difference. It looks beyond a string of blanks, a sign, and a zero. -/
def Terminated (str beyond : List UInt8) : Prop :=
  if str.dropWhile isSpace = [] then
    ∃ c rest, beyond.dropWhile isSpace = c :: rest ∧ isSign c = false ∧ (c = byte '0' → rest ≠ [])
  else if unsignedPart str = [] then ∃ c rest, beyond = c :: rest ∧ (c = byte '0' → rest ≠ [])
  else if unsignedPart str = [byte '0'] then ∃ c rest, beyond = c :: rest ∧ c ∉ prefixLetters
  else True

/-- The reader does with the string what the grammar says, whatever is beyond it. -/
def Meets (str beyond : List UInt8) : Prop :=
  (∀ q, Denotes str q → mpqSetDecimalStrExp str beyond = some (some (Mpq.ofRat q))) ∧
    ((¬∃ q, Denotes str q) → mpqSetDecimalStrExp str beyond = some none)

/-- A null byte terminates every string. -/
theorem terminated_of_null (str rest : List UInt8) : Terminated str (0 :: rest) := by
  unfold Terminated
  split_ifs
  · exact ⟨0, rest, rfl, rfl, nofun⟩
  · exact ⟨0, rest, rfl, nofun⟩
  · exact ⟨0, rest, rfl, by decide⟩

theorem HasPrefix.known {mark : List UInt8} {base : NumeralBase} (h : HasPrefix mark base) :
    base.Known := by
  cases h with
  | decimal => exact .inl rfl
  | hexadecimal => exact .inr (.inl rfl)
  | octal => exact .inr (.inr (.inl rfl))
  | binary => exact .inr (.inr (.inr rfl))

theorem HasPrefix.eq_nil_or {mark : List UInt8} {base : NumeralBase} (h : HasPrefix mark base) :
    mark = [] ∧ base = .decimal ∨ ∃ c, mark = [byte '0', c] ∧ c ∈ prefixLetters := by
  cases h with
  | decimal => exact .inl ⟨rfl, rfl⟩
  | hexadecimal h | octal h | binary h =>
    refine .inr ⟨_, rfl, ?_⟩
    rcases h with rfl | rfl <;> decide

theorem HasPrefix.drop_append {mark : List UInt8} {base : NumeralBase} (h : HasPrefix mark base)
    (str : List UInt8) : (mark ++ str).drop base.prefixLen = str := by
  cases h <;> rfl

/-- A prefix decides the base, whatever is behind it. -/
theorem HasPrefix.detectBase_append {mark : List UInt8} {base : NumeralBase} (h : HasPrefix mark base)
    (hmark : mark ≠ []) (str : List UInt8) : detectBase (mark ++ str) = some base := by
  cases h with
  | decimal => exact absurd rfl hmark
  | hexadecimal h | octal h | binary h => rcases h with rfl | rfl <;> rfl

/-- The base of a string, and its prefix. -/
theorem exists_hasPrefix {str beyond : List UInt8} (hne : str ≠ [])
    (hzero : str = [byte '0'] → ∃ c rest, beyond = c :: rest ∧ c ∉ prefixLetters) :
    ∃ mark base, HasPrefix mark base ∧ detectBase (str ++ beyond) = some base ∧
      str = mark ++ str.drop base.prefixLen := by
  obtain ⟨c, str, rfl⟩ := List.exists_cons_of_ne_nil hne
  by_cases hc : c = byte '0'
  · subst hc
    cases str with
    | nil =>
      obtain ⟨d, rest, rfl, hd⟩ := hzero rfl
      simp only [prefixLetters, List.map_cons, List.map_nil, List.mem_cons, List.not_mem_nil,
        or_false, not_or] at hd
      have hbase : detectBase ([byte '0'] ++ d :: rest) = some .decimal := by simp [detectBase, hd]
      exact ⟨[], .decimal, .decimal, hbase, rfl⟩
    | cons d str =>
      by_cases hx : d = byte 'x' ∨ d = byte 'X'
      · exact ⟨[byte '0', d], _, .hexadecimal hx, (HasPrefix.hexadecimal hx).detectBase_append nofun _, rfl⟩
      · by_cases ho : d = byte 'o' ∨ d = byte 'O'
        · exact ⟨[byte '0', d], _, .octal ho, (HasPrefix.octal ho).detectBase_append nofun _, rfl⟩
        · by_cases hb : d = byte 'b' ∨ d = byte 'B'
          · exact ⟨[byte '0', d], _, .binary hb, (HasPrefix.binary hb).detectBase_append nofun _, rfl⟩
          · have hbase : detectBase (byte '0' :: d :: str ++ beyond) = some .decimal := by
              simp [detectBase, hx, ho, hb]
            exact ⟨[], .decimal, .decimal, hbase, rfl⟩
  · have hbase : detectBase (c :: str ++ beyond) = some .decimal := by simp [detectBase, hc]
    exact ⟨[], .decimal, .decimal, hbase, rfl⟩

theorem exists_detectBase {c : UInt8} {rest : List UInt8} (h : c = byte '0' → rest ≠ []) :
    ∃ base, detectBase (c :: rest) = some base := by
  by_cases hc : c = byte '0'
  · obtain ⟨d, rest, rfl⟩ := List.exists_cons_of_ne_nil (h hc)
    exact ⟨_, if_pos hc⟩
  · exact ⟨_, if_neg hc⟩

theorem readBody_nil (base : NumeralBase) : readBody base [] = none := by
  simp [readBody, splitAtByte, expValue]

section Reading

variable {str beyond : List UInt8}

/-- A string of blanks is no number. -/
theorem mpqSetDecimalStrExp_blank (hblank : str.dropWhile isSpace = []) (h : Terminated str beyond) :
    mpqSetDecimalStrExp str beyond = some none := by
  unfold Terminated at h
  rw [if_pos hblank] at h
  obtain ⟨c, rest, hbeyond, hsign, hzero⟩ := h
  obtain ⟨base, hbase⟩ := exists_detectBase hzero
  have hskip : skipSpaces str beyond = some ([], c :: rest) := by
    unfold skipSpaces
    rw [hblank, hbeyond]
  unfold mpqSetDecimalStrExp
  simp [hskip, hsign, takeSign, hbase, readBody_nil]

/-- Where it is not safe to look beyond a string of blanks, the reader does. -/
theorem mpqSetDecimalStrExp_blank_eq_none (hblank : str.dropWhile isSpace = [])
    (h : ¬Terminated str beyond) : mpqSetDecimalStrExp str beyond = none := by
  unfold Terminated at h
  rw [if_pos hblank] at h
  unfold mpqSetDecimalStrExp skipSpaces
  rw [hblank]
  cases hbeyond : beyond.dropWhile isSpace with
  | nil => rfl
  | cons c rest =>
    by_cases hsign : isSign c = true
    · simp [hsign]
    · have hzero : c = byte '0' ∧ rest = [] := by
        by_contra hnot
        push Not at hnot
        exact h ⟨c, rest, hbeyond, by simpa using hsign, hnot⟩
      obtain ⟨rfl, rfl⟩ := hzero
      simp [hsign, takeSign, detectBase]

/-- Behind blanks, the sign, the base and the rest are read one after the other. -/
theorem mpqSetDecimalStrExp_eq (hblank : str.dropWhile isSpace ≠ []) :
    mpqSetDecimalStrExp str beyond = (detectBase (unsignedPart str ++ beyond)).map fun base =>
      (readBody base ((unsignedPart str).drop base.prefixLen)).map fun r =>
        Mpq.ofRat (if (takeSign (str.dropWhile isSpace)).1 then -r else r) := by
  obtain ⟨c, rest, hcons⟩ := List.exists_cons_of_ne_nil hblank
  have hskip : skipSpaces str beyond = some (c :: rest, beyond) := by
    unfold skipSpaces
    rw [hcons]
  unfold mpqSetDecimalStrExp unsignedPart
  rw [hskip, hcons]
  simp only [Option.bind_eq_bind, Option.bind_some, reduceCtorEq, false_and, if_false]
  cases detectBase ((takeSign (c :: rest)).2 ++ beyond) with
  | none => rfl
  | some base => rfl

end Reading

namespace Literal

variable {l : Literal}

theorem exists_cons_unsignedBytes (hread : l.numeral.Readable) :
    ∃ c rest, l.unsignedBytes = c :: rest ∧ isSpace c = false ∧ isSign c = false := by
  obtain ⟨c, rest, hbytes, hc⟩ := l.numeral.exists_cons_bytes hread
  have hdigit : isSpace c = false ∧ isSign c = false := by
    rcases hc with rfl | hdigit
    · exact ⟨rfl, rfl⟩
    · obtain ⟨_, _, _, _, hspace, hsign⟩ := l.hasPrefix.known.digit_plain hdigit
      exact ⟨hspace, hsign⟩
  unfold unsignedBytes
  rw [hbytes]
  rcases l.hasPrefix.eq_nil_or with ⟨hmark, _⟩ | ⟨letter, hmark, _⟩
  · rw [hmark]
    exact ⟨c, rest, rfl, hdigit⟩
  · rw [hmark]
    exact ⟨byte '0', _, rfl, rfl, rfl⟩

theorem dropWhile_bytes (hread : l.numeral.Readable) (tail : List UInt8) :
    (l.bytes ++ tail).dropWhile isSpace = signBytes l.sign ++ (l.unsignedBytes ++ tail) := by
  obtain ⟨c, rest, hcons, hspace, _⟩ := exists_cons_unsignedBytes hread
  unfold bytes
  rw [List.append_assoc, List.append_assoc]
  apply dropWhile_spaces l.blanks_spaces
  intro d hd
  cases hs : l.sign with
  | none =>
    rw [hs, hcons] at hd
    rwa [← Option.some.inj hd]
  | some negative =>
    rw [hs] at hd
    rw [← Option.some.inj hd]
    cases negative <;> rfl

theorem takeSign_bytes (hread : l.numeral.Readable) (tail : List UInt8) :
    takeSign ((l.bytes ++ tail).dropWhile isSpace) =
      (decide (l.sign = some true), l.unsignedBytes ++ tail) := by
  obtain ⟨c, rest, hcons, _, hsign⟩ := exists_cons_unsignedBytes hread
  rw [dropWhile_bytes hread]
  apply takeSign_signBytes
  intro d hd
  rw [hcons] at hd
  rwa [← Option.some.inj hd]

theorem unsignedPart_bytes (hread : l.numeral.Readable) (tail : List UInt8) :
    unsignedPart (l.bytes ++ tail) = l.unsignedBytes ++ tail := by
  unfold unsignedPart
  rw [takeSign_bytes hread]

theorem unsignedPart_ne_nil (hread : l.numeral.Readable) (tail : List UInt8) :
    unsignedPart (l.bytes ++ tail) ≠ [] := by
  obtain ⟨c, rest, hcons, _⟩ := exists_cons_unsignedBytes hread
  rw [unsignedPart_bytes hread, hcons]
  exact List.cons_ne_nil _ _

theorem dropWhile_ne_nil (hread : l.numeral.Readable) (tail : List UInt8) :
    (l.bytes ++ tail).dropWhile isSpace ≠ [] := by
  intro hnil
  apply unsignedPart_ne_nil hread tail
  unfold unsignedPart
  rw [hnil]
  rfl

set_option maxRecDepth 5000 in
/-- The letters of the prefixes stand in no decimal numeral. -/
theorem prefixLetter_not_mem (t : Numeral .decimal) {c : UInt8} (hc : c ∈ prefixLetters) :
    c ∉ t.bytes := by
  have hplain : c ≠ byte '.' ∧ isDigitInBase c 10 = false ∧ c ≠ byte 'e' ∧ c ≠ byte 'E' ∧
      isSign c = false ∧ isDigit c = false ∧ isSpace c = false := by
    revert c
    decide
  obtain ⟨hpoint, hbase, hlo, hhi, hsign, hdigit, hspace⟩ := hplain
  intro hmem
  rcases t.mem_bytes hmem with h | h | h | h | h | h | ⟨e, _, h⟩
  · exact hpoint h
  · exact Bool.false_ne_true (hbase.symm.trans h)
  · exact hlo h
  · exact hhi h
  · exact Bool.false_ne_true (hsign.symm.trans h)
  · exact Bool.false_ne_true (hdigit.symm.trans h)
  · exact Bool.false_ne_true (hspace.symm.trans (e.blanks_spaces c h))

theorem detectBase_bytes (hread : l.numeral.Readable) {tail beyond : List UInt8}
    (htail : ∀ c ∈ tail.head?, c = 0) (h : Terminated (l.bytes ++ tail) beyond) :
    detectBase (l.unsignedBytes ++ tail ++ beyond) = some l.base := by
  by_cases hmark : l.mark = []
  case neg =>
    unfold unsignedBytes
    rw [List.append_assoc, List.append_assoc]
    exact l.hasPrefix.detectBase_append hmark _
  case pos =>
    -- No letter of a prefix can be behind a zero: not in the numeral, in the tail, or beyond.
    obtain ⟨blanks, sign, mark, base, t, hblanks, hinitial⟩ := l
    obtain rfl : mark = [] := hmark
    obtain ⟨_, rfl⟩ : [] = [] ∧ base = .decimal := by
      rcases hinitial.eq_nil_or with h | ⟨_, hcons, _⟩
      · exact h
      · cases hcons
    have hzero : t.bytes ++ tail = [byte '0'] → ∃ c rest, beyond = c :: rest ∧ c ∉ prefixLetters := by
      intro heq
      have hpart := unsignedPart_bytes hread tail
      unfold Terminated at h
      rwa [if_neg (dropWhile_ne_nil hread tail), if_neg (unsignedPart_ne_nil hread tail),
        if_pos (hpart.trans heq)] at h
    have hne : t.bytes ++ tail ≠ [] := by
      have hne := unsignedPart_ne_nil hread tail
      rwa [unsignedPart_bytes hread] at hne
    obtain ⟨mark', base', hinitial', hbase, hsplit⟩ := exists_hasPrefix hne hzero
    rcases hinitial'.eq_nil_or with ⟨_, rfl⟩ | ⟨letter, rfl, hletter⟩
    · exact hbase
    · obtain ⟨c, rest, hcons, _⟩ := t.exists_cons_bytes hread
      rw [hcons] at hsplit
      obtain ⟨_, hrest⟩ := List.cons.inj hsplit
      cases rest with
      | nil =>
        have hhead := htail letter (congrArg List.head? hrest)
        rw [hhead] at hletter
        exact absurd hletter (by decide)
      | cons d rest =>
        obtain ⟨rfl, _⟩ := List.cons.inj hrest
        have hmem : d ∈ t.bytes := hcons ▸ List.mem_cons_of_mem _ (List.mem_cons_self ..)
        exact absurd hmem (prefixLetter_not_mem t hletter)

/-- No null byte is in a numeral. -/
theorem takeWhile_bytes (l : Literal) {tail : List UInt8} (htail : ∀ c ∈ tail.head?, c = 0) :
    (l.numeral.bytes ++ tail).takeWhile (· ≠ 0) = l.numeral.bytes := by
  have hbytes : ∀ c ∈ l.numeral.bytes, decide (c ≠ 0) = true := by
    intro c hc
    apply decide_eq_true
    rcases l.numeral.mem_bytes hc with h | h | h | h | h | h | ⟨e, _, h⟩
    · exact (l.hasPrefix.known.visible (.inl h)).2
    · exact (l.hasPrefix.known.visible (.inr (.inl h))).2
    · exact (l.hasPrefix.known.visible (.inr (.inr (.inl h)))).2
    · exact (l.hasPrefix.known.visible (.inr (.inr (.inr (.inl h))))).2
    · exact (l.hasPrefix.known.visible (.inr (.inr (.inr (.inr (.inl h)))))).2
    · exact (l.hasPrefix.known.visible (.inr (.inr (.inr (.inr (.inr h)))))).2
    · rintro rfl
      exact absurd (e.blanks_spaces 0 h) (by decide)
  rw [List.takeWhile_append_of_pos hbytes]
  cases tail with
  | nil => exact List.append_nil _
  | cons c tail =>
    rw [htail c rfl, List.takeWhile_cons_of_neg (by decide), List.append_nil]

end Literal

/-- Where it is safe to look beyond the string, the reader has an answer, and accepts what is a numeral
up to the first null byte, with or without blanks behind the mark of its exponent. -/
theorem mpqSetDecimalStrExp_terminated {str beyond : List UInt8} (h : Terminated str beyond) :
    ∃ result, mpqSetDecimalStrExp str beyond = some result ∧ ∀ r, result = some r ↔
      ∃ (l : Literal) (tail : List UInt8), l.numeral.Readable ∧ (∀ c ∈ tail.head?, c = 0) ∧
        str = l.bytes ++ tail ∧ r = Mpq.ofRat l.value := by
  by_cases hblank : str.dropWhile isSpace = []
  · refine ⟨none, mpqSetDecimalStrExp_blank hblank h, fun r => ⟨nofun, ?_⟩⟩
    rintro ⟨l, tail, hread, _, rfl, _⟩
    exact absurd hblank (Literal.dropWhile_ne_nil hread tail)
  · have hbase : ∃ base, detectBase (unsignedPart str ++ beyond) = some base ∧
        (unsignedPart str ≠ [] → ∃ mark, HasPrefix mark base ∧
          unsignedPart str = mark ++ (unsignedPart str).drop base.prefixLen) := by
      unfold Terminated at h
      rw [if_neg hblank] at h
      by_cases hpart : unsignedPart str = []
      · rw [if_pos hpart] at h
        obtain ⟨c, rest, rfl, hzero⟩ := h
        obtain ⟨base, hbase⟩ := exists_detectBase hzero
        exact ⟨base, by rwa [hpart], fun hne => absurd hpart hne⟩
      · rw [if_neg hpart] at h
        obtain ⟨mark, base, hinitial, hbase, hsplit⟩ := exists_hasPrefix hpart fun hzero => by
          rwa [if_pos hzero] at h
        exact ⟨base, hbase, fun _ => ⟨mark, hinitial, hsplit⟩⟩
    obtain ⟨base, hbase, hinitial⟩ := hbase
    refine ⟨_, by rw [mpqSetDecimalStrExp_eq hblank, hbase]; rfl, fun r => ?_⟩
    rw [Option.map_eq_some_iff]
    constructor
    · rintro ⟨q, hbody, rfl⟩
      have hpart : unsignedPart str ≠ [] := by
        intro hnil
        rw [hnil, List.drop_nil, readBody_nil] at hbody
        cases hbody
      obtain ⟨mark, hinitial, hsplit⟩ := hinitial hpart
      obtain ⟨t, hread, htake, rfl⟩ := (Numeral.readBody_eq_some hinitial.known).mp hbody
      obtain ⟨sign, hsign, hneg⟩ := exists_takeSign (str.dropWhile isSpace)
      generalize (unsignedPart str).drop base.prefixLen = body at hsplit htake
      let l : Literal := ⟨str.takeWhile isSpace, sign, mark, base, t,
        fun c hc => List.mem_takeWhile_imp hc, hinitial⟩
      refine ⟨l, body.dropWhile (· ≠ 0), hread, ?_, ?_, ?_⟩
      · intro c hc
        have hhead := List.head?_dropWhile_not (fun c : UInt8 => decide (c ≠ 0)) body
        rw [hc] at hhead
        simpa using hhead
      · calc str = str.takeWhile isSpace ++ str.dropWhile isSpace :=
              (List.takeWhile_append_dropWhile).symm
          _ = str.takeWhile isSpace ++ (signBytes sign ++ unsignedPart str) := by rw [hsign]; rfl
          _ = str.takeWhile isSpace ++ (signBytes sign ++ (mark ++ (t.bytes ++
                body.dropWhile (· ≠ 0)))) := by
              rw [hsplit, ← htake, List.takeWhile_append_dropWhile]
          _ = l.bytes ++ body.dropWhile (· ≠ 0) := by
              unfold Literal.bytes Literal.unsignedBytes
              simp only [List.append_assoc]
              rfl
      · rw [hneg]
        unfold Literal.value
        simp only [decide_eq_true_eq]
        rfl
    · rintro ⟨l, tail, hread, htail, rfl, rfl⟩
      have hdetect := Literal.detectBase_bytes hread htail h
      rw [Literal.unsignedPart_bytes hread, hdetect] at hbase
      obtain rfl := Option.some.inj hbase
      have hbody : readBody l.base (l.numeral.bytes ++ tail) = some l.numeral.value :=
        l.numeral.readBody_bytes l.hasPrefix.known hread (l.takeWhile_bytes htail)
      refine ⟨l.numeral.value, ?_, ?_⟩
      · rw [Literal.unsignedPart_bytes hread]
        unfold Literal.unsignedBytes
        rw [List.append_assoc, l.hasPrefix.drop_append, hbody]
      · rw [Literal.takeSign_bytes hread]
        simp only [decide_eq_true_eq]
        rfl

/-- What is in the grammar is read. -/
theorem Denotes.read {str beyond : List UInt8} {q : ℚ} (h : Denotes str q)
    (hterminated : Terminated str beyond) :
    mpqSetDecimalStrExp str beyond = some (some (Mpq.ofRat q)) := by
  obtain ⟨result, hread, hresult⟩ := mpqSetDecimalStrExp_terminated hterminated
  obtain ⟨l, hreadable, _, hstr, rfl⟩ := h
  have hsome := (hresult (Mpq.ofRat l.value)).mpr
    ⟨l, [], hreadable, nofun, hstr.trans (List.append_nil _).symm, rfl⟩
  rw [hread, hsome]

set_option maxRecDepth 5000 in
/-- Nothing in the grammar has a blank or a null byte behind its leading blanks. -/
theorem Denotes.visible {str : List UInt8} {q : ℚ} (h : Denotes str q) :
    ∀ c ∈ unsignedPart str, isSpace c = false ∧ c ≠ 0 := by
  obtain ⟨l, hread, hplain, rfl, _⟩ := h
  have hpart := Literal.unsignedPart_bytes hread []
  rw [List.append_nil, List.append_nil] at hpart
  rw [hpart]
  intro c hc
  rcases List.mem_append.mp hc with hmark | hbytes
  · rcases l.hasPrefix.eq_nil_or with ⟨hnil, _⟩ | ⟨letter, hcons, hletter⟩
    · rw [hnil] at hmark
      cases hmark
    · have hmem : c ∈ byte '0' :: prefixLetters := by
        rw [hcons] at hmark
        rcases List.mem_cons.mp hmark with rfl | hmark
        · exact List.mem_cons_self ..
        · rw [List.mem_singleton.mp hmark]
          exact List.mem_cons_of_mem _ hletter
      have hletters : ∀ c ∈ byte '0' :: prefixLetters, isSpace c = false ∧ c ≠ 0 := by
        decide
      exact hletters c hmem
  · rcases l.numeral.mem_bytes hbytes with h | h | h | h | h | h | ⟨e, he, h⟩
    · exact l.hasPrefix.known.visible (.inl h)
    · exact l.hasPrefix.known.visible (.inr (.inl h))
    · exact l.hasPrefix.known.visible (.inr (.inr (.inl h)))
    · exact l.hasPrefix.known.visible (.inr (.inr (.inr (.inl h))))
    · exact l.hasPrefix.known.visible (.inr (.inr (.inr (.inr (.inl h)))))
    · exact l.hasPrefix.known.visible (.inr (.inr (.inr (.inr (.inr h)))))
    · rw [hplain e he] at h
      cases h

/-- What is sloppy is not in the grammar. -/
theorem Sloppy.not_denotes {str : List UInt8} (h : Sloppy str) (q : ℚ) : ¬Denotes str q := by
  obtain ⟨l, tail, hread, htail, rfl, hsloppy⟩ := h
  intro hdenotes
  have hvisible := hdenotes.visible
  rw [Literal.unsignedPart_bytes hread] at hvisible
  rcases hsloppy with hblanks | hne
  · unfold Numeral.Plain at hblanks
    push Not at hblanks
    obtain ⟨e, he, hblanks⟩ := hblanks
    obtain ⟨c, rest, hcons⟩ := List.exists_cons_of_ne_nil hblanks
    have hmem : c ∈ l.numeral.bytes := by
      unfold Numeral.bytes
      rw [he]
      apply List.mem_append_right
      apply List.mem_cons_of_mem
      unfold Exponent.bytes
      rw [hcons]
      exact List.mem_cons_self ..
    have hspace := e.blanks_spaces c (hcons ▸ List.mem_cons_self ..)
    have hmem' : c ∈ l.unsignedBytes ++ tail :=
      List.mem_append_left _ (List.mem_append_right _ hmem)
    exact Bool.false_ne_true ((hvisible c hmem').1.symm.trans hspace)
  · obtain ⟨c, rest, rfl⟩ := List.exists_cons_of_ne_nil hne
    have hmem : c ∈ l.unsignedBytes ++ c :: rest :=
      List.mem_append_right _ (List.mem_cons_self ..)
    exact (hvisible c hmem).2 (htail c rfl)

set_option maxRecDepth 5000 in
/-- A zero, with a sign or without, is in the grammar. -/
theorem denotes_zero {str : List UInt8} (h : unsignedPart str = [byte '0']) : ∃ q, Denotes str q := by
  obtain ⟨sign, hsign, _⟩ := exists_takeSign (str.dropWhile isSpace)
  let t : Numeral .decimal := ⟨[byte '0'], none, none, by decide, nofun⟩
  let l : Literal := ⟨str.takeWhile isSpace, sign, [], _, t,
    fun c hc => List.mem_takeWhile_imp hc, .decimal⟩
  have hbytes : str = l.bytes := by
    calc str = str.takeWhile isSpace ++ str.dropWhile isSpace :=
          (List.takeWhile_append_dropWhile).symm
      _ = str.takeWhile isSpace ++ (signBytes sign ++ unsignedPart str) := by rw [hsign]; rfl
      _ = l.bytes := by rw [h]; rfl
  exact ⟨l.value, l, ⟨List.cons_ne_nil _ _, nofun⟩, nofun, hbytes, rfl⟩

/-- Where it is not safe to look beyond the string, the reader does: it reads what is no memory, or
takes a zero for a prefix. -/
theorem not_meets_of_not_terminated {str beyond : List UInt8} (h : ¬Terminated str beyond) :
    ¬Meets str beyond := by
  rintro ⟨hdenotes, hnot⟩
  by_cases hblank : str.dropWhile isSpace = []
  · have hnone := mpqSetDecimalStrExp_blank_eq_none hblank h
    by_cases hq : ∃ q, Denotes str q
    · obtain ⟨q, hq⟩ := hq
      cases hnone.symm.trans (hdenotes q hq)
    · cases hnone.symm.trans (hnot hq)
  · have heq := @mpqSetDecimalStrExp_eq _ beyond hblank
    unfold Terminated at h
    rw [if_neg hblank] at h
    by_cases hpart : unsignedPart str = []
    · rw [if_pos hpart] at h
      have hbase : detectBase beyond = none := by
        cases beyond with
        | nil => rfl
        | cons c rest =>
          by_cases hc : c = byte '0' ∧ rest = []
          · obtain ⟨rfl, rfl⟩ := hc
            rfl
          · exact absurd ⟨c, rest, rfl, fun hzero hrest => hc ⟨hzero, hrest⟩⟩ h
      rw [hpart, List.nil_append, hbase] at heq
      by_cases hq : ∃ q, Denotes str q
      · obtain ⟨q, hq⟩ := hq
        cases heq.symm.trans (hdenotes q hq)
      · cases heq.symm.trans (hnot hq)
    · rw [if_neg hpart] at h
      by_cases hzero : unsignedPart str = [byte '0']
      · rw [if_pos hzero] at h
        obtain ⟨q, hq⟩ := denotes_zero hzero
        have hread := heq.symm.trans (hdenotes q hq)
        rw [hzero] at hread
        cases beyond with
        | nil => cases hread
        | cons c rest =>
          have hletter : c ∈ prefixLetters := by
            by_contra hc
            exact h ⟨c, rest, rfl, hc⟩
          have hbase : ∃ base, detectBase ([byte '0'] ++ c :: rest) = some base ∧
              base.prefixLen = 2 := by
            clear heq hread h
            simp only [prefixLetters, List.map_cons, List.map_nil, List.mem_cons, List.not_mem_nil,
              or_false] at hletter
            rcases hletter with rfl | rfl | rfl | rfl | rfl | rfl
            all_goals exact ⟨_, rfl, rfl⟩
          obtain ⟨base, hbase, hlen⟩ := hbase
          have hdrop : List.drop base.prefixLen [byte '0'] = [] := by rw [hlen]; rfl
          rw [hbase, Option.map_some, hdrop, readBody_nil] at hread
          cases hread
      · rw [if_neg hzero] at h
        exact h trivial

/-- The reader does with a string what the grammar says if and only if the byte beyond a blank string, a
sign or a zero is no trouble, and the string is not a numeral with blanks behind the mark of its exponent
or with a null byte behind it. -/
theorem mpqSetDecimalStrExp_iff (str beyond : List UInt8) :
    Meets str beyond ↔ Terminated str beyond ∧ ¬Sloppy str := by
  constructor
  · intro hmeets
    have hterminated : Terminated str beyond := by
      by_contra h
      exact not_meets_of_not_terminated h hmeets
    refine ⟨hterminated, fun hsloppy => ?_⟩
    -- A sloppy string is accepted, though it is not in the grammar.
    obtain ⟨result, hread, hresult⟩ := mpqSetDecimalStrExp_terminated hterminated
    have hnone := hmeets.2 fun ⟨q, hq⟩ => hsloppy.not_denotes q hq
    obtain ⟨l, tail, hreadable, htail, hstr, _⟩ := hsloppy
    have hsome := (hresult (Mpq.ofRat l.value)).mpr ⟨l, tail, hreadable, htail, hstr, rfl⟩
    rw [hsome] at hread
    cases hread.symm.trans hnone
  · rintro ⟨hterminated, hsloppy⟩
    obtain ⟨result, hread, hresult⟩ := mpqSetDecimalStrExp_terminated hterminated
    constructor
    · intro q hq
      exact hq.read hterminated
    · intro hnot
      cases result with
      | none => exact hread
      | some r =>
        obtain ⟨l, tail, hreadable, htail, hstr, _⟩ := (hresult r).mp rfl
        have hplain : l.numeral.Plain ∧ tail = [] := by
          by_contra h
          rw [not_and_or] at h
          exact hsloppy ⟨l, tail, hreadable, htail, hstr, h⟩
        obtain ⟨hplain, rfl⟩ := hplain
        rw [List.append_nil] at hstr
        exact absurd ⟨_, l, hreadable, hplain, hstr, rfl⟩ hnot

set_option maxRecDepth 5000 in
/-- `number("1e 5")` is 100000. -/
theorem not_forall_meets : ¬∀ str beyond, Meets str beyond := by
  intro h
  let e : Exponent := ⟨false, [32], none, [byte '5'], by decide, by decide⟩
  let t : Numeral .decimal := ⟨[byte '1'], none, some e, by decide, nofun⟩
  let l : Literal := ⟨[], none, [], _, t, nofun, .decimal⟩
  have hreadable : t.Readable := by
    refine ⟨List.cons_ne_nil _ _, ?_⟩
    rintro _ ⟨⟩
    exact ⟨List.cons_ne_nil _ _, by decide⟩
  have hsloppy : Sloppy (l.bytes ++ []) :=
    ⟨l, [], hreadable, nofun, rfl, .inl fun hplain => List.cons_ne_nil _ _ (hplain e rfl)⟩
  -- with the null byte that a string object has behind its bytes
  have hterminated := terminated_of_null (l.bytes ++ []) []
  obtain ⟨result, hread, hresult⟩ := mpqSetDecimalStrExp_terminated hterminated
  have hsome := (hresult (Mpq.ofRat l.value)).mpr ⟨l, [], hreadable, nofun, rfl, rfl⟩
  have hnone := (h (l.bytes ++ []) [0]).2 fun ⟨q, hq⟩ => hsloppy.not_denotes q hq
  rw [hsome] at hread
  cases hread.symm.trans hnone

end Chloride
