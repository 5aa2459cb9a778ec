import Chloride.Objects.Quoting

/-!
# Code points of strings

`ord` and `chr` of `src/runtime/objects/string/string.c`. `char_ord` looks at the first byte and at the length, and at
nothing else: it takes bytes that continue no sequence, longer forms than the shortest and surrogates. `char_chr`
checks the upper bound only. `code_points_iff` says that they are right exactly on the other strings and numbers.
-/

namespace Chloride

namespace CodePoints

/-- `char_ord` -/
def charOrd (s : List UInt8) : Option ℕ :=
  let len := s.length
  let u (i : ℕ) : ℕ := (s.getD i 0).toNat
  if len = 0 ∨ len > 4 then none
  else if u 0 < 0x80 ∧ len = 1 then some (u 0)
  else if u 0 >>> 5 = 0x6 ∧ len = 2 then some ((u 0 &&& 0x1F) <<< 6 ||| (u 1 &&& 0x3F))
  else if u 0 >>> 4 = 0xE ∧ len = 3 then
    some ((u 0 &&& 0x0F) <<< 12 ||| (u 1 &&& 0x3F) <<< 6 ||| (u 2 &&& 0x3F))
  else if u 0 >>> 3 = 0x1E ∧ len = 4 then
    some ((u 0 &&& 0x07) <<< 18 ||| (u 1 &&& 0x3F) <<< 12 ||| (u 2 &&& 0x3F) <<< 6 ||| (u 3 &&& 0x3F))
  else none

/-- `ord` -/
def ord (s : List UInt8) : Except ArErr Int64 :=
  match charOrd s with
  | none => .error ⟨"ValueError", "invalid unicode character"⟩
  | some codepoint => .ok (Int64.ofNat codepoint)

/-! ## What they should do -/

/-- The number of a Unicode scalar value. -/
def IsScalar (n : Int64) : Prop := ∃ c : Char, n = Int64.ofNat c.toNat

/-- `ord` should take the encoding of one character, give its code point, and be undone by `chr`. -/
structure OrdRight (s : List UInt8) : Prop where
  accepts : ∀ n, ord s = .ok n ↔ ∃ c : Char, s = String.utf8EncodeChar c ∧ n = Int64.ofNat c.toNat
  chr_ord : ∀ n, ord s = .ok n → chr n = .ok s

/-- `chr` should take the scalar values, and be undone by `ord`. -/
structure ChrRight (n : Int64) : Prop where
  accepts : (∃ s, chr n = .ok s) ↔ IsScalar n
  ord_chr : ∀ s, chr n = .ok s → ord s = .ok n

/-- No byte that continues a sequence. -/
def NotContinuation (b : UInt8) : Prop := b.toNat / 64 ≠ 2

/-- The ill-formed strings that have a first byte of a sequence of their length. -/
def Unchecked : List UInt8 → Prop
  | [a, b] => a.toNat / 32 = 6 ∧ (NotContinuation b ∨ a.toNat < 0xC2)
  | [a, b, c] => a.toNat / 16 = 14 ∧ (NotContinuation b ∨ NotContinuation c ∨ (a.toNat = 0xE0 ∧ b.toNat < 0xA0) ∨
      (a.toNat = 0xED ∧ 0xA0 ≤ b.toNat))
  | [a, b, c, d] => a.toNat / 8 = 30 ∧ (NotContinuation b ∨ NotContinuation c ∨ NotContinuation d ∨
      (a.toNat = 0xF0 ∧ b.toNat < 0x90) ∨ (a.toNat = 0xF4 ∧ 0x90 ≤ b.toNat) ∨ 0xF5 ≤ a.toNat)
  | _ => False

/-- The numbers of the surrogates. -/
def IsSurrogate (n : Int64) : Prop := 0xD800 ≤ n.toInt ∧ n.toInt ≤ 0xDFFF

/-! ## `char_ord` by length -/

theorem charOrd_one (a : UInt8) : charOrd [a] = if a.toNat < 0x80 then some a.toNat else none := by
  simp [charOrd]

theorem charOrd_two (a b : UInt8) :
    charOrd [a, b] = if a.toNat / 32 = 6 then some (a.toNat % 32 * 64 + b.toNat % 64) else none := by
  have hvalue : (a.toNat &&& 0x1F) <<< 6 ||| (b.toNat &&& 0x3F) = a.toNat % 32 * 64 + b.toNat % 64 := by
    have hlead : a.toNat &&& 0x1F = a.toNat % 32 := Nat.and_two_pow_sub_one_eq_mod _ 5
    rw [hlead, and_63, shiftLeft_or _ (show b.toNat % 64 < 2 ^ 6 by omega)]
    norm_num
  simp [charOrd, Nat.shiftRight_eq_div_pow, hvalue]

theorem charOrd_three (a b c : UInt8) :
    charOrd [a, b, c] = if a.toNat / 16 = 14 then
      some ((a.toNat % 16 * 64 + b.toNat % 64) * 64 + c.toNat % 64) else none := by
  have hvalue : (a.toNat &&& 0x0F) <<< 12 ||| (b.toNat &&& 0x3F) <<< 6 ||| (c.toNat &&& 0x3F) =
      (a.toNat % 16 * 64 + b.toNat % 64) * 64 + c.toNat % 64 := by
    have hlead : a.toNat &&& 0x0F = a.toNat % 16 := Nat.and_two_pow_sub_one_eq_mod _ 4
    rw [hlead, and_63, and_63,
      shiftLeft_or_shiftLeft _ (Nat.mod_lt _ (by omega)) (Nat.mod_lt _ (by omega))]
  simp [charOrd, Nat.shiftRight_eq_div_pow, hvalue]

theorem charOrd_four (a b c d : UInt8) :
    charOrd [a, b, c, d] = if a.toNat / 8 = 30 then
      some (((a.toNat % 8 * 64 + b.toNat % 64) * 64 + c.toNat % 64) * 64 + d.toNat % 64) else none := by
  have hvalue : (a.toNat &&& 0x07) <<< 18 ||| (b.toNat &&& 0x3F) <<< 12 ||| (c.toNat &&& 0x3F) <<< 6 |||
      (d.toNat &&& 0x3F) =
        ((a.toNat % 8 * 64 + b.toNat % 64) * 64 + c.toNat % 64) * 64 + d.toNat % 64 := by
    have hlead : a.toNat &&& 0x07 = a.toNat % 8 := Nat.and_two_pow_sub_one_eq_mod _ 3
    rw [hlead, and_63, and_63, and_63, shiftLeft_or_shiftLeft_or_shiftLeft _
      (Nat.mod_lt _ (by omega)) (Nat.mod_lt _ (by omega)) (Nat.mod_lt _ (by omega))]
  simp [charOrd, Nat.shiftRight_eq_div_pow, hvalue]

/-- A string that `char_ord` takes has one to four bytes. -/
theorem charOrd_length {s : List UInt8} {n : ℕ} (h : charOrd s = some n) : 0 < s.length ∧ s.length ≤ 4 := by
  by_contra hlength
  have hout : s.length = 0 ∨ s.length > 4 := by omega
  unfold charOrd at h
  dsimp only at h
  rw [if_pos hout] at h
  cases h

/-! ## The encoding of a number -/

/-- `char_chr` encodes as `utf8_encode` does. -/
theorem charChr_eq {n : ℕ} (h : n ≤ 0x10FFFF) : charChr n = some (utf8Encode n) := by
  unfold charChr utf8Encode
  split_ifs <;> first | rfl | omega

/-- The four lengths of the encoding of a number, a surrogate or not. -/
theorem charChr_cases {n : ℕ} (h : n ≤ 0x10FFFF) :
    (n ≤ 0x7F ∧ charChr n = some [UInt8.ofNat n]) ∨
    (0x7F < n ∧ n ≤ 0x7FF ∧ charChr n = some [UInt8.ofNat (n / 64 % 32 + 0xC0), UInt8.ofNat (n % 64 + 0x80)]) ∨
    (0x7FF < n ∧ n ≤ 0xFFFF ∧ charChr n = some [UInt8.ofNat (n / 4096 % 16 + 0xE0),
      UInt8.ofNat (n / 64 % 64 + 0x80), UInt8.ofNat (n % 64 + 0x80)]) ∨
    (0xFFFF < n ∧ charChr n = some [UInt8.ofNat (n / 262144 % 8 + 0xF0), UInt8.ofNat (n / 4096 % 64 + 0x80),
      UInt8.ofNat (n / 64 % 64 + 0x80), UInt8.ofNat (n % 64 + 0x80)]) := by
  rw [charChr_eq h, utf8Encode_eq h]
  by_cases h₁ : n ≤ 0x7F
  · exact Or.inl ⟨h₁, by rw [if_pos h₁]⟩
  by_cases h₂ : n ≤ 0x7FF
  · exact Or.inr (Or.inl ⟨by omega, h₂, by rw [if_neg h₁, if_pos h₂]⟩)
  by_cases h₃ : n ≤ 0xFFFF
  · exact Or.inr (Or.inr (Or.inl ⟨by omega, h₃, by rw [if_neg h₁, if_neg h₂, if_pos h₃]⟩))
  · exact Or.inr (Or.inr (Or.inr ⟨by omega, by rw [if_neg h₁, if_neg h₂, if_neg h₃]⟩))

/-- What `char_chr` makes for a character is its encoding. -/
theorem charChr_toNat (c : Char) : charChr c.toNat = some (String.utf8EncodeChar c) := by
  have hvalid := toNat_valid c
  rw [charChr_eq (by omega), utf8Encode_toNat]

theorem toNat_ofNat_byte {n : ℕ} (h : n < 256) : (UInt8.ofNat n).toNat = n :=
  UInt8.toNat_ofNat_of_lt h

/-- `char_ord` gives back what `char_chr` was called with. -/
theorem charOrd_charChr {n : ℕ} {s : List UInt8} (h : charChr n = some s) : charOrd s = some n := by
  have hle : n ≤ 0x10FFFF := by
    by_contra hgt
    rw [charChr, if_pos (not_le.mp hgt)] at h
    cases h
  rcases charChr_cases hle with ⟨hn, heq⟩ | ⟨hlt, hn, heq⟩ | ⟨hlt, hn, heq⟩ | ⟨hlt, heq⟩ <;>
    rw [heq] at h <;> obtain rfl := Option.some.inj h
  · rw [charOrd_one, toNat_ofNat_byte (by omega), if_pos (by omega)]
  · rw [charOrd_two, toNat_ofNat_byte (by omega), toNat_ofNat_byte (by omega), if_pos (by omega)]
    congr 1
    omega
  · rw [charOrd_three, toNat_ofNat_byte (by omega), toNat_ofNat_byte (by omega), toNat_ofNat_byte (by omega),
      if_pos (by omega)]
    congr 1
    omega
  · rw [charOrd_four, toNat_ofNat_byte (by omega), toNat_ofNat_byte (by omega), toNat_ofNat_byte (by omega),
      toNat_ofNat_byte (by omega), if_pos (by omega)]
    congr 1
    omega

theorem unchecked_two (a b : UInt8) :
    Unchecked [a, b] ↔ a.toNat / 32 = 6 ∧ (NotContinuation b ∨ a.toNat < 0xC2) := Iff.rfl

theorem unchecked_three (a b c : UInt8) : Unchecked [a, b, c] ↔ a.toNat / 16 = 14 ∧ (NotContinuation b ∨
    NotContinuation c ∨ (a.toNat = 0xE0 ∧ b.toNat < 0xA0) ∨ (a.toNat = 0xED ∧ 0xA0 ≤ b.toNat)) := Iff.rfl

theorem unchecked_four (a b c d : UInt8) : Unchecked [a, b, c, d] ↔ a.toNat / 8 = 30 ∧ (NotContinuation b ∨
    NotContinuation c ∨ NotContinuation d ∨ (a.toNat = 0xF0 ∧ b.toNat < 0x90) ∨
      (a.toNat = 0xF4 ∧ 0x90 ≤ b.toNat) ∨ 0xF5 ≤ a.toNat) := Iff.rfl

/-- The encoding of a character is checked. -/
theorem not_unchecked (c : Char) : ¬Unchecked (String.utf8EncodeChar c) := by
  have hvalid := toNat_valid c
  rcases utf8EncodeChar_cases c with ⟨_, heq⟩ | ⟨hlt, hle, heq⟩ | ⟨hlt, hle, heq⟩ | ⟨hlt, heq⟩ <;> rw [heq]
  · exact not_false
  · rw [unchecked_two, NotContinuation, toNat_ofNat_byte (by omega), toNat_ofNat_byte (by omega)]
    omega
  · rw [unchecked_three, NotContinuation, NotContinuation, toNat_ofNat_byte (by omega),
      toNat_ofNat_byte (by omega), toNat_ofNat_byte (by omega)]
    omega
  · rw [unchecked_four, NotContinuation, NotContinuation, NotContinuation, toNat_ofNat_byte (by omega),
      toNat_ofNat_byte (by omega), toNat_ofNat_byte (by omega), toNat_ofNat_byte (by omega)]
    omega

theorem ofNat_eq_of_toNat {b : UInt8} {n : ℕ} (h : n = b.toNat) : UInt8.ofNat n = b := by
  rw [h, UInt8.ofNat_toNat]

/-- What `char_ord` takes and is checked is what `char_chr` makes of a number that is no surrogate. -/
theorem charChr_of_checked {s : List UInt8} {n : ℕ} (h : charOrd s = some n) (hchecked : ¬Unchecked s) :
    (n < 0xD800 ∨ 0xDFFF < n ∧ n < 0x110000) ∧ charChr n = some s := by
  have hlength := charOrd_length h
  rcases s with _ | ⟨a, _ | ⟨b, _ | ⟨c, _ | ⟨d, _ | ⟨e, s⟩⟩⟩⟩⟩
  · cases hlength.1
  · rw [charOrd_one] at h
    split at h
    case isTrue ha =>
      obtain rfl := Option.some.inj h
      refine ⟨by omega, ?_⟩
      rcases charChr_cases (show a.toNat ≤ 0x10FFFF by omega) with ⟨_, heq⟩ | _ | _ | _
      · rw [heq, UInt8.ofNat_toNat]
      all_goals omega
    case isFalse => cases h
  · have ha := a.toNat_lt
    rw [charOrd_two] at h
    rw [unchecked_two, NotContinuation] at hchecked
    split at h
    case isTrue hlead =>
      obtain rfl := Option.some.inj h
      refine ⟨by omega, ?_⟩
      rcases charChr_cases (show a.toNat % 32 * 64 + b.toNat % 64 ≤ 0x10FFFF by omega) with
        _ | ⟨_, _, heq⟩ | _ | _
      · omega
      · rw [heq, ofNat_eq_of_toNat (b := a) (by omega), ofNat_eq_of_toNat (b := b) (by omega)]
      all_goals omega
    case isFalse => cases h
  · have ha := a.toNat_lt
    rw [charOrd_three] at h
    rw [unchecked_three, NotContinuation, NotContinuation] at hchecked
    split at h
    case isTrue hlead =>
      obtain rfl := Option.some.inj h
      refine ⟨by omega, ?_⟩
      rcases charChr_cases (show (a.toNat % 16 * 64 + b.toNat % 64) * 64 + c.toNat % 64 ≤ 0x10FFFF by omega) with
        _ | _ | ⟨_, _, heq⟩ | _
      · omega
      · omega
      · rw [heq, ofNat_eq_of_toNat (b := a) (by omega), ofNat_eq_of_toNat (b := b) (by omega),
          ofNat_eq_of_toNat (b := c) (by omega)]
      · omega
    case isFalse => cases h
  · have ha := a.toNat_lt
    rw [charOrd_four] at h
    rw [unchecked_four, NotContinuation, NotContinuation, NotContinuation] at hchecked
    split at h
    case isTrue hlead =>
      obtain rfl := Option.some.inj h
      refine ⟨by omega, ?_⟩
      rcases charChr_cases (show ((a.toNat % 8 * 64 + b.toNat % 64) * 64 + c.toNat % 64) * 64 + d.toNat % 64 ≤
        0x10FFFF by omega) with _ | _ | _ | ⟨_, heq⟩
      · omega
      · omega
      · omega
      · rw [heq, ofNat_eq_of_toNat (b := a) (by omega), ofNat_eq_of_toNat (b := b) (by omega),
          ofNat_eq_of_toNat (b := c) (by omega), ofNat_eq_of_toNat (b := d) (by omega)]
    case isFalse => cases h
  · have hle := hlength.2
    simp only [List.length_cons] at hle
    omega

/-- What is not checked is taken all the same. -/
theorem charOrd_unchecked {s : List UInt8} (h : Unchecked s) : ∃ n, charOrd s = some n := by
  unfold Unchecked at h
  split at h
  · exact ⟨_, by rw [charOrd_two, if_pos h.1]⟩
  · exact ⟨_, by rw [charOrd_three, if_pos h.1]⟩
  · exact ⟨_, by rw [charOrd_four, if_pos h.1]⟩
  · exact h.elim

/-- A number that is no surrogate is that of a character. -/
theorem exists_char {n : ℕ} (h : n < 0xD800 ∨ 0xDFFF < n ∧ n < 0x110000) : ∃ c : Char, c.toNat = n :=
  ⟨Char.ofNatAux n h, rfl⟩

/-- Without an unchecked form, the strings that `char_ord` takes are the encodings of the characters. -/
theorem charOrd_eq_some_iff {s : List UInt8} (hchecked : ¬Unchecked s) {n : ℕ} :
    charOrd s = some n ↔ ∃ c : Char, s = String.utf8EncodeChar c ∧ n = c.toNat := by
  constructor
  · intro h
    obtain ⟨hvalid, hchr⟩ := charChr_of_checked h hchecked
    obtain ⟨c, rfl⟩ := exists_char hvalid
    exact ⟨c, Option.some.inj (hchr.symm.trans (charChr_toNat c)), rfl⟩
  · rintro ⟨c, rfl, rfl⟩
    exact charOrd_charChr (charChr_toNat c)

/-! ## The methods -/

theorem charChr_le {n : ℕ} {s : List UInt8} (h : charChr n = some s) : n ≤ 0x10FFFF := by
  by_contra hgt
  rw [charChr, if_pos (not_le.mp hgt)] at h
  cases h

/-- A code point as a number of 64 bits. -/
theorem toInt_ofNat {k : ℕ} (h : k ≤ 0x10FFFF) : (Int64.ofNat k).toInt = k := Int64.toInt_ofNat_of_lt (by omega)

theorem eq_ofNat {n : Int64} {k : ℕ} (h : n.toInt = k) (hk : k ≤ 0x10FFFF) : n = Int64.ofNat k := by
  rw [← Int64.toInt_inj, h, toInt_ofNat hk]

/-- What `chr` makes is what `char_chr` makes of the number, which is not negative then. -/
theorem chr_eq_ok_iff {n : Int64} {s : List UInt8} : chr n = .ok s ↔ ∃ k : ℕ, n.toInt = k ∧ charChr k = some s := by
  have hcast := Signed64.toNat_toUInt64 n
  have hbounds := Signed64.fits_toInt n
  unfold Signed64.Fits at hbounds
  simp only [Int64.lt_iff_toInt_lt, Int64.toInt_zero] at hcast
  constructor
  · intro h
    unfold chr at h
    split at h
    case h_1 => cases h
    case h_2 data hdata =>
      obtain rfl := Except.ok.inj h
      have hle := charChr_le hdata
      refine ⟨n.toUInt64.toNat, ?_, hdata⟩
      split at hcast <;> omega
  · rintro ⟨k, hk, hchr⟩
    have hle := charChr_le hchr
    have hnat : n.toUInt64.toNat = k := by
      rw [if_neg (by omega)] at hcast
      omega
    unfold chr
    rw [hnat, hchr]

theorem ord_eq_ok_iff {n : Int64} {s : List UInt8} :
    ord s = .ok n ↔ ∃ k, charOrd s = some k ∧ n = Int64.ofNat k := by
  unfold ord
  cases charOrd s with
  | none => simp
  | some k => simp [eq_comm]

theorem ordRight_iff (s : List UInt8) : OrdRight s ↔ ¬Unchecked s := by
  constructor
  · intro h hunchecked
    obtain ⟨n, hn⟩ := charOrd_unchecked hunchecked
    obtain ⟨c, rfl, -⟩ := (h.accepts _).mp (ord_eq_ok_iff.mpr ⟨n, hn, rfl⟩)
    exact not_unchecked c hunchecked
  · intro hchecked
    constructor
    · intro n
      simp only [ord_eq_ok_iff, charOrd_eq_some_iff hchecked]
      constructor
      · rintro ⟨k, ⟨c, hs, rfl⟩, hn⟩
        exact ⟨c, hs, hn⟩
      · rintro ⟨c, hs, hn⟩
        exact ⟨c.toNat, ⟨c, hs, rfl⟩, hn⟩
    · intro n h
      obtain ⟨k, hk, rfl⟩ := ord_eq_ok_iff.mp h
      have hchr := (charChr_of_checked hk hchecked).2
      exact chr_eq_ok_iff.mpr ⟨k, toInt_ofNat (charChr_le hchr), hchr⟩

theorem chrRight_iff (n : Int64) : ChrRight n ↔ ¬IsSurrogate n := by
  constructor
  · rintro h ⟨hlow, hhigh⟩
    -- a surrogate is taken, and it is the number of no character
    obtain ⟨k, hk⟩ : ∃ k : ℕ, n.toInt = k := ⟨n.toInt.toNat, by omega⟩
    obtain ⟨s, hs⟩ : ∃ s, charChr k = some s := by
      rcases charChr_cases (show k ≤ 0x10FFFF by omega) with ⟨_, heq⟩ | ⟨_, _, heq⟩ | ⟨_, _, heq⟩ | ⟨_, heq⟩ <;>
        exact ⟨_, heq⟩
    obtain ⟨c, rfl⟩ := h.accepts.mp ⟨s, chr_eq_ok_iff.mpr ⟨k, hk, hs⟩⟩
    have hvalid := toNat_valid c
    rw [toInt_ofNat (by omega)] at hlow hhigh
    omega
  · intro hsurrogate
    unfold IsSurrogate at hsurrogate
    refine ⟨⟨?_, ?_⟩, ?_⟩
    · rintro ⟨s, hs⟩
      obtain ⟨k, hk, hchr⟩ := chr_eq_ok_iff.mp hs
      have hle := charChr_le hchr
      obtain ⟨c, rfl⟩ := exists_char (show k < 0xD800 ∨ 0xDFFF < k ∧ k < 0x110000 by omega)
      exact ⟨c, eq_ofNat hk hle⟩
    · rintro ⟨c, rfl⟩
      have hvalid := toNat_valid c
      exact ⟨_, chr_eq_ok_iff.mpr ⟨c.toNat, toInt_ofNat (by omega), charChr_toNat c⟩⟩
    · intro s hs
      obtain ⟨k, hk, hchr⟩ := chr_eq_ok_iff.mp hs
      exact ord_eq_ok_iff.mpr ⟨k, charOrd_charChr hchr, eq_ofNat hk (charChr_le hchr)⟩

/-- `ord` and `chr` are right exactly for the strings that have no unchecked form and the numbers that are no
surrogates. -/
theorem code_points_iff (s : List UInt8) (n : Int64) :
    OrdRight s ∧ ChrRight n ↔ ¬Unchecked s ∧ ¬IsSurrogate n := by
  rw [ordRight_iff, chrRight_iff]

/-- The long form of the null character is taken for it, and `chr` makes another string. -/
theorem not_forall_code_points : ¬∀ (s : List UInt8) (n : Int64), OrdRight s ∧ ChrRight n := by
  intro hall
  have hchr := (hall [0xC0, 0x80] 0).1.chr_ord 0 (by decide)
  revert hchr
  decide

end CodePoints

end Chloride
