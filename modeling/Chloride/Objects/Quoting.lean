import Chloride.Objects.StringBytes
import Chloride.Parser.Unquote

/-!
# Quoted strings

`c_quote_string` and `unquote` as inverses. A quoted string is a literal of the lexer: each code point
becomes one or two items (`quoteBytes_char`), and each of them is decoded to the bytes of its code
point (`decodeItems_quoteItems`). What is well-formed UTF-8 is what the encoding of a list of
characters can be, a character being a Unicode scalar value.
-/

namespace Chloride

/-! ## Groups of bits -/

/-- Bits behind which there is room for others. -/
theorem shiftLeft_or {k b : ℕ} (a : ℕ) (hb : b < 2 ^ k) : a <<< k ||| b = a * 2 ^ k + b := by
  rw [← Nat.shiftLeft_add_eq_or_of_lt hb, Nat.shiftLeft_eq]

theorem shiftLeft_or_shiftLeft {b d : ℕ} (a : ℕ) (hb : b < 64) (hd : d < 64) :
    a <<< 12 ||| b <<< 6 ||| d = (a * 64 + b) * 64 + d := by
  have hsplit : a <<< 12 ||| b <<< 6 = (a <<< 6 ||| b) <<< 6 := by
    rw [Nat.shiftLeft_or_distrib, ← Nat.shiftLeft_add]
  rw [hsplit, shiftLeft_or (a <<< 6 ||| b) (show d < 2 ^ 6 from hd),
    shiftLeft_or a (show b < 2 ^ 6 from hb)]
  norm_num

theorem shiftLeft_or_shiftLeft_or_shiftLeft {b d e : ℕ} (a : ℕ) (hb : b < 64) (hd : d < 64)
    (he : e < 64) : a <<< 18 ||| b <<< 12 ||| d <<< 6 ||| e = ((a * 64 + b) * 64 + d) * 64 + e := by
  have hsplit : a <<< 18 ||| b <<< 12 ||| d <<< 6 = (a <<< 12 ||| b <<< 6 ||| d) <<< 6 := by
    rw [Nat.shiftLeft_or_distrib, Nat.shiftLeft_or_distrib, ← Nat.shiftLeft_add, ← Nat.shiftLeft_add]
  rw [hsplit, shiftLeft_or _ (show e < 2 ^ 6 from he), shiftLeft_or_shiftLeft a hb hd]
  norm_num

theorem and_63 (n : ℕ) : n &&& 0x3F = n % 64 := Nat.and_two_pow_sub_one_eq_mod n 6

theorem continuation_bits {b : ℕ} (hb : b < 64) :
    ((UInt8.ofNat (b + 0x80)) &&& 0x3F).toNat = b ∧
      (0x80 ||| b).toUInt8 = UInt8.ofNat (b + 0x80) := by
  have hall : ∀ b < 64, ((UInt8.ofNat (b + 0x80)) &&& 0x3F).toNat = b ∧
      (0x80 ||| b).toUInt8 = UInt8.ofNat (b + 0x80) := by decide
  exact hall b hb

theorem lead2_bits {a : ℕ} (ha : a < 32) :
    ¬UInt8.ofNat (a + 0xC0) < 0x80 ∧ UInt8.ofNat (a + 0xC0) &&& 0xE0 = 0xC0 ∧
      (UInt8.ofNat (a + 0xC0) &&& 0x1F).toNat = a ∧ (0xC0 ||| a).toUInt8 = UInt8.ofNat (a + 0xC0) := by
  have hall : ∀ a < 32, ¬UInt8.ofNat (a + 0xC0) < 0x80 ∧ UInt8.ofNat (a + 0xC0) &&& 0xE0 = 0xC0 ∧
      (UInt8.ofNat (a + 0xC0) &&& 0x1F).toNat = a ∧
        (0xC0 ||| a).toUInt8 = UInt8.ofNat (a + 0xC0) := by decide
  exact hall a ha

theorem lead3_bits {a : ℕ} (ha : a < 16) :
    ¬UInt8.ofNat (a + 0xE0) < 0x80 ∧ UInt8.ofNat (a + 0xE0) &&& 0xE0 ≠ 0xC0 ∧
      UInt8.ofNat (a + 0xE0) &&& 0xF0 = 0xE0 ∧ (UInt8.ofNat (a + 0xE0) &&& 0x0F).toNat = a ∧
      (0xE0 ||| a).toUInt8 = UInt8.ofNat (a + 0xE0) := by
  have hall : ∀ a < 16, ¬UInt8.ofNat (a + 0xE0) < 0x80 ∧ UInt8.ofNat (a + 0xE0) &&& 0xE0 ≠ 0xC0 ∧
      UInt8.ofNat (a + 0xE0) &&& 0xF0 = 0xE0 ∧ (UInt8.ofNat (a + 0xE0) &&& 0x0F).toNat = a ∧
        (0xE0 ||| a).toUInt8 = UInt8.ofNat (a + 0xE0) := by decide
  exact hall a ha

theorem lead4_bits {a : ℕ} (ha : a < 8) :
    ¬UInt8.ofNat (a + 0xF0) < 0x80 ∧ UInt8.ofNat (a + 0xF0) &&& 0xE0 ≠ 0xC0 ∧
      UInt8.ofNat (a + 0xF0) &&& 0xF0 ≠ 0xE0 ∧ UInt8.ofNat (a + 0xF0) &&& 0xF8 = 0xF0 ∧
      (UInt8.ofNat (a + 0xF0) &&& 0x07).toNat = a ∧ (0xF0 ||| a).toUInt8 = UInt8.ofNat (a + 0xF0) := by
  have hall : ∀ a < 8, ¬UInt8.ofNat (a + 0xF0) < 0x80 ∧ UInt8.ofNat (a + 0xF0) &&& 0xE0 ≠ 0xC0 ∧
      UInt8.ofNat (a + 0xF0) &&& 0xF0 ≠ 0xE0 ∧ UInt8.ofNat (a + 0xF0) &&& 0xF8 = 0xF0 ∧
        (UInt8.ofNat (a + 0xF0) &&& 0x07).toNat = a ∧
          (0xF0 ||| a).toUInt8 = UInt8.ofNat (a + 0xF0) := by decide
  exact hall a ha

/-! ## The encoding of a character -/

/-- A character is a code point that is no surrogate. -/
theorem toNat_valid (c : Char) : c.toNat < 0xD800 ∨ 0xDFFF < c.toNat ∧ c.toNat < 0x110000 := c.valid

/-- The four lengths of an encoding. -/
theorem utf8EncodeChar_cases (c : Char) :
    (c.toNat ≤ 0x7F ∧ String.utf8EncodeChar c = [UInt8.ofNat c.toNat]) ∨
    (0x7F < c.toNat ∧ c.toNat ≤ 0x7FF ∧ String.utf8EncodeChar c =
      [UInt8.ofNat (c.toNat / 64 % 32 + 0xC0), UInt8.ofNat (c.toNat % 64 + 0x80)]) ∨
    (0x7FF < c.toNat ∧ c.toNat ≤ 0xFFFF ∧ String.utf8EncodeChar c =
      [UInt8.ofNat (c.toNat / 4096 % 16 + 0xE0), UInt8.ofNat (c.toNat / 64 % 64 + 0x80),
        UInt8.ofNat (c.toNat % 64 + 0x80)]) ∨
    (0xFFFF < c.toNat ∧ String.utf8EncodeChar c =
      [UInt8.ofNat (c.toNat / 262144 % 8 + 0xF0), UInt8.ofNat (c.toNat / 4096 % 64 + 0x80),
        UInt8.ofNat (c.toNat / 64 % 64 + 0x80), UInt8.ofNat (c.toNat % 64 + 0x80)]) := by
  have heq : String.utf8EncodeChar c =
      if c.toNat ≤ 0x7F then [UInt8.ofNat c.toNat]
      else if c.toNat ≤ 0x7FF then
        [UInt8.ofNat (c.toNat / 64 % 32 + 0xC0), UInt8.ofNat (c.toNat % 64 + 0x80)]
      else if c.toNat ≤ 0xFFFF then
        [UInt8.ofNat (c.toNat / 4096 % 16 + 0xE0), UInt8.ofNat (c.toNat / 64 % 64 + 0x80),
          UInt8.ofNat (c.toNat % 64 + 0x80)]
      else [UInt8.ofNat (c.toNat / 262144 % 8 + 0xF0), UInt8.ofNat (c.toNat / 4096 % 64 + 0x80),
        UInt8.ofNat (c.toNat / 64 % 64 + 0x80), UInt8.ofNat (c.toNat % 64 + 0x80)] := rfl
  rw [heq]
  by_cases h₁ : c.toNat ≤ 0x7F
  · exact Or.inl ⟨h₁, if_pos h₁⟩
  by_cases h₂ : c.toNat ≤ 0x7FF
  · exact Or.inr (Or.inl ⟨by omega, h₂, by rw [if_neg h₁, if_pos h₂]⟩)
  by_cases h₃ : c.toNat ≤ 0xFFFF
  · exact Or.inr (Or.inr (Or.inl ⟨by omega, h₃, by rw [if_neg h₁, if_neg h₂, if_pos h₃]⟩))
  · exact Or.inr (Or.inr (Or.inr ⟨by omega, by rw [if_neg h₁, if_neg h₂, if_neg h₃]⟩))

/-- `utf8_encode` with the bits of a byte as remainders and quotients. -/
theorem utf8Encode_eq {n : ℕ} (h : n ≤ 0x10FFFF) : utf8Encode n =
    if n ≤ 0x7F then [UInt8.ofNat n]
    else if n ≤ 0x7FF then [UInt8.ofNat (n / 64 % 32 + 0xC0), UInt8.ofNat (n % 64 + 0x80)]
    else if n ≤ 0xFFFF then
      [UInt8.ofNat (n / 4096 % 16 + 0xE0), UInt8.ofNat (n / 64 % 64 + 0x80), UInt8.ofNat (n % 64 + 0x80)]
    else
      [UInt8.ofNat (n / 262144 % 8 + 0xF0), UInt8.ofNat (n / 4096 % 64 + 0x80),
        UInt8.ofNat (n / 64 % 64 + 0x80), UInt8.ofNat (n % 64 + 0x80)] := by
  have hlast := (continuation_bits (Nat.mod_lt n (by omega : 64 > 0))).2
  have hmid := (continuation_bits (Nat.mod_lt (n / 64) (by omega : 64 > 0))).2
  have hmid' := (continuation_bits (Nat.mod_lt (n / 4096) (by omega : 64 > 0))).2
  unfold utf8Encode
  rw [and_63, and_63, and_63, Nat.shiftRight_eq_div_pow, Nat.shiftRight_eq_div_pow, Nat.shiftRight_eq_div_pow]
  by_cases h₁ : n ≤ 0x7F
  · rw [if_pos h₁, if_pos h₁]
  by_cases h₂ : n ≤ 0x7FF
  · have hlead := (lead2_bits (Nat.mod_lt (n / 64) (by omega : 32 > 0))).2.2.2
    have ha : n / 64 % 32 = n / 2 ^ 6 := by omega
    rw [if_neg h₁, if_pos h₂, if_neg h₁, if_pos h₂, ← hlead, ← hlast, ha]
  by_cases h₃ : n ≤ 0xFFFF
  · have hlead := (lead3_bits (Nat.mod_lt (n / 4096) (by omega : 16 > 0))).2.2.2.2
    have ha : n / 4096 % 16 = n / 2 ^ 12 := by omega
    rw [if_neg h₁, if_neg h₂, if_pos h₃, if_neg h₁, if_neg h₂, if_pos h₃, ← hlead, ← hmid, ← hlast, ha]
  · have hlead := (lead4_bits (Nat.mod_lt (n / 262144) (by omega : 8 > 0))).2.2.2.2.2
    have ha : n / 262144 % 8 = n / 2 ^ 18 := by omega
    rw [if_neg h₁, if_neg h₂, if_neg h₃, if_pos h, if_neg h₁, if_neg h₂, if_neg h₃, ← hlead, ← hmid', ← hmid,
      ← hlast, ha]

/-- `utf8_encode` is the encoding of a character. -/
theorem utf8Encode_toNat (c : Char) : utf8Encode c.toNat = String.utf8EncodeChar c := by
  have hvalid := toNat_valid c
  exact (utf8Encode_eq (by omega)).trans rfl

/-- `decode_utf8` reads the encoding of a character, whatever is behind it. -/
theorem decodeUtf8_utf8EncodeChar (c : Char) (rest : List UInt8) :
    decodeUtf8 (String.utf8EncodeChar c ++ rest) =
      some ((String.utf8EncodeChar c).length, c.toNat) := by
  have hvalid := toNat_valid c
  rcases utf8EncodeChar_cases c with ⟨hle, heq⟩ | ⟨hlt, hle, heq⟩ | ⟨hlt, hle, heq⟩ | ⟨hlt, heq⟩
  · have hlead : UInt8.ofNat c.toNat < 0x80 ∧ (UInt8.ofNat c.toNat).toNat = c.toNat := by
      have hall : ∀ n < 0x80, UInt8.ofNat n < 0x80 ∧ (UInt8.ofNat n).toNat = n := by decide
      exact hall _ (by omega)
    rw [heq]
    show (if UInt8.ofNat c.toNat < 0x80 then _ else _) = _
    rw [if_pos hlead.1, hlead.2]
    rfl
  · obtain ⟨hascii, hmask, hbits, _⟩ := lead2_bits (Nat.mod_lt (c.toNat / 64) (by omega : 32 > 0))
    have hlast := (continuation_bits (Nat.mod_lt c.toNat (by omega : 64 > 0))).1
    rw [heq]
    generalize hs₀ : UInt8.ofNat (c.toNat / 64 % 32 + 0xC0) = s₀ at hascii hmask hbits ⊢
    generalize hs₁ : UInt8.ofNat (c.toNat % 64 + 0x80) = s₁ at hlast ⊢
    show decodeUtf8 (s₀ :: s₁ :: rest) = some (2, c.toNat)
    unfold decodeUtf8
    dsimp only
    rw [if_neg hascii, if_pos ⟨hmask, by simp⟩]
    show some (2, (s₀ &&& 0x1F).toNat <<< 6 ||| (s₁ &&& 0x3F).toNat) = _
    have hlow : c.toNat % 64 < 2 ^ 6 := Nat.mod_lt _ (by omega)
    rw [hbits, hlast, shiftLeft_or _ hlow]
    have hsum : c.toNat / 64 % 32 * 2 ^ 6 + c.toNat % 64 = c.toNat := by omega
    rw [hsum]
  · obtain ⟨hascii, hmask₂, hmask, hbits, _⟩ :=
      lead3_bits (Nat.mod_lt (c.toNat / 4096) (by omega : 16 > 0))
    have hmid := (continuation_bits (Nat.mod_lt (c.toNat / 64) (by omega : 64 > 0))).1
    have hlast := (continuation_bits (Nat.mod_lt c.toNat (by omega : 64 > 0))).1
    rw [heq]
    generalize hs₀ : UInt8.ofNat (c.toNat / 4096 % 16 + 0xE0) = s₀ at hascii hmask₂ hmask hbits ⊢
    generalize hs₁ : UInt8.ofNat (c.toNat / 64 % 64 + 0x80) = s₁ at hmid ⊢
    generalize hs₂ : UInt8.ofNat (c.toNat % 64 + 0x80) = s₂ at hlast ⊢
    show decodeUtf8 (s₀ :: s₁ :: s₂ :: rest) = some (3, c.toNat)
    unfold decodeUtf8
    dsimp only
    rw [if_neg hascii, if_neg fun h => hmask₂ h.1, if_pos ⟨hmask, by simp⟩]
    show some (3, (s₀ &&& 0x0F).toNat <<< 12 ||| (s₁ &&& 0x3F).toNat <<< 6 |||
      (s₂ &&& 0x3F).toNat) = _
    rw [hbits, hmid, hlast, shiftLeft_or_shiftLeft _ (Nat.mod_lt _ (by omega)) (Nat.mod_lt _ (by omega))]
    have hsum : (c.toNat / 4096 % 16 * 64 + c.toNat / 64 % 64) * 64 + c.toNat % 64 = c.toNat := by
      omega
    rw [hsum]
  · obtain ⟨hascii, hmask₂, hmask₃, hmask, hbits, _⟩ :=
      lead4_bits (Nat.mod_lt (c.toNat / 262144) (by omega : 8 > 0))
    have hmid := (continuation_bits (Nat.mod_lt (c.toNat / 4096) (by omega : 64 > 0))).1
    have hmid' := (continuation_bits (Nat.mod_lt (c.toNat / 64) (by omega : 64 > 0))).1
    have hlast := (continuation_bits (Nat.mod_lt c.toNat (by omega : 64 > 0))).1
    rw [heq]
    generalize hs₀ : UInt8.ofNat (c.toNat / 262144 % 8 + 0xF0) = s₀
      at hascii hmask₂ hmask₃ hmask hbits ⊢
    generalize hs₁ : UInt8.ofNat (c.toNat / 4096 % 64 + 0x80) = s₁ at hmid ⊢
    generalize hs₂ : UInt8.ofNat (c.toNat / 64 % 64 + 0x80) = s₂ at hmid' ⊢
    generalize hs₃ : UInt8.ofNat (c.toNat % 64 + 0x80) = s₃ at hlast ⊢
    show decodeUtf8 (s₀ :: s₁ :: s₂ :: s₃ :: rest) = some (4, c.toNat)
    unfold decodeUtf8
    dsimp only
    rw [if_neg hascii, if_neg fun h => hmask₂ h.1, if_neg fun h => hmask₃ h.1,
      if_pos ⟨hmask, by simp⟩]
    show some (4, (s₀ &&& 0x07).toNat <<< 18 ||| (s₁ &&& 0x3F).toNat <<< 12 |||
      (s₂ &&& 0x3F).toNat <<< 6 ||| (s₃ &&& 0x3F).toNat) = _
    rw [hbits, hmid, hmid', hlast, shiftLeft_or_shiftLeft_or_shiftLeft _ (Nat.mod_lt _ (by omega))
      (Nat.mod_lt _ (by omega)) (Nat.mod_lt _ (by omega))]
    have hsum : ((c.toNat / 262144 % 8 * 64 + c.toNat / 4096 % 64) * 64 + c.toNat / 64 % 64) * 64 +
        c.toNat % 64 = c.toNat := by omega
    rw [hsum]

/-! ## The items of a quoted string -/

theorem hexDigit_spec {n : ℕ} (hn : n < 16) :
    hexDigit n ∈ hexLetters ∧ hexValue (hexDigit n) = some n := by
  have hall : ∀ n < 16, hexDigit n ∈ hexLetters ∧ hexValue (hexDigit n) = some n := by
    decide
  exact hall n hn

/-- The escape of a code unit. -/
def unicodeItem (n : ℕ) : Item :=
  .unicode (hexDigit (n / 4096 % 16)) (hexDigit (n / 256 % 16)) (hexDigit (n / 16 % 16))
    (hexDigit (n % 16))

theorem unicodeItem_valid (quote : UInt8) (n : ℕ) : (unicodeItem n).Valid quote :=
  ⟨(hexDigit_spec (Nat.mod_lt _ (by omega))).1, (hexDigit_spec (Nat.mod_lt _ (by omega))).1,
    (hexDigit_spec (Nat.mod_lt _ (by omega))).1, (hexDigit_spec (Nat.mod_lt _ (by omega))).1⟩

/-- `parse_hex4` reads what `%04X` writes. -/
theorem unitOf_unicodeItem {n : ℕ} (hn : n < 0x10000) :
    unitOf (hexDigit (n / 4096 % 16)) (hexDigit (n / 256 % 16)) (hexDigit (n / 16 % 16))
      (hexDigit (n % 16)) = n := by
  have hdigit : ∀ k, k % 16 < 2 ^ 4 := fun k => Nat.mod_lt k (by omega)
  have hvalue : ∀ k, hexValue (hexDigit (k % 16)) = some (k % 16) := fun k =>
    (hexDigit_spec (hdigit k)).2
  unfold unitOf parseHex4
  rw [hvalue, hvalue, hvalue, hvalue]
  show (((n / 4096 % 16) <<< 4 ||| n / 256 % 16) <<< 4 ||| n / 16 % 16) <<< 4 ||| n % 16 = n
  rw [shiftLeft_or _ (hdigit _), shiftLeft_or _ (hdigit _), shiftLeft_or _ (hdigit _)]
  omega

variable (ctype : CType)

/-- The items that a character becomes. -/
def quoteItems (c : Char) : List Item :=
  if c.toNat = 10 then [.escaped 110]
  else if c.toNat = 9 then [.escaped 116]
  else if c.toNat = 13 then [.escaped 114]
  else if c.toNat = 92 then [.escaped 92]
  else if c.toNat = 34 then [.escaped 34]
  else if c.toNat ≤ 0x7F ∧ ctype.isprint (UInt8.ofNat c.toNat) then [.plain (UInt8.ofNat c.toNat)]
  else if c.toNat ≤ 0xFFFF then [unicodeItem c.toNat]
  else [unicodeItem (0xD800 + (c.toNat - 0x10000) / 2 ^ 10),
    unicodeItem (0xDC00 + (c.toNat - 0x10000) % 2 ^ 10)]

theorem quoteBytes_skip (s rest : List UInt8) :
    quoteBytes ctype s.length (s ++ rest) = quoteBytes ctype 0 rest := by
  induction s with
  | nil => rfl
  | cons c s ih => exact ih

/-- A byte of ASCII, and the other bytes. -/
theorem quoteBytes_ascii {n : ℕ} (hn : n ≤ 0x7F) (rest : List UInt8) :
    quoteBytes ctype 0 (UInt8.ofNat n :: rest) =
      (if n = 10 then [.escaped 110]
      else if n = 9 then [.escaped 116]
      else if n = 13 then [.escaped 114]
      else if n = 92 then [.escaped 92]
      else if n = 34 then [.escaped 34]
      else if ctype.isprint (UInt8.ofNat n) then [.plain (UInt8.ofNat n)]
      else [unicodeItem n]).flatMap Item.bytes ++ quoteBytes ctype 0 rest := by
  have hascii : ∀ n ≤ 0x7F, UInt8.ofNat n < 0x80 ∧ (UInt8.ofNat n).toNat = n := by decide
  have hbyte : ∀ m ≤ 0x7F, (UInt8.ofNat n = UInt8.ofNat m) = (n = m) := by
    intro m hm
    refine propext ⟨fun heq => ?_, fun heq => by rw [heq]⟩
    rw [← (hascii n hn).2, heq, (hascii m hm).2]
  have hnl : (UInt8.ofNat n = byte '\n') = (n = 10) := hbyte 10 (by omega)
  have htab : (UInt8.ofNat n = byte '\t') = (n = 9) := hbyte 9 (by omega)
  have hcr : (UInt8.ofNat n = byte '\r') = (n = 13) := hbyte 13 (by omega)
  have hbackslash : (UInt8.ofNat n = byte '\\') = (n = 92) := hbyte 92 (by omega)
  have hquote : (UInt8.ofNat n = byte '"') = (n = 34) := hbyte 34 (by omega)
  rw [quoteBytes.eq_def ctype 0 (UInt8.ofNat n :: rest)]
  simp only [hnl, htab, hcr, hbackslash, hquote]
  by_cases h₁ : n = 10
  · rw [if_pos h₁, if_pos h₁]
    rfl
  by_cases h₂ : n = 9
  · rw [if_neg h₁, if_pos h₂, if_neg h₁, if_pos h₂]
    rfl
  by_cases h₃ : n = 13
  · rw [if_neg h₁, if_neg h₂, if_pos h₃, if_neg h₁, if_neg h₂, if_pos h₃]
    rfl
  by_cases h₄ : n = 92
  · rw [if_neg h₁, if_neg h₂, if_neg h₃, if_pos h₄, if_neg h₁, if_neg h₂, if_neg h₃, if_pos h₄]
    rfl
  by_cases h₅ : n = 34
  · rw [if_neg h₁, if_neg h₂, if_neg h₃, if_neg h₄, if_pos h₅, if_neg h₁, if_neg h₂, if_neg h₃,
      if_neg h₄, if_pos h₅]
    rfl
  rw [if_neg h₁, if_neg h₂, if_neg h₃, if_neg h₄, if_neg h₅, if_neg h₁, if_neg h₂, if_neg h₃,
    if_neg h₄, if_neg h₅]
  by_cases hprint : ctype.isprint (UInt8.ofNat n) = true
  · rw [if_pos ⟨hprint, (hascii n hn).1⟩, if_pos hprint]
    rfl
  · have hdecode : decodeUtf8 (UInt8.ofNat n :: rest) = some (1, n) := by
      unfold decodeUtf8
      dsimp only
      rw [if_pos (hascii n hn).1, (hascii n hn).2]
    rw [if_neg fun h => hprint h.1, if_neg hprint, hdecode]
    dsimp only
    rw [if_pos (by omega)]
    rfl

/-- A character becomes its items. -/
theorem quoteBytes_char (c : Char) (rest : List UInt8) :
    quoteBytes ctype 0 (String.utf8EncodeChar c ++ rest) =
      (quoteItems ctype c).flatMap Item.bytes ++ quoteBytes ctype 0 rest := by
  unfold quoteItems
  rcases utf8EncodeChar_cases c with ⟨hle, heq⟩ | hlt
  · rw [heq]
    refine (quoteBytes_ascii ctype hle rest).trans ?_
    simp only [hle, true_and, show c.toNat ≤ 0xFFFF by omega, if_true]
  · -- The first byte is not one of ASCII.
    have hlt' : 0x7F < c.toNat := by omega
    obtain ⟨s₀, s, heq, hascii⟩ : ∃ s₀ s, String.utf8EncodeChar c = s₀ :: s ∧ ¬s₀ < 0x80 := by
      rcases hlt with ⟨_, _, heq⟩ | ⟨_, _, heq⟩ | ⟨_, heq⟩
      · exact ⟨_, _, heq, (lead2_bits (Nat.mod_lt _ (by omega))).1⟩
      · exact ⟨_, _, heq, (lead3_bits (Nat.mod_lt _ (by omega))).1⟩
      · exact ⟨_, _, heq, (lead4_bits (Nat.mod_lt _ (by omega))).1⟩
    have hne : ∀ b : UInt8, b < 0x80 → s₀ ≠ b := by
      rintro b hb rfl
      exact hascii hb
    have hdecode := decodeUtf8_utf8EncodeChar c rest
    rw [heq] at hdecode ⊢
    rw [if_neg (by omega), if_neg (by omega), if_neg (by omega), if_neg (by omega),
      if_neg (by omega), if_neg (by omega)]
    have hloop : quoteBytes ctype 0 (s₀ :: (s ++ rest)) =
        if c.toNat ≤ 0xFFFF then escapeU c.toNat ++ quoteBytes ctype ((s₀ :: s).length - 1) (s ++ rest)
        else
          escapeU (0xD800 + (c.toNat - 0x10000) / 2^10) ++ escapeU (0xDC00 + (c.toNat - 0x10000) % 2^10) ++
            quoteBytes ctype ((s₀ :: s).length - 1) (s ++ rest) := by
      rw [quoteBytes.eq_def]
      dsimp only
      rw [if_neg (hne _ (by decide)), if_neg (hne _ (by decide)), if_neg (hne _ (by decide)),
        if_neg (hne _ (by decide)), if_neg (hne _ (by decide)), if_neg fun h => hascii h.2,
        show decodeUtf8 (s₀ :: (s ++ rest)) = some ((s₀ :: s).length, c.toNat) from hdecode]
    refine hloop.trans ?_
    rw [List.length_cons, Nat.add_sub_cancel, quoteBytes_skip]
    by_cases hbmp : c.toNat ≤ 0xFFFF
    · rw [if_pos hbmp, if_pos hbmp]
      rfl
    · rw [if_neg hbmp, if_neg hbmp]
      rfl

/-! ## The way back -/

theorem unicodeItem_ne_zero (n : ℕ) : (0 : UInt8) ∉ (unicodeItem n).bytes := by
  have hdigit : ∀ k, hexDigit (k % 16) ≠ 0 := by
    have hall : ∀ k < 16, hexDigit k ≠ 0 := by decide
    exact fun k => hall _ (Nat.mod_lt _ (by omega))
  intro hmem
  simp only [unicodeItem, Item.bytes, List.mem_cons, List.not_mem_nil, or_false] at hmem
  rcases hmem with h | h | h | h | h | h
  · cases h
  · cases h
  · exact hdigit _ h.symm
  · exact hdigit _ h.symm
  · exact hdigit _ h.symm
  · exact hdigit _ h.symm

/-- The items of a character are items of a literal, without null bytes. -/
theorem quoteItems_valid (hnull : ctype.isprint 0 = false) (c : Char) :
    ∀ i ∈ quoteItems ctype c, i.Valid 34 ∧ (0 : UInt8) ∉ i.bytes := by
  have hunicode : ∀ n, (unicodeItem n).Valid 34 ∧ (0 : UInt8) ∉ (unicodeItem n).bytes :=
    fun n => ⟨unicodeItem_valid 34 n, unicodeItem_ne_zero n⟩
  have hescaped : ∀ e ∈ [110, 116, 114, 92, 34],
      (Item.escaped e).Valid 34 ∧ (0 : UInt8) ∉ (Item.escaped e).bytes := by
    intro e he
    have hall : ∀ e ∈ [110, 116, 114, 92, 34],
        e ∈ 34 :: commonEscapes ∧ (0 : UInt8) ∉ [92, e] := by simp [commonEscapes]
    exact hall e he
  unfold quoteItems
  split_ifs with h₁ h₂ h₃ h₄ h₅ hprint hbmp
  · simpa using hescaped 110 (by simp)
  · simpa using hescaped 116 (by simp)
  · simpa using hescaped 114 (by simp)
  · simpa using hescaped 92 (by simp)
  · simpa using hescaped 34 (by simp)
  · -- A byte that is printed as it is.
    obtain ⟨hle, hprint⟩ := hprint
    have hascii : ∀ n ≤ 0x7F, (UInt8.ofNat n).toNat = n := by decide
    have hbyte : ∀ m ≤ 0x7F, c.toNat ≠ m → UInt8.ofNat c.toNat ≠ UInt8.ofNat m := by
      intro m hm hne heq
      refine hne ?_
      rw [← hascii c.toNat hle, heq, hascii m hm]
    have hzero : c.toNat ≠ 0 := by
      intro heq
      rw [heq, show UInt8.ofNat 0 = 0 from rfl, hnull] at hprint
      cases hprint
    intro i hi
    obtain rfl := List.mem_singleton.mp hi
    constructor
    · show UInt8.ofNat c.toNat ∉ [92, 34, 10]
      simp only [List.mem_cons, List.not_mem_nil, or_false, not_or]
      exact ⟨hbyte 92 (by omega) h₄, hbyte 34 (by omega) h₅, hbyte 10 (by omega) h₁⟩
    · intro hmem
      exact hbyte 0 (by omega) hzero (List.mem_singleton.mp hmem).symm
  · intro i hi
    rw [List.mem_singleton.mp hi]
    exact hunicode _
  · intro i hi
    rcases List.mem_cons.mp hi with hi | hi
    · rw [hi]
      exact hunicode _
    · rw [List.mem_singleton.mp hi]
      exact hunicode _

/-- The halves of a code point above the basic plane. -/
theorem combineUnits_halves {n : ℕ} (hlow : 0x10000 ≤ n) (hhigh : n < 0x110000) :
    IsHigh (0xD800 + (n - 0x10000) / 2 ^ 10) ∧ IsLow (0xDC00 + (n - 0x10000) % 2 ^ 10) ∧
      combineUnits (0xD800 + (n - 0x10000) / 2 ^ 10) (0xDC00 + (n - 0x10000) % 2 ^ 10) = n := by
  refine ⟨⟨by omega, by omega⟩, ⟨by omega, by omega⟩, ?_⟩
  unfold combineUnits
  rw [Nat.add_sub_cancel_left, Nat.add_sub_cancel_left, shiftLeft_or _ (Nat.mod_lt _ (by omega))]
  omega

/-- The items of a character are decoded to its bytes. -/
theorem decodeItems_quoteItems (c : Char) (items : List Item) :
    decodeItems 34 (quoteItems ctype c ++ items) =
      (decodeItems 34 items).map fun dst => String.utf8EncodeChar c ++ dst := by
  have hvalid := toNat_valid c
  have hbytes : ∀ n ≤ 0x7F, c.toNat = n → String.utf8EncodeChar c = [UInt8.ofNat n] := by
    rintro n hn rfl
    rcases utf8EncodeChar_cases c with ⟨_, heq⟩ | ⟨hlt, _⟩ | ⟨hlt, _⟩ | ⟨hlt, _⟩
    · exact heq
    all_goals omega
  unfold quoteItems
  split_ifs with h₁ h₂ h₃ h₄ h₅ hprint hbmp
  · rw [hbytes 10 (by omega) h₁]
    rfl
  · rw [hbytes 9 (by omega) h₂]
    rfl
  · rw [hbytes 13 (by omega) h₃]
    rfl
  · rw [hbytes 92 (by omega) h₄]
    rfl
  · rw [hbytes 34 (by omega) h₅]
    rfl
  · rw [hbytes c.toNat hprint.1 rfl]
    rfl
  · -- one code unit, which is no surrogate
    have hunit := unitOf_unicodeItem (show c.toNat < 0x10000 by omega)
    have hhigh : ¬IsHigh c.toNat := fun h => by
      obtain ⟨hge, hle⟩ := h
      omega
    have hlow : ¬IsLow c.toNat := fun h => by
      obtain ⟨hge, hle⟩ := h
      omega
    rw [List.singleton_append, unicodeItem, decodeItems.eq_def]
    dsimp only
    rw [hunit, if_neg hhigh, if_neg hlow, utf8Encode_toNat]
  · -- the two halves of a pair
    obtain ⟨hhigh, hlow, hcombine⟩ := combineUnits_halves (n := c.toNat) (by omega) (by omega)
    obtain ⟨hle, hge⟩ := hhigh
    obtain ⟨hle', hge'⟩ := hlow
    have hunit := unitOf_unicodeItem (show 0xD800 + (c.toNat - 0x10000) / 2 ^ 10 < 0x10000 by omega)
    have hunit' := unitOf_unicodeItem (show 0xDC00 + (c.toNat - 0x10000) % 2 ^ 10 < 0x10000 by omega)
    rw [List.cons_append, List.singleton_append, unicodeItem, unicodeItem, decodeItems, hunit, hunit',
      if_pos ⟨hle, hge⟩, if_pos ⟨hle', hge'⟩, hcombine, utf8Encode_toNat]

/-- The text of a quoted string. -/
theorem cQuoteString_eq (s : List Char) :
    cQuoteString ctype (s.flatMap String.utf8EncodeChar) =
      literalText 34 (s.flatMap (quoteItems ctype)) := by
  have hloop : quoteBytes ctype 0 (s.flatMap String.utf8EncodeChar) =
      (s.flatMap (quoteItems ctype)).flatMap Item.bytes := by
    induction s with
    | nil => rfl
    | cons c s ih =>
      rw [List.flatMap_cons, quoteBytes_char, ih, List.flatMap_cons, List.flatMap_append]
  unfold cQuoteString literalText
  rw [hloop]
  rfl

theorem decodeItems_flatMap (s : List Char) :
    decodeItems 34 (s.flatMap (quoteItems ctype)) = some (s.flatMap String.utf8EncodeChar) := by
  induction s with
  | nil => rfl
  | cons c s ih =>
    rw [List.flatMap_cons, decodeItems_quoteItems, ih, List.flatMap_cons]
    rfl

/-- A string that is well-formed UTF-8 is quoted as a string token, and as nothing else whatever stands
behind it, and that token is the string again. What is printed as it is depends on the locale; a null
byte is printed in none. -/
theorem unquote_quote {ctype : CType} (hnull : ctype.isprint 0 = false) (s : List Char) :
    cQuoteString ctype (s.flatMap String.utf8EncodeChar) ∈ (stringRule 34).matches' ∧
      (∀ token rest rest', token ∈ (stringRule 34).matches' →
        cQuoteString ctype (s.flatMap String.utf8EncodeChar) ++ rest = token ++ rest' →
          token = cQuoteString ctype (s.flatMap String.utf8EncodeChar) ∧ rest' = rest) ∧
      unquote (cQuoteString ctype (s.flatMap String.utf8EncodeChar)) 34 true =
        some (s.flatMap String.utf8EncodeChar) := by
  have hquote : (34 : UInt8) ∈ quotes := List.mem_cons_self
  have hitems : ∀ i ∈ s.flatMap (quoteItems ctype), i.Valid 34 ∧ (0 : UInt8) ∉ i.bytes := by
    intro i hi
    obtain ⟨c, _, hi⟩ := List.mem_flatMap.mp hi
    exact quoteItems_valid ctype hnull c i hi
  have hvalid : ∀ i ∈ s.flatMap (quoteItems ctype), i.Valid 34 := fun i hi => (hitems i hi).1
  rw [cQuoteString_eq]
  refine ⟨mem_stringRule.mpr ⟨_, hvalid, rfl⟩, ?_, ?_⟩
  · intro token rest rest' htoken heq
    obtain ⟨items, hitems', rfl⟩ := mem_stringRule.mp htoken
    unfold literalText at heq ⊢
    rw [List.cons_append, List.cons_append, List.append_assoc, List.append_assoc] at heq
    obtain ⟨hsame, hrest⟩ := items_inj hquote hvalid hitems' (List.cons.inj heq).2
    rw [hsame]
    exact ⟨rfl, hrest.symm⟩
  · rw [unquote_literal hquote hvalid ?_, decodeItems_flatMap]
    unfold literalText
    intro hmem
    rcases List.mem_cons.mp hmem with h | hmem
    · cases h
    · rcases List.mem_append.mp hmem with hmem | hmem
      · obtain ⟨i, hi, hmem⟩ := List.mem_flatMap.mp hmem
        exact (hitems i hi).2 hmem
      · cases List.mem_singleton.mp hmem

/-- The locale "C", and a text with a letter, a null byte, a quote and an emoji. -/
theorem unquote_quote_ascii :
    cQuoteString CType.ascii (['a', '\x00', '"', '😀'].flatMap String.utf8EncodeChar) ∈
        (stringRule 34).matches' ∧
      (∀ token rest rest', token ∈ (stringRule 34).matches' →
        cQuoteString CType.ascii (['a', '\x00', '"', '😀'].flatMap String.utf8EncodeChar) ++ rest =
            token ++ rest' →
          token = cQuoteString CType.ascii (['a', '\x00', '"', '😀'].flatMap String.utf8EncodeChar) ∧
            rest' = rest) ∧
      unquote (cQuoteString CType.ascii (['a', '\x00', '"', '😀'].flatMap String.utf8EncodeChar)) 34
          true = some (['a', '\x00', '"', '😀'].flatMap String.utf8EncodeChar) :=
  unquote_quote rfl _

end Chloride
