import Chloride.Lexer.StringRules

/-!
# The text of strings

`unquote` of `src/parser/string/string.c` with its helpers: it finds the closing quote and decodes what
is before it, escape by escape. The text of a template is decoded without quotes. On the items that the
lexer lets through, `unquote` does what `decodeItems` says (`unquote_literal`): every item is decoded
by itself, but for the two halves of a surrogate pair.
-/

namespace Chloride

/-! ## The functions of the source -/

/-- The value of a hexadecimal digit in `parse_hex4`. -/
def hexValue (c : UInt8) : Option ℕ :=
  if 48 ≤ c ∧ c ≤ 57 then some (c - 48).toNat
  else if 97 ≤ c ∧ c ≤ 102 then some (c - 97 + 10).toNat
  else if 65 ≤ c ∧ c ≤ 70 then some (c - 65 + 10).toNat
  else none

/-- `parse_hex4` of four characters. -/
def parseHex4 (d₁ d₂ d₃ d₄ : UInt8) : Option ℕ := do
  let val := (← hexValue d₁)
  let val := val <<< 4 ||| (← hexValue d₂)
  let val := val <<< 4 ||| (← hexValue d₃)
  return val <<< 4 ||| (← hexValue d₄)

/-- `utf8_encode`; nothing is written for a number that is no code point. -/
def utf8Encode (codepoint : ℕ) : List UInt8 :=
  if codepoint ≤ 0x7F then [codepoint.toUInt8]
  else if codepoint ≤ 0x7FF then
    [(0xC0 ||| codepoint >>> 6).toUInt8, (0x80 ||| (codepoint &&& 0x3F)).toUInt8]
  else if codepoint ≤ 0xFFFF then
    [(0xE0 ||| codepoint >>> 12).toUInt8, (0x80 ||| (codepoint >>> 6 &&& 0x3F)).toUInt8,
      (0x80 ||| (codepoint &&& 0x3F)).toUInt8]
  else if codepoint ≤ 0x10FFFF then
    [(0xF0 ||| codepoint >>> 18).toUInt8, (0x80 ||| (codepoint >>> 12 &&& 0x3F)).toUInt8,
      (0x80 ||| (codepoint >>> 6 &&& 0x3F)).toUInt8, (0x80 ||| (codepoint &&& 0x3F)).toUInt8]
  else []

/-- The loop that looks for the closing quote: what is before it. -/
def beforeQuote (quoteChar : UInt8) : List UInt8 → Option (List UInt8)
  | [] => none
  | c :: p =>
    if c = quoteChar then some []
    else if c = 92 then
      match p with
      | [] => none
      | d :: p => (beforeQuote quoteChar p).map fun body => c :: d :: body
    else (beforeQuote quoteChar p).map fun body => c :: body

/-- The cases of the `switch` for escapes of one character, but for the default. -/
def simpleEscape (c : UInt8) : Option UInt8 :=
  if c = 92 then some 92
  else if c = 47 then some 47
  else if c = 98 then some 8
  else if c = 102 then some 12
  else if c = 110 then some 10
  else if c = 114 then some 13
  else if c = 116 then some 9
  else none

/-- The first half of a surrogate pair. -/
def IsHigh (unit : ℕ) : Prop := 0xD800 ≤ unit ∧ unit ≤ 0xDBFF

/-- The second half of a surrogate pair. -/
def IsLow (unit : ℕ) : Prop := 0xDC00 ≤ unit ∧ unit ≤ 0xDFFF

instance (unit : ℕ) : Decidable (IsHigh unit) := inferInstanceAs (Decidable (_ ∧ _))

instance (unit : ℕ) : Decidable (IsLow unit) := inferInstanceAs (Decidable (_ ∧ _))

/-- The code point of a surrogate pair. -/
def combineUnits (codeUnit1 codeUnit2 : ℕ) : ℕ :=
  0x10000 + ((codeUnit1 - 0xD800) <<< 10 ||| (codeUnit2 - 0xDC00))

/-- The decoding loop of `unquote`. -/
def unquoteLoop (quoteChar : UInt8) (isQuoted : Bool) : List UInt8 → Option (List UInt8)
  | [] => some []
  | c :: src =>
    if c ≠ 92 then (unquoteLoop quoteChar isQuoted src).map fun dst => c :: dst
    else
      match src with
      | [] => none
      | e :: src =>
        match simpleEscape e with
        | some v => (unquoteLoop quoteChar isQuoted src).map fun dst => v :: dst
        | none =>
          if e = 117 then
            match src with
            | d₁ :: d₂ :: d₃ :: d₄ :: src =>
              match parseHex4 d₁ d₂ d₃ d₄ with
              | none => none
              | some codeUnit1 =>
                if IsHigh codeUnit1 then
                  match src with
                  | b :: u :: g₁ :: g₂ :: g₃ :: g₄ :: src =>
                    if b = 92 ∧ u = 117 then
                      match parseHex4 g₁ g₂ g₃ g₄ with
                      | none => none
                      | some codeUnit2 =>
                        if IsLow codeUnit2 then
                          (unquoteLoop quoteChar isQuoted src).map fun dst =>
                            utf8Encode (combineUnits codeUnit1 codeUnit2) ++ dst
                        else none
                    else none
                  | _ => none
                else if IsLow codeUnit1 then none
                else (unquoteLoop quoteChar isQuoted src).map fun dst => utf8Encode codeUnit1 ++ dst
            | _ => none
          else if isQuoted then
            (unquoteLoop quoteChar isQuoted src).map fun dst => quoteChar :: dst
          else none

/-- `unquote` of a C string. -/
def unquote (input : List UInt8) (quoteChar : UInt8) (isQuoted : Bool) : Option (List UInt8) :=
  let input := input.takeWhile (· ≠ 0)
  if isQuoted then
    match input with
    | [] => none
    | c :: p => if c ≠ quoteChar then none
      else (beforeQuote quoteChar p).bind (unquoteLoop quoteChar true)
  else unquoteLoop quoteChar false input

/-! ## What it does item by item -/

/-- What an escape of one character stands for in a literal: itself, a control character, or, as the
default of the `switch`, the quote. -/
def escapedValue (quoteChar c : UInt8) : UInt8 := (simpleEscape c).getD quoteChar

/-- The code unit of four hexadecimal digits. -/
def unitOf (d₁ d₂ d₃ d₄ : UInt8) : ℕ := (parseHex4 d₁ d₂ d₃ d₄).getD 0

/-- The decoding of the items of a literal. -/
def decodeItems (quoteChar : UInt8) : List Item → Option (List UInt8)
  | [] => some []
  | .plain c :: items => (decodeItems quoteChar items).map fun dst => c :: dst
  | .escaped c :: items =>
    (decodeItems quoteChar items).map fun dst => escapedValue quoteChar c :: dst
  | .unicode d₁ d₂ d₃ d₄ :: items =>
    if IsHigh (unitOf d₁ d₂ d₃ d₄) then
      match items with
      | .unicode g₁ g₂ g₃ g₄ :: items =>
        if IsLow (unitOf g₁ g₂ g₃ g₄) then
          (decodeItems quoteChar items).map fun dst =>
            utf8Encode (combineUnits (unitOf d₁ d₂ d₃ d₄) (unitOf g₁ g₂ g₃ g₄)) ++ dst
        else none
      | _ => none
    else if IsLow (unitOf d₁ d₂ d₃ d₄) then none
    else (decodeItems quoteChar items).map fun dst => utf8Encode (unitOf d₁ d₂ d₃ d₄) ++ dst

set_option maxRecDepth 5000 in
theorem hexValue_of_mem {d : UInt8} (h : d ∈ hexLetters) : ∃ n, hexValue d = some n ∧ n < 16 := by
  have hall : ∀ d ∈ hexLetters, ((hexValue d).any fun n => decide (n < 16)) = true := by
    decide
  obtain ⟨n, hn, hlt⟩ := (Option.any_eq_true _ _).mp (hall d h)
  exact ⟨n, hn, of_decide_eq_true hlt⟩

theorem parseHex4_of_mem {d₁ d₂ d₃ d₄ : UInt8} (h₁ : d₁ ∈ hexLetters) (h₂ : d₂ ∈ hexLetters)
    (h₃ : d₃ ∈ hexLetters) (h₄ : d₄ ∈ hexLetters) :
    parseHex4 d₁ d₂ d₃ d₄ = some (unitOf d₁ d₂ d₃ d₄) := by
  obtain ⟨n₁, hn₁, _⟩ := hexValue_of_mem h₁
  obtain ⟨n₂, hn₂, _⟩ := hexValue_of_mem h₂
  obtain ⟨n₃, hn₃, _⟩ := hexValue_of_mem h₃
  obtain ⟨n₄, hn₄, _⟩ := hexValue_of_mem h₄
  unfold unitOf parseHex4
  rw [hn₁, hn₂, hn₃, hn₄]
  rfl

/-! ### Steps of the loop -/

section

variable (quoteChar : UInt8) (isQuoted : Bool)

theorem unquoteLoop_plain {c : UInt8} (hc : c ≠ 92) (src : List UInt8) :
    unquoteLoop quoteChar isQuoted (c :: src) =
      (unquoteLoop quoteChar isQuoted src).map fun dst => c :: dst := by
  rw [unquoteLoop.eq_def]
  dsimp only
  rw [if_pos hc]

theorem unquoteLoop_simple {e v : UInt8} (he : simpleEscape e = some v) (src : List UInt8) :
    unquoteLoop quoteChar isQuoted (92 :: e :: src) =
      (unquoteLoop quoteChar isQuoted src).map fun dst => v :: dst := by
  rw [unquoteLoop.eq_def]
  dsimp only
  rw [if_neg (by simp)]
  rw [he]

/-- The default of the `switch`. -/
theorem unquoteLoop_default {e : UInt8} (he : simpleEscape e = none) (hu : e ≠ 117)
    (src : List UInt8) :
    unquoteLoop quoteChar isQuoted (92 :: e :: src) =
      if isQuoted then (unquoteLoop quoteChar isQuoted src).map fun dst => quoteChar :: dst
      else none := by
  rw [unquoteLoop.eq_def]
  dsimp only
  rw [if_neg (by simp)]
  rw [he]
  dsimp only
  rw [if_neg hu]

/-- A code unit that is no surrogate, a pair of surrogates, and a surrogate that is alone. -/
theorem unquoteLoop_unicode {d₁ d₂ d₃ d₄ : UInt8} {unit : ℕ}
    (hunit : parseHex4 d₁ d₂ d₃ d₄ = some unit) (hhigh : ¬IsHigh unit) (src : List UInt8) :
    unquoteLoop quoteChar isQuoted (92 :: 117 :: d₁ :: d₂ :: d₃ :: d₄ :: src) =
      if IsLow unit then none
      else (unquoteLoop quoteChar isQuoted src).map fun dst => utf8Encode unit ++ dst := by
  have hsimple : simpleEscape 117 = none := rfl
  rw [unquoteLoop.eq_def]
  dsimp only
  rw [if_neg (by simp)]
  rw [hsimple]
  dsimp only
  rw [if_pos rfl, hunit]
  dsimp only
  rw [if_neg hhigh]

theorem unquoteLoop_pair {d₁ d₂ d₃ d₄ g₁ g₂ g₃ g₄ : UInt8} {unit unit' : ℕ}
    (hunit : parseHex4 d₁ d₂ d₃ d₄ = some unit) (hhigh : IsHigh unit)
    (hunit' : parseHex4 g₁ g₂ g₃ g₄ = some unit') (src : List UInt8) :
    unquoteLoop quoteChar isQuoted
        (92 :: 117 :: d₁ :: d₂ :: d₃ :: d₄ :: 92 :: 117 :: g₁ :: g₂ :: g₃ :: g₄ :: src) =
      if IsLow unit' then (unquoteLoop quoteChar isQuoted src).map fun dst =>
        utf8Encode (combineUnits unit unit') ++ dst
      else none := by
  have hsimple : simpleEscape 117 = none := rfl
  rw [unquoteLoop.eq_def]
  dsimp only
  rw [if_neg (by simp)]
  rw [hsimple]
  dsimp only
  rw [if_pos rfl, hunit]
  dsimp only
  rw [if_pos hhigh, if_pos ⟨rfl, rfl⟩, hunit']

theorem unquoteLoop_alone {d₁ d₂ d₃ d₄ : UInt8} {unit : ℕ}
    (hunit : parseHex4 d₁ d₂ d₃ d₄ = some unit) (hhigh : IsHigh unit) {src : List UInt8}
    (hsrc : ∀ rest, src ≠ 92 :: 117 :: rest) :
    unquoteLoop quoteChar isQuoted (92 :: 117 :: d₁ :: d₂ :: d₃ :: d₄ :: src) = none := by
  have hsimple : simpleEscape 117 = none := rfl
  rw [unquoteLoop.eq_def]
  dsimp only
  rw [if_neg (by simp)]
  rw [hsimple]
  dsimp only
  rw [if_pos rfl, hunit]
  dsimp only
  rw [if_pos hhigh]
  split
  · rename_i b u g₁ g₂ g₃ g₄ src
    have hne : ¬(b = 92 ∧ u = 117) := by
      rintro ⟨rfl, rfl⟩
      exact hsrc _ rfl
    rw [if_neg hne]
  · rfl

end

/-! ### Literals -/

variable {quote : UInt8}

/-- The items behind one that is no code unit do not begin like one. -/
theorem flatMap_bytes_ne (hquote : quote ∈ quotes) {items : List Item}
    (hitems : ∀ i ∈ items, i.Valid quote)
    (hhead : ∀ d₁ d₂ d₃ d₄ rest, items ≠ .unicode d₁ d₂ d₃ d₄ :: rest) (rest : List UInt8) :
    items.flatMap Item.bytes ≠ 92 :: 117 :: rest := by
  intro heq
  cases items with
  | nil => cases heq
  | cons i items =>
    have hi := hitems i List.mem_cons_self
    cases i with
    | plain c =>
      obtain ⟨rfl, _⟩ := List.cons.inj heq
      exact hi List.mem_cons_self
    | escaped c =>
      obtain ⟨_, heq⟩ := List.cons.inj heq
      obtain ⟨rfl, _⟩ := List.cons.inj heq
      exact ne_of_mem_escapes hquote hi rfl
    | unicode d₁ d₂ d₃ d₄ => exact hhead d₁ d₂ d₃ d₄ items rfl

/-- The loop on the items of a literal. -/
theorem unquoteLoop_items (hquote : quote ∈ quotes) (items : List Item)
    (hitems : ∀ i ∈ items, i.Valid quote) :
    unquoteLoop quote true (items.flatMap Item.bytes) = decodeItems quote items := by
  induction items using decodeItems.induct with
  | case1 => rfl
  | case2 c items ih =>
    obtain ⟨hc, hitems⟩ := List.forall_mem_cons.mp hitems
    have hne : c ≠ 92 := by
      rintro rfl
      exact hc List.mem_cons_self
    rw [decodeItems, ← ih hitems]
    exact unquoteLoop_plain quote true hne _
  | case3 c items ih =>
    obtain ⟨hc, hitems⟩ := List.forall_mem_cons.mp hitems
    rw [decodeItems, ← ih hitems]
    unfold escapedValue
    cases hsimple : simpleEscape c with
    | some v => exact unquoteLoop_simple quote true hsimple _
    | none => exact unquoteLoop_default quote true hsimple (ne_of_mem_escapes hquote hc) _
  | case4 d₁ d₂ d₃ d₄ hhigh g₁ g₂ g₃ g₄ items hlow ih =>
    obtain ⟨⟨h₁, h₂, h₃, h₄⟩, hitems⟩ := List.forall_mem_cons.mp hitems
    obtain ⟨⟨k₁, k₂, k₃, k₄⟩, hitems⟩ := List.forall_mem_cons.mp hitems
    rw [decodeItems, if_pos hhigh, if_pos hlow, ← ih hitems]
    have hpair := unquoteLoop_pair quote true (parseHex4_of_mem h₁ h₂ h₃ h₄) hhigh
      (parseHex4_of_mem k₁ k₂ k₃ k₄) (items.flatMap Item.bytes)
    rw [if_pos hlow] at hpair
    exact hpair
  | case5 d₁ d₂ d₃ d₄ hhigh g₁ g₂ g₃ g₄ items hlow =>
    obtain ⟨⟨h₁, h₂, h₃, h₄⟩, hitems⟩ := List.forall_mem_cons.mp hitems
    obtain ⟨⟨k₁, k₂, k₃, k₄⟩, hitems⟩ := List.forall_mem_cons.mp hitems
    rw [decodeItems, if_pos hhigh, if_neg hlow]
    have hpair := unquoteLoop_pair quote true (parseHex4_of_mem h₁ h₂ h₃ h₄) hhigh
      (parseHex4_of_mem k₁ k₂ k₃ k₄) (items.flatMap Item.bytes)
    rw [if_neg hlow] at hpair
    exact hpair
  | case6 d₁ d₂ d₃ d₄ items hhigh hnext =>
    obtain ⟨⟨h₁, h₂, h₃, h₄⟩, hitems⟩ := List.forall_mem_cons.mp hitems
    have hnone : decodeItems quote (.unicode d₁ d₂ d₃ d₄ :: items) = none := by
      rw [decodeItems.eq_def]
      dsimp only
      rw [if_pos hhigh]
      split
      · exact (hnext _ _ _ _ _ rfl).elim
      · rfl
    rw [hnone]
    refine unquoteLoop_alone quote true (parseHex4_of_mem h₁ h₂ h₃ h₄) hhigh ?_
    exact flatMap_bytes_ne hquote hitems hnext
  | case7 d₁ d₂ d₃ d₄ items hhigh hlow =>
    obtain ⟨⟨h₁, h₂, h₃, h₄⟩, hitems⟩ := List.forall_mem_cons.mp hitems
    rw [decodeItems.eq_def]
    dsimp only
    rw [if_neg hhigh, if_pos hlow]
    have hunit := unquoteLoop_unicode quote true (parseHex4_of_mem h₁ h₂ h₃ h₄) hhigh
      (items.flatMap Item.bytes)
    rw [if_pos hlow] at hunit
    exact hunit
  | case8 d₁ d₂ d₃ d₄ items hhigh hlow ih =>
    obtain ⟨⟨h₁, h₂, h₃, h₄⟩, hitems⟩ := List.forall_mem_cons.mp hitems
    rw [decodeItems.eq_def]
    dsimp only
    rw [if_neg hhigh, if_neg hlow, ← ih hitems]
    have hunit := unquoteLoop_unicode quote true (parseHex4_of_mem h₁ h₂ h₃ h₄) hhigh
      (items.flatMap Item.bytes)
    rw [if_neg hlow] at hunit
    exact hunit

/-- The digits of a code unit are neither quotes nor backslashes. -/
theorem ne_of_mem_hexLetters (hquote : quote ∈ quotes) {d : UInt8} (hd : d ∈ hexLetters) :
    d ≠ quote ∧ d ≠ 92 := by
  have hall : ∀ q ∈ quotes, ∀ d ∈ hexLetters, d ≠ q ∧ d ≠ 92 := by simp [quotes, hexLetters]
  exact hall quote hquote d hd

theorem beforeQuote_of_ne {c : UInt8} (hc : c ≠ quote) (hc' : c ≠ 92) (p : List UInt8) :
    beforeQuote quote (c :: p) = (beforeQuote quote p).map fun body => c :: body := by
  rw [beforeQuote.eq_def]
  dsimp only
  rw [if_neg hc, if_neg hc']

theorem beforeQuote_escape (hquote : quote ∈ quotes) (d : UInt8) (p : List UInt8) :
    beforeQuote quote (92 :: d :: p) = (beforeQuote quote p).map fun body => 92 :: d :: body := by
  have hne := backslash_ne hquote
  rw [beforeQuote.eq_def]
  dsimp only
  rw [if_neg hne, if_pos rfl]

/-- The closing quote is the one behind the items. -/
theorem beforeQuote_items (hquote : quote ∈ quotes) {items : List Item}
    (hitems : ∀ i ∈ items, i.Valid quote) (rest : List UInt8) :
    beforeQuote quote (items.flatMap Item.bytes ++ quote :: rest) =
      some (items.flatMap Item.bytes) := by
  induction items with
  | nil =>
    show beforeQuote quote (quote :: rest) = some []
    rw [beforeQuote.eq_def]
    exact if_pos rfl
  | cons i items ih =>
    obtain ⟨hi, htail⟩ := List.forall_mem_cons.mp hitems
    rw [List.flatMap_cons, List.append_assoc]
    cases i with
    | plain c =>
      have hne : c ≠ 92 ∧ c ≠ quote := by
        constructor
        · rintro rfl
          exact hi List.mem_cons_self
        · rintro rfl
          exact hi (List.mem_cons_of_mem _ List.mem_cons_self)
      exact (beforeQuote_of_ne hne.2 hne.1 _).trans (congrArg (Option.map _) (ih htail))
    | escaped c =>
      exact (beforeQuote_escape hquote c _).trans (congrArg (Option.map _) (ih htail))
    | unicode d₁ d₂ d₃ d₄ =>
      obtain ⟨h₁, h₂, h₃, h₄⟩ := hi
      have hdigit : ∀ {d} (p : List UInt8), d ∈ hexLetters →
          beforeQuote quote (d :: p) = (beforeQuote quote p).map fun body => d :: body :=
        fun p hd => beforeQuote_of_ne (ne_of_mem_hexLetters hquote hd).1
          (ne_of_mem_hexLetters hquote hd).2 p
      refine (beforeQuote_escape hquote 117 _).trans ?_
      show (beforeQuote quote (d₁ :: d₂ :: d₃ :: d₄ :: _)).map _ = _
      rw [hdigit _ h₁, hdigit _ h₂, hdigit _ h₃, hdigit _ h₄]
      show (((((beforeQuote quote (items.flatMap Item.bytes ++ quote :: rest)).map _).map _).map
        _).map _).map _ = _
      rw [ih htail]
      rfl

theorem takeWhile_ne_zero {text : List UInt8} (h : (0 : UInt8) ∉ text) :
    text.takeWhile (· ≠ 0) = text := by
  refine List.takeWhile_eq_self_iff.mpr fun c hc => ?_
  have hne : c ≠ 0 := by
    rintro rfl
    exact h hc
  simpa using hne

/-- `unquote` of a literal that the lexer lets through. -/
theorem unquote_literal (hquote : quote ∈ quotes) {items : List Item}
    (hitems : ∀ i ∈ items, i.Valid quote) (hnull : (0 : UInt8) ∉ literalText quote items) :
    unquote (literalText quote items) quote true = decodeItems quote items := by
  unfold unquote
  rw [takeWhile_ne_zero hnull, if_pos rfl]
  show (if quote ≠ quote then none else
    (beforeQuote quote (items.flatMap Item.bytes ++ quote :: [])).bind (unquoteLoop quote true)) = _
  rw [if_neg (by simp), beforeQuote_items hquote hitems, Option.bind_some,
    unquoteLoop_items hquote items hitems]

end Chloride
