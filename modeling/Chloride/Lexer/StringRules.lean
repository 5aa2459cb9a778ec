import Chloride.Lexer.Munch

/-!
# The rules for strings

The rules of `src/lexer/lex.l` for string literals and for the text of templates, and what they match.
A literal is a sequence of items between two quotes (`mem_stringRule`): characters that stand for
themselves, escapes of one character and escapes of a UTF-16 code unit. The text of a template is cut
into tokens by rules of its own, which know almost the same escapes. The content of the lexer is a C
string, so there are no null bytes in it.
-/

namespace Chloride

open RegularExpression Munch

/-! ## The rules -/

/-- All letters of the lexer. -/
def allBytes : List UInt8 := (List.range 256).map UInt8.ofNat

/-- `[^..]`. -/
def noneOf (letters : List UInt8) : RegularExpression UInt8 :=
  anyOf (allBytes.filter fun c => c ∉ letters)

/-- `[0-9a-fA-F]`. -/
def hexLetters : List UInt8 :=
  [48, 49, 50, 51, 52, 53, 54, 55, 56, 57, 97, 98, 99, 100, 101, 102, 65, 66, 67, 68, 69, 70]

/-- `\\/bfnrt`, the letters that can be escaped everywhere. -/
def commonEscapes : List UInt8 := [92, 47, 98, 102, 110, 114, 116]

/-- `u[0-9a-fA-F]{4}`. -/
def unicodeEscape : RegularExpression UInt8 := char 117 * anyOf hexLetters ^ 4

/-- `q((\\([q\\\/bfnrt]|u[0-9a-fA-F]{4}))|[^\\q\n])*q`, for the two quotes. -/
def stringRule (quote : UInt8) : RegularExpression UInt8 :=
  char quote *
    ((char 92 * (anyOf (quote :: commonEscapes) + unicodeEscape) + noneOf [92, quote, 10]).star *
      char quote)

/-- The quotes of literals: `"` and `'`. -/
def quotes : List UInt8 := [34, 39]

/-- ESCAPE: `\\([\"\\\/bfnrt``]|u[0-9a-fA-F]{4})` with one back quote. -/
def escapeRule : RegularExpression UInt8 :=
  char 92 * (anyOf (34 :: 96 :: commonEscapes) + unicodeEscape)

/-- The tokens of a template outside of its expressions. -/
inductive TemplateToken where
  | exprStart
  | end_
  | text
  deriving DecidableEq

/-- The rules of the state TEMPLATE, in their order. -/
def templateRules : List (RegularExpression UInt8 × TemplateToken) :=
  [(char 36 * char 40, .exprStart),
    (char 96, .end_),
    (escapeRule, .text),
    (oneOrMore (noneOf [92, 36, 96]), .text),
    (noneOf [10] + char 10, .text)]

/-- The text of a template up to its end or to an expression: the input, its tokens, and what is behind
them. -/
inductive Cut : List UInt8 → List (List UInt8) → List UInt8 → Prop where
  | stop {input token rest : List UInt8} {kind : TemplateToken} : kind ≠ .text →
    Next templateRules input kind token rest → Cut input [] input
  | text {input token rest behind : List UInt8} {pieces : List (List UInt8)} :
    Next templateRules input .text token rest → Cut rest pieces behind →
    Cut input (token :: pieces) behind

/-! ## What a literal consists of -/

/-- A part of a string literal between its quotes. -/
inductive Item where
  | plain (c : UInt8)
  | escaped (c : UInt8)
  | unicode (d₁ d₂ d₃ d₄ : UInt8)
  deriving DecidableEq

/-- How an item is written. -/
def Item.bytes : Item → List UInt8
  | plain c => [c]
  | escaped c => [92, c]
  | unicode d₁ d₂ d₃ d₄ => [92, 117, d₁, d₂, d₃, d₄]

/-- The escapes that are written with one of these letters, or as a code unit. -/
def Item.IsEscape (letters : List UInt8) : Item → Prop
  | plain _ => False
  | escaped c => c ∈ letters
  | unicode d₁ d₂ d₃ d₄ => d₁ ∈ hexLetters ∧ d₂ ∈ hexLetters ∧ d₃ ∈ hexLetters ∧ d₄ ∈ hexLetters

/-- The items of literals with a quote. -/
def Item.Valid (quote : UInt8) : Item → Prop
  | plain c => c ∉ [92, quote, 10]
  | i => i.IsEscape (quote :: commonEscapes)

/-- The items between two quotes. -/
def literalText (quote : UInt8) (items : List Item) : List UInt8 :=
  quote :: (items.flatMap Item.bytes ++ [quote])

theorem mem_allBytes (c : UInt8) : c ∈ allBytes :=
  List.mem_map.mpr ⟨c.toNat, List.mem_range.mpr c.toNat_lt, UInt8.ofNat_toNat⟩

theorem mem_noneOf {letters : List UInt8} {w : List UInt8} :
    w ∈ (noneOf letters).matches' ↔ ∃ c, c ∉ letters ∧ w = [c] := by
  unfold noneOf
  rw [mem_anyOf]
  simp [mem_allBytes]

theorem mem_unicodeEscape {w : List UInt8} : w ∈ unicodeEscape.matches' ↔
    ∃ d₁ ∈ hexLetters, ∃ d₂ ∈ hexLetters, ∃ d₃ ∈ hexLetters, ∃ d₄ ∈ hexLetters,
      w = [117, d₁, d₂, d₃, d₄] := by
  unfold unicodeEscape
  rw [mem_char_mul]
  constructor
  · rintro ⟨v, hv, rfl⟩
    obtain ⟨hlength, hall⟩ := mem_pow_anyOf.mp hv
    match v, hlength, hall with
    | [d₁, d₂, d₃, d₄], _, hall =>
      simp only [List.forall_mem_cons] at hall
      obtain ⟨h₁, h₂, h₃, h₄, _⟩ := hall
      exact ⟨d₁, h₁, d₂, h₂, d₃, h₃, d₄, h₄, rfl⟩
  · rintro ⟨d₁, h₁, d₂, h₂, d₃, h₃, d₄, h₄, rfl⟩
    refine ⟨[d₁, d₂, d₃, d₄], mem_pow_anyOf.mpr ⟨rfl, ?_⟩, rfl⟩
    simp only [List.forall_mem_cons]
    exact ⟨h₁, h₂, h₃, h₄, fun a ha => (List.not_mem_nil ha).elim⟩

theorem mem_escape {letters : List UInt8} {w : List UInt8} :
    w ∈ (char 92 * (anyOf letters + unicodeEscape)).matches' ↔
      ∃ i : Item, i.IsEscape letters ∧ w = i.bytes := by
  rw [mem_char_mul]
  constructor
  · rintro ⟨v, hv, rfl⟩
    rcases mem_add.mp hv with hv | hv
    · obtain ⟨c, hc, rfl⟩ := mem_anyOf.mp hv
      exact ⟨.escaped c, hc, rfl⟩
    · obtain ⟨d₁, h₁, d₂, h₂, d₃, h₃, d₄, h₄, rfl⟩ := mem_unicodeEscape.mp hv
      exact ⟨.unicode d₁ d₂ d₃ d₄, ⟨h₁, h₂, h₃, h₄⟩, rfl⟩
  · rintro ⟨i, hi, rfl⟩
    cases i with
    | plain c => exact hi.elim
    | escaped c => exact ⟨[c], mem_add.mpr (Or.inl (mem_anyOf.mpr ⟨c, hi, rfl⟩)), rfl⟩
    | unicode d₁ d₂ d₃ d₄ =>
      obtain ⟨h₁, h₂, h₃, h₄⟩ := hi
      exact ⟨_, mem_add.mpr (Or.inr
        (mem_unicodeEscape.mpr ⟨d₁, h₁, d₂, h₂, d₃, h₃, d₄, h₄, rfl⟩)), rfl⟩

/-- The rule for literals. -/
theorem mem_stringRule {quote : UInt8} {w : List UInt8} : w ∈ (stringRule quote).matches' ↔
    ∃ items : List Item, (∀ i ∈ items, i.Valid quote) ∧ w = literalText quote items := by
  -- What the rule repeats is an item.
  have hitem : ∀ v, v ∈ (char 92 * (anyOf (quote :: commonEscapes) + unicodeEscape) +
      noneOf [92, quote, 10]).matches' ↔ ∃ i : Item, i.Valid quote ∧ v = i.bytes := by
    intro v
    rw [mem_add, mem_escape, mem_noneOf]
    constructor
    · rintro (⟨i, hi, rfl⟩ | ⟨c, hc, rfl⟩)
      · cases i with
        | plain c => exact hi.elim
        | escaped c => exact ⟨.escaped c, hi, rfl⟩
        | unicode d₁ d₂ d₃ d₄ => exact ⟨.unicode d₁ d₂ d₃ d₄, hi, rfl⟩
      · exact ⟨.plain c, hc, rfl⟩
    · rintro ⟨i, hi, rfl⟩
      cases i with
      | plain c => exact Or.inr ⟨c, hi, rfl⟩
      | escaped c => exact Or.inl ⟨.escaped c, hi, rfl⟩
      | unicode d₁ d₂ d₃ d₄ => exact Or.inl ⟨.unicode d₁ d₂ d₃ d₄, hi, rfl⟩
  unfold stringRule literalText
  rw [mem_char_mul]
  constructor
  · rintro ⟨v, hv, rfl⟩
    obtain ⟨u, hu, q, hq, rfl⟩ := mem_mul.mp hv
    obtain rfl := mem_char.mp hq
    obtain ⟨ws, rfl, hws⟩ := mem_star.mp hu
    clear hv hu
    induction ws with
    | nil => exact ⟨[], fun i hi => (List.not_mem_nil hi).elim, rfl⟩
    | cons v ws ih =>
      obtain ⟨i, hi, rfl⟩ := (hitem v).mp (hws v List.mem_cons_self)
      obtain ⟨items, hitems, heq⟩ := ih fun v hv => hws v (List.mem_cons_of_mem _ hv)
      have hflatten : ws.flatten = items.flatMap Item.bytes := by
        simpa using heq
      refine ⟨i :: items, List.forall_mem_cons.mpr ⟨hi, hitems⟩, ?_⟩
      rw [List.flatten_cons, List.flatMap_cons, hflatten]
  · rintro ⟨items, hitems, rfl⟩
    refine ⟨_, mem_mul.mpr ⟨_, mem_star.mpr ⟨items.map Item.bytes, List.flatMap_def, ?_⟩, [quote],
      rfl, rfl⟩, rfl⟩
    intro v hv
    obtain ⟨i, hi, rfl⟩ := List.mem_map.mp hv
    exact (hitem _).mpr ⟨i, hitems i hi, rfl⟩

/-! ## The items of a text -/

variable {quote : UInt8}

/-- The letters that are escaped in a literal do not begin a code unit. -/
theorem ne_of_mem_escapes (hquote : quote ∈ quotes) {c : UInt8} (hc : c ∈ quote :: commonEscapes) :
    c ≠ 117 := by
  rintro rfl
  have hnot : ∀ q ∈ quotes, (117 : UInt8) ∉ q :: commonEscapes := by simp [quotes, commonEscapes]
  exact hnot quote hquote hc

theorem backslash_ne (hquote : quote ∈ quotes) : (92 : UInt8) ≠ quote := by
  have hall : ∀ q ∈ quotes, (92 : UInt8) ≠ q := by simp [quotes]
  exact hall quote hquote

/-- A text is the text of only one list of items, and the quote behind it ends it. -/
theorem items_inj (hquote : quote ∈ quotes) {items items' : List Item}
    (hitems : ∀ i ∈ items, i.Valid quote) (hitems' : ∀ i ∈ items', i.Valid quote)
    {rest rest' : List UInt8}
    (heq : items.flatMap Item.bytes ++ quote :: rest = items'.flatMap Item.bytes ++ quote :: rest') :
    items = items' ∧ rest = rest' := by
  have hne := backslash_ne hquote
  -- No item begins with the quote.
  have hfirst : ∀ {i : Item} {tail tail' : List UInt8}, i.Valid quote →
      i.bytes ++ tail ≠ quote :: tail' := by
    intro i tail tail' hi heq
    cases i with
    | plain c =>
      obtain ⟨rfl, _⟩ := List.cons.inj heq
      exact hi (List.mem_cons_of_mem _ List.mem_cons_self)
    | escaped c | unicode d₁ d₂ d₃ d₄ => exact hne (List.cons.inj heq).1
  -- An item is known by its first two bytes.
  have hitem : ∀ {i j : Item} {tail tail' : List UInt8}, i.Valid quote → j.Valid quote →
      i.bytes ++ tail = j.bytes ++ tail' → i = j ∧ tail = tail' := by
    intro i j tail tail' hi hj heq
    cases i with
    | plain c =>
      cases j with
      | plain d =>
        obtain ⟨rfl, rfl⟩ := List.cons.inj heq
        exact ⟨rfl, rfl⟩
      | escaped d | unicode e₁ e₂ e₃ e₄ =>
        obtain ⟨rfl, _⟩ := List.cons.inj heq
        exact (hi List.mem_cons_self).elim
    | escaped c =>
      cases j with
      | plain d =>
        obtain ⟨hd, _⟩ := List.cons.inj heq
        exact (hj (hd ▸ List.mem_cons_self)).elim
      | escaped d =>
        obtain ⟨_, heq⟩ := List.cons.inj heq
        obtain ⟨rfl, rfl⟩ := List.cons.inj heq
        exact ⟨rfl, rfl⟩
      | unicode e₁ e₂ e₃ e₄ =>
        obtain ⟨_, heq⟩ := List.cons.inj heq
        exact (ne_of_mem_escapes hquote hi (List.cons.inj heq).1).elim
    | unicode d₁ d₂ d₃ d₄ =>
      cases j with
      | plain d =>
        obtain ⟨hd, _⟩ := List.cons.inj heq
        exact (hj (hd ▸ List.mem_cons_self)).elim
      | escaped d =>
        obtain ⟨_, heq⟩ := List.cons.inj heq
        exact (ne_of_mem_escapes hquote hj (List.cons.inj heq).1.symm).elim
      | unicode e₁ e₂ e₃ e₄ =>
        obtain ⟨heq, rfl⟩ := List.append_inj heq rfl
        cases heq
        exact ⟨rfl, rfl⟩
  induction items generalizing items' with
  | nil =>
    cases items' with
    | nil => exact ⟨rfl, (List.cons.inj heq).2⟩
    | cons j items' =>
      rw [List.flatMap_cons, List.append_assoc] at heq
      exact (hfirst (hitems' j List.mem_cons_self) heq.symm).elim
  | cons i items ih =>
    cases items' with
    | nil =>
      rw [List.flatMap_cons, List.append_assoc] at heq
      exact (hfirst (hitems i List.mem_cons_self) heq).elim
    | cons j items' =>
      rw [List.flatMap_cons, List.append_assoc, List.flatMap_cons, List.append_assoc] at heq
      obtain ⟨hi, htail⟩ := List.forall_mem_cons.mp hitems
      obtain ⟨hj, htail'⟩ := List.forall_mem_cons.mp hitems'
      obtain ⟨hij, heq⟩ := hitem hi hj heq
      obtain ⟨hrest, hbehind⟩ := ih htail htail' heq
      exact ⟨by rw [hij, hrest], hbehind⟩

end Chloride
