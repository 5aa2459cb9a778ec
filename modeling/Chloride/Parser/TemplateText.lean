import Chloride.Parser.Unquote

/-!
# The text of templates

`parse_template` of `src/parser/string/string.c` decodes the text of a template token by token, as the
lexer has cut it, and joins what comes out. A literal is decoded as a whole. The two agree exactly when
no token of the text needs its neighbour (`StringSource.faithful_iff`): a surrogate pair is two tokens,
and the escapes of quotes are no escapes to `unquote` without quotes.
-/

namespace Chloride

open RegularExpression Munch

/-! ## The functions of the source -/

/-- A part of a template between its ends: a token of text, or an expression that is parsed. -/
inductive TemplatePart (α : Type*) where
  | text (token : List UInt8)
  | expr (value : α)

/-- `TemplateValue`. -/
inductive TemplateValue (α : Type*) where
  | string (string : List UInt8)
  | value (value : α)

section

variable {α : Type*}

/-- What `parse_template` does with an unquoted text: it joins the value before it if that is a string,
and is a new value otherwise. -/
def pushText (template : List (TemplateValue α)) (unquoted : List UInt8) : List (TemplateValue α) :=
  match template.getLast? with
  | some (.string string) => template.dropLast ++ [.string (string ++ unquoted)]
  | _ => template ++ [.string unquoted]

/-- The loop of `parse_template` up to the end of the template. -/
def parseTemplate (template : List (TemplateValue α)) :
    List (TemplatePart α) → Except String (List (TemplateValue α))
  | [] => .ok template
  | .text token :: parts =>
    match unquote token 96 false with
    | none => .error "failed to unquote"
    | some unquoted => parseTemplate (pushText template unquoted) parts
  | .expr value :: parts => parseTemplate (template ++ [.value value]) parts

/-- The strings of a template, one after the other. -/
def templateStrings (template : List (TemplateValue α)) : List UInt8 :=
  template.flatMap fun value => match value with
    | .string string => string
    | .value _ => []

/-- The tokens of a text, each decoded by itself. -/
def decodePieces : List (List UInt8) → Option (List UInt8)
  | [] => some []
  | token :: pieces => (unquote token 96 false).bind fun unquoted =>
    (decodePieces pieces).map fun text => unquoted ++ text

theorem templateStrings_append (template template' : List (TemplateValue α)) :
    templateStrings (template ++ template') = templateStrings template ++ templateStrings template' :=
  List.flatMap_append

theorem templateStrings_pushText (template : List (TemplateValue α)) (unquoted : List UInt8) :
    templateStrings (pushText template unquoted) = templateStrings template ++ unquoted := by
  unfold pushText
  split
  · rename_i string hlast
    have hsplit : template = template.dropLast ++ [.string string] :=
      (List.dropLast_append_getLast? _ hlast).symm
    have hstrings : templateStrings template = templateStrings template.dropLast ++ string := by
      conv_lhs => rw [hsplit]
      rw [templateStrings_append]
      simp [templateStrings]
    rw [templateStrings_append, hstrings]
    simp [templateStrings]
  · rw [templateStrings_append]
    simp [templateStrings]

/-- The loop joins what the tokens are decoded to. -/
theorem parseTemplate_text (pieces : List (List UInt8)) (template : List (TemplateValue α)) :
    (parseTemplate template (pieces.map .text)).toOption.map templateStrings =
      (decodePieces pieces).map fun text => templateStrings template ++ text := by
  induction pieces generalizing template with
  | nil =>
    show some (templateStrings template) = some (templateStrings template ++ [])
    rw [List.append_nil]
  | cons token pieces ih =>
    rw [List.map_cons]
    unfold parseTemplate decodePieces
    cases unquote token 96 false with
    | none => rfl
    | some unquoted =>
      show (parseTemplate (pushText template unquoted) (pieces.map .text)).toOption.map
        templateStrings = _
      rw [ih, Option.bind_some, Option.map_map, templateStrings_pushText]
      congr 1
      funext text
      exact List.append_assoc _ _ _

end

/-- What tokens of text denote that follow each other in a template. -/
def templateText (pieces : List (List UInt8)) : Option (List UInt8) :=
  (parseTemplate ([] : List (TemplateValue Empty)) (pieces.map .text)).toOption.map templateStrings

theorem templateText_eq (pieces : List (List UInt8)) : templateText pieces = decodePieces pieces := by
  unfold templateText
  rw [parseTemplate_text]
  exact Option.map_id' 

/-! ## Surrogates -/

/-- The escapes of first halves of surrogate pairs. -/
def Item.High : Item → Prop
  | unicode d₁ d₂ d₃ d₄ => IsHigh (unitOf d₁ d₂ d₃ d₄)
  | _ => False

/-- The escapes of second halves of surrogate pairs. -/
def Item.Low : Item → Prop
  | unicode d₁ d₂ d₃ d₄ => IsLow (unitOf d₁ d₂ d₃ d₄)
  | _ => False

/-- There is a first half at a place. -/
def HighAt (items : List Item) (k : ℕ) : Prop := ∃ i ∈ items[k]?, i.High

/-- There is a second half at a place. -/
def LowAt (items : List Item) (k : ℕ) : Prop := ∃ i ∈ items[k]?, i.Low

/-- The first halves are those that a second half follows, and no second half is first. -/
def Paired (items : List Item) : Prop :=
  ¬LowAt items 0 ∧ ∀ k, HighAt items k ↔ LowAt items (k + 1)

theorem Item.High.not_low {i : Item} (h : i.High) : ¬i.Low := by
  intro hlow
  cases i with
  | plain c | escaped c => exact h
  | unicode d₁ d₂ d₃ d₄ =>
    have hle : unitOf d₁ d₂ d₃ d₄ ≤ 0xDBFF := h.2
    have hge : 0xDC00 ≤ unitOf d₁ d₂ d₃ d₄ := hlow.1
    omega

theorem highAt_cons_zero (i : Item) (items : List Item) : HighAt (i :: items) 0 ↔ i.High := by
  simp [HighAt]

theorem lowAt_cons_zero (i : Item) (items : List Item) : LowAt (i :: items) 0 ↔ i.Low := by
  simp [LowAt]

theorem lowAt_cons_succ (i : Item) (items : List Item) (k : ℕ) :
    LowAt (i :: items) (k + 1) ↔ LowAt items k := Iff.rfl

/-- Pairs behind a first item. -/
theorem follows_cons (i : Item) (items : List Item) :
    (∀ k, HighAt (i :: items) k ↔ LowAt (i :: items) (k + 1)) ↔
      (i.High ↔ LowAt items 0) ∧ ∀ k, HighAt items k ↔ LowAt items (k + 1) := by
  constructor
  · intro h
    refine ⟨?_, fun k => h (k + 1)⟩
    have hzero := h 0
    rwa [highAt_cons_zero, lowAt_cons_succ] at hzero
  · rintro ⟨hzero, h⟩ k
    match k with
    | 0 => rwa [highAt_cons_zero, lowAt_cons_succ]
    | k + 1 => exact h k

theorem paired_cons (i : Item) (items : List Item) : Paired (i :: items) ↔
    ¬i.Low ∧ (i.High ↔ LowAt items 0) ∧ ∀ k, HighAt items k ↔ LowAt items (k + 1) := by
  unfold Paired
  rw [lowAt_cons_zero, follows_cons]

theorem paired_cons_of_not {i : Item} (hhigh : ¬i.High) (hlow : ¬i.Low) (items : List Item) :
    Paired (i :: items) ↔ Paired items := by
  rw [paired_cons]
  unfold Paired
  tauto

theorem paired_pair {i j : Item} (hhigh : i.High) (hlow : j.Low) (items : List Item) :
    Paired (i :: j :: items) ↔ Paired items := by
  have hnot := hhigh.not_low
  have hnot' : ¬j.High := fun h => h.not_low hlow
  rw [paired_cons, lowAt_cons_zero, follows_cons]
  unfold Paired
  tauto

/-- A literal is decoded if its surrogates are paired. -/
theorem decodeItems_ne_none_iff (quote : UInt8) (items : List Item) :
    decodeItems quote items ≠ none ↔ Paired items := by
  have hmap : ∀ {β γ : Type} (o : Option β) (f : β → γ), o.map f ≠ none ↔ o ≠ none := by
    intro β γ o f
    exact not_congr Option.map_eq_none_iff
  induction items using decodeItems.induct with
  | case1 => simp [decodeItems, Paired, LowAt, HighAt]
  | case2 c items ih =>
    rw [decodeItems]
    exact (hmap _ _).trans (ih.trans (paired_cons_of_not id id items).symm)
  | case3 c items ih =>
    rw [decodeItems]
    exact (hmap _ _).trans (ih.trans (paired_cons_of_not id id items).symm)
  | case4 d₁ d₂ d₃ d₄ hhigh g₁ g₂ g₃ g₄ items hlow ih =>
    rw [decodeItems, if_pos hhigh, if_pos hlow]
    have hpair : Paired (.unicode d₁ d₂ d₃ d₄ :: .unicode g₁ g₂ g₃ g₄ :: items) ↔ Paired items :=
      paired_pair (i := .unicode d₁ d₂ d₃ d₄) (j := .unicode g₁ g₂ g₃ g₄) hhigh hlow items
    exact (hmap _ _).trans (ih.trans hpair.symm)
  | case5 d₁ d₂ d₃ d₄ hhigh g₁ g₂ g₃ g₄ items hlow =>
    rw [decodeItems, if_pos hhigh, if_neg hlow, paired_cons, lowAt_cons_zero]
    exact ⟨fun h => (h rfl).elim, fun h => (hlow (h.2.1.mp hhigh)).elim⟩
  | case6 d₁ d₂ d₃ d₄ items hhigh hnext =>
    have hnone : decodeItems quote (.unicode d₁ d₂ d₃ d₄ :: items) = none := by
      rw [decodeItems.eq_def]
      dsimp only
      rw [if_pos hhigh]
      split
      · exact (hnext _ _ _ _ _ rfl).elim
      · rfl
    rw [hnone, paired_cons]
    refine ⟨fun h => (h rfl).elim, fun h => ?_⟩
    obtain ⟨i, hi, hlow⟩ := h.2.1.mp hhigh
    cases items with
    | nil => cases hi
    | cons j items =>
      obtain rfl : j = i := Option.some.inj hi
      cases j with
      | plain c | escaped c => exact hlow.elim
      | unicode g₁ g₂ g₃ g₄ => exact (hnext _ _ _ _ _ rfl).elim
  | case7 d₁ d₂ d₃ d₄ items hhigh hlow =>
    have hnone : decodeItems quote (.unicode d₁ d₂ d₃ d₄ :: items) = none := by
      rw [decodeItems.eq_def]
      dsimp only
      rw [if_neg hhigh, if_pos hlow]
    rw [hnone, paired_cons]
    exact ⟨fun h => (h rfl).elim, fun h => (h.1 hlow).elim⟩
  | case8 d₁ d₂ d₃ d₄ items hhigh hlow ih =>
    rw [decodeItems.eq_def]
    dsimp only
    rw [if_neg hhigh, if_neg hlow]
    have hcons : Paired (.unicode d₁ d₂ d₃ d₄ :: items) ↔ Paired items :=
      paired_cons_of_not (i := .unicode d₁ d₂ d₃ d₄) hhigh hlow items
    exact (hmap _ _).trans (ih.trans hcons.symm)

/-! ## The tokens of a text -/

/-- The letters of ESCAPE. -/
def escapeLetters : List UInt8 := 34 :: 96 :: commonEscapes

/-- The escapes that stand for something by themselves and in every kind of string. -/
def Item.Alone : Item → Prop
  | plain _ => True
  | escaped c => c ∈ commonEscapes
  | unicode d₁ d₂ d₃ d₄ => ¬IsHigh (unitOf d₁ d₂ d₃ d₄) ∧ ¬IsLow (unitOf d₁ d₂ d₃ d₄)

theorem mem_escapeRule {w : List UInt8} :
    w ∈ escapeRule.matches' ↔ ∃ i : Item, i.IsEscape escapeLetters ∧ w = i.bytes := mem_escape

/-- `.|\n`. -/
theorem mem_anyLetter {w : List UInt8} : w ∈ (noneOf [10] + char 10).matches' ↔ ∃ c, w = [c] := by
  rw [mem_add, mem_noneOf, mem_char]
  constructor
  · rintro (⟨c, _, hc⟩ | hc)
    · exact ⟨c, hc⟩
    · exact ⟨10, hc⟩
  · rintro ⟨c, rfl⟩
    by_cases hc : c = 10
    · exact Or.inr (by rw [hc])
    · exact Or.inl ⟨c, by simpa using hc, rfl⟩

/-- An escape begins with a backslash and is longer than one letter. -/
theorem Item.IsEscape.bytes_eq {letters : List UInt8} {i : Item} (hi : i.IsEscape letters) :
    ∃ c tail, i.bytes = 92 :: c :: tail := by
  cases i with
  | plain c => exact hi.elim
  | escaped c => exact ⟨c, [], rfl⟩
  | unicode d₁ d₂ d₃ d₄ => exact ⟨117, [d₁, d₂, d₃, d₄], rfl⟩

/-- The forms of a token of text: an escape, letters that are no backslash, and a backslash where there
is no escape. -/
theorem text_forms {input token rest : List UInt8} (h : Next templateRules input .text token rest) :
    (∃ i : Item, i.IsEscape escapeLetters ∧ token = i.bytes) ∨ 92 ∉ token ∨
      token = [92] ∧ ∀ i : Item, i.IsEscape escapeLetters → ¬i.bytes <+: input := by
  obtain ⟨P, hP, htoken⟩ := h.exists_rule
  have hrule : P = escapeRule ∨ P = oneOrMore (noneOf [92, 36, 96]) ∨ P = noneOf [10] + char 10 := by
    simpa [templateRules] using hP
  rcases hrule with rfl | rfl | rfl
  · exact Or.inl (mem_escapeRule.mp htoken)
  · obtain ⟨_, hletters⟩ := mem_oneOrMore_anyOf.mp htoken
    refine Or.inr (Or.inl fun hmem => ?_)
    have hnot := (List.mem_filter.mp (hletters 92 hmem)).2
    simp at hnot
  · -- The last rule takes one letter, so it is taken for a backslash only where ESCAPE does not match.
    obtain ⟨c, rfl⟩ := mem_anyLetter.mp htoken
    by_cases hc : c = 92
    · subst hc
      refine Or.inr (Or.inr ⟨rfl, fun i hi hinitial => ?_⟩)
      have hmem : (escapeRule, TemplateToken.text) ∈ templateRules := by simp [templateRules]
      have hle := h.length_le hmem (mem_escapeRule.mpr ⟨i, hi, rfl⟩) hinitial
      obtain ⟨e, tail, hbytes⟩ := hi.bytes_eq
      rw [hbytes] at hle
      simp at hle
    · refine Or.inr (Or.inl fun hmem => hc ?_)
      exact (List.mem_singleton.mp hmem).symm

/-! ### Decoding of one token -/

theorem unquote_text {token : List UInt8} (hnull : (0 : UInt8) ∉ token) :
    unquote token 96 false = unquoteLoop 96 false token := by
  unfold unquote
  rw [takeWhile_ne_zero hnull, if_neg (by simp)]

theorem unquoteLoop_of_not_mem {token : List UInt8} (h : (92 : UInt8) ∉ token) :
    unquoteLoop 96 false token = some token := by
  induction token with
  | nil => rfl
  | cons c token ih =>
    obtain ⟨hc, htail⟩ := List.ne_and_not_mem_of_not_mem_cons h
    rw [unquoteLoop_plain 96 false (Ne.symm hc), ih htail]
    rfl

theorem simpleEscape_of_mem {c : UInt8} (hc : c ∈ commonEscapes) :
    ∃ v, simpleEscape c = some v := by
  have hall : ∀ c ∈ commonEscapes, (simpleEscape c).isSome = true := by simp [commonEscapes, simpleEscape]
  exact Option.isSome_iff_exists.mp (hall c hc)

/-- An escape that stands alone is decoded to what it is in every literal. -/
theorem unquoteLoop_of_alone {i : Item} (hi : i.IsEscape escapeLetters) (halone : i.Alone) :
    ∃ u, unquoteLoop 96 false i.bytes = some u ∧ ∀ quote items,
      decodeItems quote (i :: items) = (decodeItems quote items).map fun dst => u ++ dst := by
  cases i with
  | plain c => exact hi.elim
  | escaped c =>
    obtain ⟨v, hv⟩ := simpleEscape_of_mem halone
    refine ⟨[v], unquoteLoop_simple 96 false hv [], fun quote items => ?_⟩
    rw [decodeItems]
    unfold escapedValue
    rw [hv]
    rfl
  | unicode d₁ d₂ d₃ d₄ =>
    obtain ⟨hhigh, hlow⟩ := halone
    obtain ⟨h₁, h₂, h₃, h₄⟩ := hi
    refine ⟨utf8Encode (unitOf d₁ d₂ d₃ d₄), ?_, fun quote items => ?_⟩
    · have hunit := unquoteLoop_unicode 96 false (parseHex4_of_mem h₁ h₂ h₃ h₄) hhigh []
      rw [if_neg hlow] at hunit
      refine hunit.trans ?_
      show some (utf8Encode _ ++ []) = _
      rw [List.append_nil]
    · rw [decodeItems.eq_def]
      dsimp only
      rw [if_neg hhigh, if_neg hlow]

/-- The other escapes are not decoded by themselves. -/
theorem unquoteLoop_of_not_alone {i : Item} (hi : i.IsEscape escapeLetters) (halone : ¬i.Alone) :
    unquoteLoop 96 false i.bytes = none := by
  cases i with
  | plain c => exact (halone trivial).elim
  | escaped c =>
    have hdefault : simpleEscape c = none ∧ c ≠ 117 := by
      rcases List.mem_cons.mp hi with rfl | hi
      · decide
      · rcases List.mem_cons.mp hi with rfl | hi
        · decide
        · exact (halone hi).elim
    exact (unquoteLoop_default 96 false hdefault.1 hdefault.2 []).trans (if_neg (by simp))
  | unicode d₁ d₂ d₃ d₄ =>
    obtain ⟨h₁, h₂, h₃, h₄⟩ := hi
    by_cases hhigh : IsHigh (unitOf d₁ d₂ d₃ d₄)
    · exact unquoteLoop_alone 96 false (parseHex4_of_mem h₁ h₂ h₃ h₄) hhigh (by simp)
    · have hlow : IsLow (unitOf d₁ d₂ d₃ d₄) := by
        by_contra hlow
        exact halone ⟨hhigh, hlow⟩
      have hunit := unquoteLoop_unicode 96 false (parseHex4_of_mem h₁ h₂ h₃ h₄) hhigh []
      rw [if_pos hlow] at hunit
      exact hunit

/-! ### Items and tokens

The items of a literal against what comes first in its text. -/

variable {quote : UInt8} {items : List Item}

/-- The escapes of literals are those of ESCAPE, but for `\'`. -/
theorem Item.IsEscape.of_literal (hquote : quote ∈ quotes) {i : Item}
    (hi : i.IsEscape (quote :: commonEscapes)) : i.IsEscape escapeLetters ∨ i = .escaped 39 := by
  cases i with
  | plain c => exact hi.elim
  | escaped c =>
    have hall : ∀ q ∈ quotes, ∀ c ∈ q :: commonEscapes, c ∈ escapeLetters ∨ c = 39 := by
      simp [quotes, commonEscapes, escapeLetters]
    rcases hall quote hquote c hi with hc | rfl
    · exact Or.inl hc
    · exact Or.inr rfl
  | unicode d₁ d₂ d₃ d₄ => exact Or.inl hi

/-- A letter that is no backslash is an item. -/
theorem items_of_plain {c : UInt8} (hc : c ≠ 92) {tail : List UInt8}
    (heq : c :: tail = items.flatMap Item.bytes) :
    ∃ items', items = .plain c :: items' ∧ tail = items'.flatMap Item.bytes := by
  cases items with
  | nil => cases heq
  | cons i items =>
    cases i with
    | plain d =>
      obtain ⟨rfl, htail⟩ := List.cons.inj heq
      exact ⟨items, rfl, htail⟩
    | escaped d => exact (hc (List.cons.inj heq).1).elim
    | unicode d₁ d₂ d₃ d₄ => exact (hc (List.cons.inj heq).1).elim

/-- A backslash begins an escape. -/
theorem items_of_backslash (hitems : ∀ i ∈ items, i.Valid quote) {tail : List UInt8}
    (heq : 92 :: tail = items.flatMap Item.bytes) :
    ∃ i items', items = i :: items' ∧ i.IsEscape (quote :: commonEscapes) ∧
      92 :: tail = i.bytes ++ items'.flatMap Item.bytes := by
  cases items with
  | nil => cases heq
  | cons i items =>
    have hi := hitems i List.mem_cons_self
    refine ⟨i, items, rfl, ?_, heq⟩
    cases i with
    | plain c =>
      obtain ⟨rfl, _⟩ := List.cons.inj heq
      exact hi List.mem_cons_self
    | escaped c | unicode d₁ d₂ d₃ d₄ => exact hi

/-- Two escapes that begin the same text are the same. -/
theorem escape_inj {letters : List UInt8} (hletters : 117 ∉ letters) {letters' : List UInt8}
    (hletters' : 117 ∉ letters') {i j : Item} (hi : i.IsEscape letters) (hj : j.IsEscape letters')
    {tail tail' : List UInt8} (heq : i.bytes ++ tail = j.bytes ++ tail') : i = j ∧ tail = tail' := by
  cases i with
  | plain c => exact hi.elim
  | escaped c =>
    cases j with
    | plain d => exact hj.elim
    | escaped d =>
      obtain ⟨_, heq⟩ := List.cons.inj heq
      obtain ⟨rfl, rfl⟩ := List.cons.inj heq
      exact ⟨rfl, rfl⟩
    | unicode e₁ e₂ e₃ e₄ =>
      obtain ⟨_, heq⟩ := List.cons.inj heq
      obtain ⟨rfl, _⟩ := List.cons.inj heq
      exact (hletters hi).elim
  | unicode d₁ d₂ d₃ d₄ =>
    cases j with
    | plain d => exact hj.elim
    | escaped d =>
      obtain ⟨_, heq⟩ := List.cons.inj heq
      obtain ⟨hd, _⟩ := List.cons.inj heq
      exact (hletters' (hd ▸ hj)).elim
    | unicode e₁ e₂ e₃ e₄ =>
      obtain ⟨heq, rfl⟩ := List.append_inj heq rfl
      cases heq
      exact ⟨rfl, rfl⟩

/-- Letters that are no backslash are items. -/
theorem items_of_not_mem {token : List UInt8} (htoken : (92 : UInt8) ∉ token)
    (hitems : ∀ i ∈ items, i.Valid quote) {tail : List UInt8}
    (heq : token ++ tail = items.flatMap Item.bytes) :
    ∃ items', (∀ i ∈ items', i.Valid quote) ∧ tail = items'.flatMap Item.bytes ∧
      decodeItems quote items = (decodeItems quote items').map fun dst => token ++ dst := by
  induction token generalizing items with
  | nil => exact ⟨items, hitems, heq, (Option.map_id' ).symm⟩
  | cons c token ih =>
    obtain ⟨hc, htoken⟩ := List.ne_and_not_mem_of_not_mem_cons htoken
    obtain ⟨items', rfl, hrest⟩ := items_of_plain (Ne.symm hc) heq
    obtain ⟨items'', hvalid, htail, hdecode⟩ :=
      ih htoken (List.forall_mem_cons.mp hitems).2 hrest
    refine ⟨items'', hvalid, htail, ?_⟩
    rw [decodeItems, hdecode, Option.map_map]
    rfl

/-! ## The text that a template is cut into -/

theorem Cut.input_eq {input behind : List UInt8} {pieces : List (List UInt8)}
    (h : Cut input pieces behind) : input = pieces.flatten ++ behind := by
  induction h with
  | stop => rfl
  | text hnext _ ih => rw [hnext.input_eq, ih, List.flatten_cons, List.append_assoc]

/-- The tokens behind some of the tokens of a text. -/
theorem Cut.drop {pre post : List (List UInt8)} : ∀ {input behind : List UInt8},
    Cut input (pre ++ post) behind → Cut (post.flatten ++ behind) post behind := by
  induction pre with
  | nil =>
    intro input behind h
    have heq : input = post.flatten ++ behind := h.input_eq
    rw [← heq]
    exact h
  | cons token pre ih =>
    intro input behind h
    cases h with
    | text _ h => exact ih h

theorem Cut.next {input token behind : List UInt8} {pieces : List (List UInt8)}
    (h : Cut input (token :: pieces) behind) : Next templateRules
      (token ++ (pieces.flatten ++ behind)) .text token (pieces.flatten ++ behind) := by
  cases h with
  | text hnext h =>
    rw [← h.input_eq, ← hnext.input_eq]
    exact hnext

/-- The tokens of a text of which no one needs its neighbour: each escape stands for something by itself,
and no backslash that is a token stands before a `'`. -/
structure Separable (pieces : List (List UInt8)) : Prop where
  alone : ∀ i : Item, i.IsEscape escapeLetters → i.bytes ∈ pieces → i.Alone
  not_quote : ∀ pre post, pieces = pre ++ [92] :: post → post.flatten.head? ≠ some 39

theorem Separable.tail {token : List UInt8} {pieces : List (List UInt8)}
    (h : Separable (token :: pieces)) : Separable pieces := by
  constructor
  · intro i hi hmem
    exact h.alone i hi (List.mem_cons_of_mem _ hmem)
  · intro pre post heq
    exact h.not_quote (token :: pre) post (by rw [heq, List.cons_append])

theorem Separable.drop {pre post : List (List UInt8)} (h : Separable (pre ++ post)) :
    Separable post := by
  induction pre with
  | nil => exact h
  | cons token pre ih => exact ih h.tail

/-- The first token of a text that is separable, against the items of a literal that begins with it. -/
theorem Separable.items_of_token (hquote : quote ∈ quotes) {token tail rest : List UInt8}
    {pieces : List (List UInt8)} (hsep : Separable (token :: pieces))
    (hnext : Next templateRules (token ++ rest) .text token rest) (htail : tail <+: rest)
    (hpieces : tail <+: pieces.flatten) (hnull : (0 : UInt8) ∉ token)
    (hitems : ∀ i ∈ items, i.Valid quote) (heq : token ++ tail = items.flatMap Item.bytes) :
    ∃ unquoted items', unquote token 96 false = some unquoted ∧ (∀ i ∈ items', i.Valid quote) ∧
      tail = items'.flatMap Item.bytes ∧
      decodeItems quote items = (decodeItems quote items').map fun dst => unquoted ++ dst := by
  have hletters : ∀ q ∈ quotes, (117 : UInt8) ∉ q :: commonEscapes := by simp [quotes, commonEscapes]
  have hletters' : (117 : UInt8) ∉ escapeLetters := by decide
  rw [unquote_text hnull]
  rcases text_forms hnext with ⟨i, hi, rfl⟩ | hplain | ⟨rfl, hnone⟩
  · -- An escape is an item.
    obtain ⟨c, more, hbytes⟩ := hi.bytes_eq
    have hbackslash : 92 :: (c :: more ++ tail) = items.flatMap Item.bytes := by
      rw [← heq, hbytes]
      rfl
    obtain ⟨j, items', rfl, hj, hitem⟩ := items_of_backslash hitems hbackslash
    have hitems' := (List.forall_mem_cons.mp hitems).2
    have hsame : i.bytes ++ tail = j.bytes ++ items'.flatMap Item.bytes := by
      rw [hbytes]
      exact hitem
    obtain ⟨rfl, rfl⟩ := escape_inj hletters' (hletters quote hquote) hi hj hsame
    obtain ⟨u, hu, hdecode⟩ := unquoteLoop_of_alone hi (hsep.alone i hi List.mem_cons_self)
    exact ⟨u, items', hu, hitems', rfl, hdecode quote items'⟩
  · obtain ⟨items', hvalid, htail, hdecode⟩ := items_of_not_mem hplain hitems heq
    exact ⟨token, items', unquoteLoop_of_not_mem hplain, hvalid, htail, hdecode⟩
  · -- A backslash that is a token is no escape of ESCAPE, so it is one of the quote.
    exfalso
    obtain ⟨j, items', rfl, hj, hitem⟩ := items_of_backslash hitems heq
    have hinitial : j.bytes <+: [92] ++ rest := by
      refine List.IsPrefix.trans ⟨items'.flatMap Item.bytes, hitem.symm⟩ ?_
      exact List.prefix_cons_inj 92 |>.mpr htail
    rcases hj.of_literal hquote with hescape | rfl
    · exact hnone j hescape hinitial
    · obtain ⟨_, htail'⟩ := List.cons.inj hitem
      obtain ⟨more, hmore⟩ := hpieces
      refine hsep.not_quote [] pieces rfl ?_
      rw [← hmore, show tail = 39 :: items'.flatMap Item.bytes from htail']
      rfl

/-- Tokens that are separable are decoded to what a literal with their text is. -/
theorem Separable.decodePieces_eq (hquote : quote ∈ quotes) {pieces post : List (List UInt8)}
    {behind : List UInt8} (hcut : Cut ((pieces ++ post).flatten ++ behind) (pieces ++ post) behind)
    (hsep : Separable (pieces ++ post)) (hnull : (0 : UInt8) ∉ pieces.flatten)
    (hitems : ∀ i ∈ items, i.Valid quote) (heq : pieces.flatten = items.flatMap Item.bytes) :
    decodePieces pieces = decodeItems quote items := by
  induction pieces generalizing items with
  | nil =>
    cases items with
    | nil => rfl
    | cons i items =>
      exfalso
      cases i <;> exact absurd heq (by simp [Item.bytes])
  | cons token pieces ih =>
    have hdrop : Cut ((pieces ++ post).flatten ++ behind) (pieces ++ post) behind :=
      @Cut.drop [token] (pieces ++ post) _ _ hcut
    have hnext : Next templateRules (token ++ ((pieces ++ post).flatten ++ behind)) .text token
        ((pieces ++ post).flatten ++ behind) := hcut.next
    have hflatten : pieces.flatten <+: (pieces ++ post).flatten := by
      rw [List.flatten_append]
      exact List.prefix_append _ _
    rw [List.flatten_cons] at heq hnull
    obtain ⟨htoken, hrest⟩ := not_or.mp (mt List.mem_append.mpr hnull)
    obtain ⟨u, items', hu, hitems', htail, hdecode⟩ := hsep.items_of_token hquote hnext
      (hflatten.trans (List.prefix_append _ _)) hflatten htoken hitems heq
    rw [hdecode, ← ih hdrop hsep.tail hrest hitems' htail]
    rw [decodePieces, hu]
    rfl

/-- The escapes that string literals or ESCAPE know. -/
def IsEscapeSequence (w : List UInt8) : Prop :=
  w ∈ escapeRule.matches' ∨
    ∃ quote ∈ quotes, w ∈ (char 92 * (anyOf (quote :: commonEscapes) + unicodeEscape)).matches'

/-- What the text of a template should be to its tokens: where an escape begins, the token is decoded,
and tokens that follow each other denote what a literal with their text denotes. -/
structure TextFaithful (pieces : List (List UInt8)) : Prop where
  escape : ∀ pre token post, pieces = pre ++ token :: post →
    (∃ w, IsEscapeSequence w ∧ w <+: (token :: post).flatten) → unquote token 96 false ≠ none
  literal : ∀ pre text post quote, pieces = pre ++ text ++ post → quote ∈ quotes →
    quote :: (text.flatten ++ [quote]) ∈ (stringRule quote).matches' →
    templateText text = unquote (quote :: (text.flatten ++ [quote])) quote true

/-! ## Every kind of string -/

/-- The strings of a source: a literal, and a text of a template up to its end or to an expression. There
are no null bytes in a source. -/
inductive StringSource where
  | literal (quote : UInt8) (text : List UInt8) (hquote : quote ∈ quotes)
    (htext : text ∈ (stringRule quote).matches') (hnull : (0 : UInt8) ∉ text)
  | template (input : List UInt8) (pieces : List (List UInt8)) (behind : List UInt8)
    (hcut : Cut input pieces behind) (hnull : (0 : UInt8) ∉ input)

/-- Escapes mean the same in every kind of string: a literal is decoded, and a text of a template is
decoded where an escape begins, to what a literal with its text is. -/
def StringSource.Faithful : StringSource → Prop
  | literal quote text _ _ _ => unquote text quote true ≠ none
  | template _ pieces _ _ _ => TextFaithful pieces

/-- Every surrogate of a literal is in a pair, and the tokens of a text of a template do not need each
other. -/
def StringSource.Sound : StringSource → Prop
  | literal quote text _ _ _ => ∀ items : List Item, (∀ i ∈ items, i.Valid quote) →
      text = literalText quote items → Paired items
  | template _ pieces _ _ _ => Separable pieces

/-- A backslash that is a token before a `'` is not decoded, though literals know the escape. -/
theorem unquote_backslash : unquote [92] 96 false = none := rfl

theorem TextFaithful.separable {pieces : List (List UInt8)} (h : TextFaithful pieces)
    (hnull : (0 : UInt8) ∉ pieces.flatten) : Separable pieces := by
  constructor
  · intro i hi hmem
    by_contra halone
    have hnull' : (0 : UInt8) ∉ i.bytes := by
      intro hzero
      exact hnull (List.mem_flatten.mpr ⟨_, hmem, hzero⟩)
    obtain ⟨pre, post, heq⟩ := List.append_of_mem hmem
    refine h.escape pre i.bytes post heq ⟨i.bytes, ?_, ?_⟩ ?_
    · exact Or.inl (mem_escapeRule.mpr ⟨i, hi, rfl⟩)
    · exact List.prefix_append _ _
    · rw [unquote_text hnull']
      exact unquoteLoop_of_not_alone hi halone
  · intro pre post heq hhead
    obtain ⟨tail, htail⟩ : ∃ tail, post.flatten = 39 :: tail := by
      cases hflatten : post.flatten with
      | nil => rw [hflatten] at hhead; cases hhead
      | cons c tail =>
        rw [hflatten] at hhead
        exact ⟨tail, by rw [Option.some.inj hhead]⟩
    refine h.escape pre [92] post heq ⟨[92, 39], ?_, ?_⟩ unquote_backslash
    · exact Or.inr ⟨39, by decide, mem_escape.mpr ⟨.escaped 39, List.mem_cons_self, rfl⟩⟩
    · rw [List.flatten_cons, htail]
      exact ⟨tail, rfl⟩

theorem Separable.faithful {input behind : List UInt8} {pieces : List (List UInt8)}
    (h : Separable pieces) (hcut : Cut input pieces behind)
    (hnull : (0 : UInt8) ∉ pieces.flatten) : TextFaithful pieces := by
  constructor
  · rintro pre token post rfl ⟨w, hw, hinitial⟩
    have hnext := hcut.drop.next
    have hsep : Separable (token :: post) := h.drop
    have htoken : (0 : UInt8) ∉ token := by
      intro hzero
      exact hnull (List.mem_flatten.mpr ⟨token, by simp, hzero⟩)
    rw [unquote_text htoken]
    rcases text_forms hnext with ⟨i, hi, rfl⟩ | hplain | ⟨rfl, hnone⟩
    · obtain ⟨u, hu, _⟩ := unquoteLoop_of_alone hi (hsep.alone i hi List.mem_cons_self)
      rw [hu]
      exact Option.some_ne_none u
    · rw [unquoteLoop_of_not_mem hplain]
      exact Option.some_ne_none token
    · -- What begins at a backslash that is a token is at most the escape of a `'`.
      exfalso
      rw [List.flatten_cons] at hinitial
      have hinput : w <+: [92] ++ (post.flatten ++ behind) := by
        refine hinitial.trans ?_
        rw [← List.append_assoc]
        exact List.prefix_append _ _
      have hquote : w = [92, 39] := by
        rcases hw with hw | ⟨quote, hquote, hw⟩
        · obtain ⟨i, hi, rfl⟩ := mem_escapeRule.mp hw
          exact (hnone i hi hinput).elim
        · obtain ⟨i, hi, rfl⟩ := mem_escape.mp hw
          rcases hi.of_literal hquote with hescape | rfl
          · exact (hnone i hescape hinput).elim
          · rfl
      obtain ⟨tail, htail⟩ := hinitial
      rw [hquote] at htail
      have hflatten : 39 :: tail = post.flatten := (List.cons.inj htail).2
      refine hsep.not_quote [] post rfl ?_
      rw [← hflatten]
      rfl
  · rintro pre text post quote rfl hquote htext
    obtain ⟨items, hitems, heq⟩ := mem_stringRule.mp htext
    have hnullText : (0 : UInt8) ∉ text.flatten := by
      intro hzero
      refine hnull ?_
      rw [List.flatten_append, List.flatten_append]
      exact List.mem_append_left _ (List.mem_append_right _ hzero)
    have hflatten : text.flatten = items.flatMap Item.bytes :=
      List.append_cancel_right (List.cons.inj heq).2
    have hnullQuote : (0 : UInt8) ∉ literalText quote items := by
      have hzero : ∀ q ∈ quotes, (0 : UInt8) ≠ q := by simp [quotes]
      have hne := hzero quote hquote
      unfold literalText
      rw [← hflatten]
      simp [hne, hnullText]
    rw [List.append_assoc] at hcut h
    rw [heq, unquote_literal hquote hitems hnullQuote, templateText_eq]
    exact h.drop.decodePieces_eq hquote hcut.drop hnullText hitems hflatten

/-- Escapes mean the same in every kind of string exactly when the string is sound. -/
theorem StringSource.faithful_iff (s : StringSource) : s.Faithful ↔ s.Sound := by
  match s with
  | .literal quote text hquote htext hnull =>
    show unquote text quote true ≠ none ↔ ∀ items : List Item, (∀ i ∈ items, i.Valid quote) →
      text = literalText quote items → Paired items
    obtain ⟨items, hitems, heq⟩ := mem_stringRule.mp htext
    constructor
    · intro h items' hitems' heq'
      subst heq'
      rw [unquote_literal hquote hitems' hnull] at h
      exact (decodeItems_ne_none_iff quote items').mp h
    · intro h
      have hpaired := h items hitems heq
      subst heq
      rw [unquote_literal hquote hitems hnull]
      exact (decodeItems_ne_none_iff quote items).mpr hpaired
  | .template input pieces behind hcut hnull =>
    have hnull' : (0 : UInt8) ∉ pieces.flatten := by
      intro hzero
      refine hnull ?_
      rw [hcut.input_eq]
      exact List.mem_append_left _ hzero
    exact ⟨fun h => h.separable hnull', fun h => h.faithful hcut hnull'⟩

/-! ### A surrogate pair in a template -/

/-- Where ESCAPE matches, the next token is what it matches. -/
theorem next_escape {i : Item} (hi : i.IsEscape escapeLetters) (rest : List UInt8) :
    Next templateRules (i.bytes ++ rest) .text i.bytes rest := by
  have hletters : (117 : UInt8) ∉ escapeLetters := by decide
  obtain ⟨e, tail, hbytes⟩ := hi.bytes_eq
  refine ⟨rfl, by simp [hbytes], 2, escapeRule, rfl, mem_escapeRule.mpr ⟨i, hi, rfl⟩, ?_⟩
  rintro j Q kind token' hj hQ ⟨rest', hinitial⟩
  -- No other rule matches a backslash and more.
  have hhead : ∀ c more, token' = c :: more → c = 92 := by
    rintro c more rfl
    rw [hbytes] at hinitial
    exact (List.cons.inj hinitial).1
  match j, hj with
  | 0, hj =>
    obtain ⟨rfl, _⟩ := Prod.mk.inj (Option.some.inj hj)
    obtain ⟨more, _, heq⟩ := mem_char_mul.mp hQ
    exact absurd (hhead _ _ heq) (by decide)
  | 1, hj =>
    obtain ⟨rfl, _⟩ := Prod.mk.inj (Option.some.inj hj)
    exact absurd (hhead _ _ (mem_char.mp hQ)) (by decide)
  | 2, hj =>
    obtain ⟨rfl, _⟩ := Prod.mk.inj (Option.some.inj hj)
    obtain ⟨k, hk, rfl⟩ := mem_escapeRule.mp hQ
    obtain ⟨rfl, _⟩ := escape_inj hletters hletters hk hi hinitial
    exact Or.inr ⟨rfl, le_rfl⟩
  | 3, hj =>
    obtain ⟨rfl, _⟩ := Prod.mk.inj (Option.some.inj hj)
    obtain ⟨hne, hall⟩ := mem_oneOrMore_anyOf.mp hQ
    obtain ⟨c, more, rfl⟩ := List.exists_cons_of_ne_nil hne
    have hc := (List.mem_filter.mp (hall c List.mem_cons_self)).2
    rw [hhead c more rfl] at hc
    simp at hc
  | 4, hj =>
    obtain ⟨rfl, _⟩ := Prod.mk.inj (Option.some.inj hj)
    obtain ⟨c, rfl⟩ := mem_anyLetter.mp hQ
    left
    rw [hbytes]
    simp
  | j + 5, hj => cases hj

/-- A back quote ends the text of a template. -/
theorem next_end (rest : List UInt8) : Next templateRules (96 :: rest) .end_ [96] rest := by
  refine ⟨rfl, by simp, 1, char 96, rfl, rfl, ?_⟩
  rintro j Q kind token' hj hQ ⟨rest', hinitial⟩
  have hhead : ∀ c more, token' = c :: more → c = 96 := by
    rintro c more rfl
    exact (List.cons.inj hinitial).1
  match j, hj with
  | 0, hj =>
    obtain ⟨rfl, _⟩ := Prod.mk.inj (Option.some.inj hj)
    obtain ⟨more, _, heq⟩ := mem_char_mul.mp hQ
    exact absurd (hhead _ _ heq) (by decide)
  | 1, hj =>
    obtain ⟨rfl, _⟩ := Prod.mk.inj (Option.some.inj hj)
    exact Or.inr ⟨congrArg List.length (mem_char.mp hQ), le_rfl⟩
  | 2, hj =>
    obtain ⟨rfl, _⟩ := Prod.mk.inj (Option.some.inj hj)
    obtain ⟨k, hk, rfl⟩ := mem_escapeRule.mp hQ
    obtain ⟨e, tail, hbytes⟩ := hk.bytes_eq
    exact absurd (hhead _ _ hbytes) (by decide)
  | 3, hj =>
    obtain ⟨rfl, _⟩ := Prod.mk.inj (Option.some.inj hj)
    obtain ⟨hne, hall⟩ := mem_oneOrMore_anyOf.mp hQ
    obtain ⟨c, more, rfl⟩ := List.exists_cons_of_ne_nil hne
    have hc := (List.mem_filter.mp (hall c List.mem_cons_self)).2
    rw [hhead c more rfl] at hc
    simp at hc
  | 4, hj =>
    obtain ⟨rfl, _⟩ := Prod.mk.inj (Option.some.inj hj)
    obtain ⟨c, rfl⟩ := mem_anyLetter.mp hQ
    exact Or.inr ⟨rfl, by omega⟩
  | j + 5, hj => cases hj

/-- Two escapes before the end of a template are two tokens. -/
theorem cut_pair {i j : Item} (hi : i.IsEscape escapeLetters) (hj : j.IsEscape escapeLetters)
    (rest : List UInt8) :
    Cut (i.bytes ++ (j.bytes ++ 96 :: rest)) [i.bytes, j.bytes] (96 :: rest) :=
  .text (next_escape hi _) (.text (next_escape hj _) (.stop (by simp) (next_end rest)))

/-- The escapes of U+1F600: `\uD83D` and `\uDE00`. -/
def grinning : Item × Item := (.unicode 68 56 51 68, .unicode 68 69 48 48)

theorem grinning_isEscape :
    grinning.1.IsEscape escapeLetters ∧ grinning.2.IsEscape escapeLetters :=
  ⟨⟨by decide, by decide, by decide, by decide⟩, by decide, by decide, by decide, by decide⟩

theorem StringSource.not_forall_faithful : ¬∀ s : StringSource, s.Faithful := by
  intro h
  have hcut := cut_pair grinning_isEscape.1 grinning_isEscape.2 []
  have hfaithful : TextFaithful [grinning.1.bytes, grinning.2.bytes] :=
    h (.template _ _ _ hcut (by decide))
  -- The literal is decoded, and the first token of the template is not.
  have hvalid : ∀ i ∈ [grinning.1, grinning.2], i.Valid 34 :=
    List.forall_mem_cons.mpr ⟨grinning_isEscape.1,
      List.forall_mem_cons.mpr ⟨grinning_isEscape.2, fun i hi => (List.not_mem_nil hi).elim⟩⟩
  have hliteral : templateText [grinning.1.bytes, grinning.2.bytes] =
      unquote (literalText 34 [grinning.1, grinning.2]) 34 true :=
    hfaithful.literal [] _ [] 34 rfl (by decide) (mem_stringRule.mpr ⟨_, hvalid, rfl⟩)
  have htemplate : templateText [grinning.1.bytes, grinning.2.bytes] = none := by decide
  have hdecoded : unquote (literalText 34 [grinning.1, grinning.2]) 34 true =
      some [240, 159, 152, 128] := by
    decide
  rw [htemplate] at hliteral
  cases hliteral.trans hdecoded

end Chloride
