import Chloride.Lexer.StringRules
import Chloride.Objects.StringBytes
import Chloride.Parser.Tokens

/-!
# The rules for code

The rules of `src/lexer/lex.l` for the start state INITIAL, in their order, with what their actions do:
most return a token, five look at the state of the lexer or change it.
-/

namespace Chloride

open RegularExpression Munch

/-- What is done for a rule of INITIAL. -/
inductive CodeRule where
  | null
  | token (type : TokenType)
  | lparen
  | rparen
  | templateStart
  | blanks
  | comment
  deriving DecidableEq

/-- `"s"` -/
def lit (s : String) : RegularExpression UInt8 := word (s.toList.map byte)

/-- `[ \t]+` -/
def blanksRule : RegularExpression UInt8 := oneOrMore (anyOf [32, 9])

def digitLetters : List UInt8 := "0123456789".toList.map byte

/-- `[a-zA-Z_]` -/
def nameLetters : List UInt8 :=
  "abcdefghijklmnopqrstuvwxyzABCDEFGHIJKLMNOPQRSTUVWXYZ_".toList.map byte

/-- `[a-zA-Z_][a-zA-Z0-9_]*` -/
def identifierRule : RegularExpression UInt8 :=
  anyOf nameLetters * (anyOf (nameLetters ++ digitLetters)).star

def optional (P : RegularExpression UInt8) : RegularExpression UInt8 := P + 1

/-- `(\-|\+)?[0-9]+` -/
def signedDigits : RegularExpression UInt8 :=
  optional (lit "-" + lit "+") * oneOrMore (anyOf digitLetters)

/-- `[..]+(\.[..]+)?` -/
def fractional (letters : List UInt8) : RegularExpression UInt8 :=
  oneOrMore (anyOf letters) * optional (lit "." * oneOrMore (anyOf letters))

/-- `([0-9]+(\.[0-9]+)?)|(\.[0-9]+)` -/
def decimalRule : RegularExpression UInt8 :=
  fractional digitLetters + lit "." * oneOrMore (anyOf digitLetters)

def numberRule : RegularExpression UInt8 :=
  decimalRule * optional ((lit "e" + lit "E") * signedDigits) +
  lit "0" * (lit "x" + lit "X") * fractional hexLetters * optional ((lit "p" + lit "P") * signedDigits) +
  lit "0" * (lit "o" + lit "O") * fractional ("01234567".toList.map byte) *
    optional ((lit "e" + lit "E") * signedDigits) +
  lit "0" * (lit "b" + lit "B") * fractional ("01".toList.map byte) *
    optional ((lit "p" + lit "P") * signedDigits)

/-- `.|((([0-9]+(\.[0-9]+)?)|(\.[0-9]+))((e|E)((\-|\+)?([0-9]+(\.[0-9]+)?)))?)` -/
def invalidRule : RegularExpression UInt8 :=
  noneOf [10] +
  decimalRule * optional ((lit "e" + lit "E") * (optional (lit "-" + lit "+") * fractional digitLetters))

/-- The rules of the state INITIAL, in their order. -/
def codeRules : List (RegularExpression UInt8 × CodeRule) :=
  [(char 0, .null),
    (lit ".", .token .dot), (lit "!", .token .exclamation), (lit ",", .token .comma),
    (lit ":", .token .colon), (lit "?", .token .question),
    (lit "=", .token .assign),
    (lit "not" * blanksRule * lit "in", .token .notIn), (lit "in", .token .in_), (lit "&&", .token .and),
    (lit "||", .token .or), (lit "<=", .token .le), (lit ">=", .token .ge), (lit "!=", .token .ne),
    (lit "==", .token .eq), (lit "//", .token .floordiv), (lit "<", .token .lt), (lit ">", .token .gt),
    (lit "+", .token .plus), (lit "-", .token .minus), (lit "%", .token .modulo), (lit "*", .token .star),
    (lit "/", .token .slash), (lit "^", .token .caret),
    (lit "//=", .token .floordivAssign), (lit "+=", .token .plusAssign), (lit "-=", .token .minusAssign),
    (lit "%=", .token .moduloAssign), (lit "*=", .token .starAssign), (lit "/=", .token .slashAssign),
    (lit "^=", .token .caretAssign),
    (lit "if", .token .if_), (lit "else" * blanksRule * lit "if", .token .elseIf),
    (lit "else", .token .else_), (lit "while", .token .while_), (lit "forever", .token .forever),
    (lit "for", .token .for_), (lit "break", .token .break_), (lit "continue", .token .continue_),
    (lit "return", .token .return_), (lit "let", .token .let_), (lit "class", .token .class_),
    (lit "import", .token .import_), (lit "expose", .token .expose), (lit "to", .token .to),
    (lit "until", .token .until), (lit "as", .token .as_), (lit "from", .token .from_),
    (lit "do", .token .do_), (lit "true", .token .true_), (lit "false", .token .false_),
    (lit "null", .token .null), (lit "delete", .token .delete), (lit "not", .token .not),
    (lit "try", .token .try_), (lit "catch", .token .catch_), (lit "throw", .token .throw_),
    (lit "(", .lparen), (lit ")", .rparen), (lit "[", .token .lbracket), (lit "]", .token .rbracket),
    (lit "\x7b", .token .lbrace), (lit "\x7d", .token .rbrace),
    (identifierRule, .token .identifier),
    (stringRule 34, .token .string), (stringRule 39, .token .string),
    (numberRule, .token .number),
    (lit "`", .templateStart),
    (char 10, .token .newLine),
    (blanksRule, .blanks),
    (lit "#" * (noneOf [10]).star, .comment),
    (invalidRule, .token .invalid)]

/-! ## Literals in code -/

/-- The rules that can match something that begins with a quote. -/
theorem filter_mayStart_quote {quote : UInt8} (hquote : quote ∈ quotes) :
    codeRules.filter (fun rule => mayStart quote rule.1) =
      [(stringRule quote, .token .string), (invalidRule, .token .invalid)] := by
  rw [quotes, List.mem_cons, List.mem_singleton] at hquote
  rcases hquote with rfl | rfl
  · rfl
  · rfl

/-- What the rule for invalid tokens matches of something that begins with a quote. -/
theorem length_of_mem_invalidRule {quote : UInt8} (hquote : quote ∈ quotes) {w : List UInt8}
    (h : quote :: w ∈ invalidRule.matches') : w = [] := by
  rcases mem_add.mp h with hletter | hnumber
  · obtain ⟨c, -, heq⟩ := mem_noneOf.mp hletter
    exact (List.cons.inj heq).2
  · have hstart := mayStart_of_mem hnumber
    rw [quotes, List.mem_cons, List.mem_singleton] at hquote
    rcases hquote with rfl | rfl
    · exact absurd hstart (by decide)
    · exact absurd hstart (by decide)

/-- A literal in code is one token, whatever is between its quotes. -/
theorem next_literal {quote : UInt8} (hquote : quote ∈ quotes) {items : List Item}
    (hitems : ∀ i ∈ items, i.Valid quote) (rest : List UInt8) :
    Next codeRules (literalText quote items ++ rest) (.token .string) (literalText quote items) rest := by
  classical
  have hmem : (stringRule quote, CodeRule.token .string) ∈ codeRules := by
    have hfilter : (stringRule quote, CodeRule.token .string) ∈
        codeRules.filter fun rule => mayStart quote rule.1 := by
      rw [filter_mayStart_quote hquote]
      exact List.mem_cons_self
    exact List.mem_of_mem_filter hfilter
  have hexists : ∃ i : ℕ, codeRules[i]? = some (stringRule quote, .token .string) :=
    List.getElem?_of_mem hmem
  refine ⟨rfl, by simp [literalText], Nat.find hexists, _, Nat.find_spec hexists,
    mem_stringRule.mpr ⟨items, hitems, rfl⟩, fun j Q kind' token' hj hQ hinitial => ?_⟩
  cases token' with
  | nil => exact Or.inl (by simp [literalText])
  | cons c w =>
    obtain ⟨r, hr⟩ := hinitial
    have hc : c = quote := (List.cons.inj hr).1
    subst hc
    have hrule : (Q, kind') ∈ codeRules.filter fun rule => mayStart c rule.1 :=
      List.mem_filter.mpr ⟨List.mem_of_getElem? hj, mayStart_of_mem hQ⟩
    rw [filter_mayStart_quote hquote, List.mem_cons, List.mem_singleton, Prod.mk.injEq, Prod.mk.injEq]
      at hrule
    rcases hrule with ⟨rfl, rfl⟩ | ⟨rfl, rfl⟩
    · obtain ⟨items', hitems', heq⟩ := mem_stringRule.mp hQ
      have hsame : items'.flatMap Item.bytes ++ c :: r = items.flatMap Item.bytes ++ c :: rest := by
        rw [heq] at hr
        simpa [literalText] using hr
      obtain ⟨rfl, -⟩ := items_inj hquote hitems' hitems hsame
      exact Or.inr ⟨by rw [heq], Nat.find_min' hexists hj⟩
    · obtain rfl := length_of_mem_invalidRule hquote hQ
      exact Or.inl (by simp [literalText])

end Chloride
