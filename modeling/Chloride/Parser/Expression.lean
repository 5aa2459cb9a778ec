import Chloride.Numerics.Numerals
import Chloride.Parser.Operations

/-!
# Expressions

`parse_token_full` of `src/parser/parser.c` with `parse_operations`, `parse_range`, `parse_negation`
and the operands of one token; what it does for the other forms is a parameter. The functions call each
other, and their loops go on, for a number of steps; `∀ᶠ steps` says of a result that every large
enough number gives it.

A chain of operands and operators is an `Expression`. `parseToken_phrase` says what is made of one with
anything behind it that the loop for suffixes takes: the suffix belongs to the last operand.
-/

open Filter (atTop)

namespace Chloride

/-! ## The parser -/

/-- What the parser does for the forms that are not modelled: those of statements, those at the start
of an operand, those behind one, and the texts of strings. -/
structure OtherForms where
  statement : List Token → Parse (Option ParsedValue)
  operand : List Token → Parse ParsedValue
  suffix : List Token → ParsedValue → Parse ParsedValue
  string : Token → Except ParseStop ParsedValue

/-- Where a token is. -/
def Token.loc (token : Token) : SourceLocation := ⟨token.line, token.column, token.length⟩

/-- The tokens that statements begin with. -/
def TokenType.isStatement : TokenType → Bool
  | .if_ | .try_ | .while_ | .for_ | .throw_ | .return_ | .continue_ | .break_ | .delete | .let_ | .class_
  | .import_ => true
  | _ => false

/-- `parse_number`. The value of a token has a null byte behind it. -/
def parseNumber (token : Token) : Except ParseStop ParsedValue :=
  match mpqSetDecimalStrExp token.value [0] with
  | none => throw .undefined
  | some none => throw (.error ⟨token.loc, "Unable to parse number"⟩)
  | some (some r) => return .number r

/-- The operands of one token. -/
def OtherForms.atom (forms : OtherForms) (token : Token) : Option (Except ParseStop ParsedValue) :=
  match token.type with
  | .true_ => some (return .boolean true)
  | .false_ => some (return .boolean false)
  | .null => some (return .null)
  | .string => some (forms.string token)
  | .identifier => some (return .identifier ⟨token.value, token.line, token.column⟩)
  | .number => some (parseNumber token)
  | _ => none

/-- What `parse_negation` makes of the value behind the sign; a number is negated itself. -/
def ParsedValue.negated : ParsedValue → ParsedValue
  | .number r => .number { r with num := -r.num }
  | value => .negation value

/-- What the loop for suffixes does at a token. -/
inductive SuffixKind where
  | other | range | conditional | operation | none

def TokenType.suffixKind (type : TokenType) : SuffixKind :=
  match type with
  | .caretAssign | .starAssign | .slashAssign | .floordivAssign | .moduloAssign | .minusAssign
  | .plusAssign | .assign | .lparen | .dot | .templateStart | .lbracket => .other
  | .to | .until => .range
  | .question => .conditional
  | type => if type.asOperation.isSome then .operation else .none

section

-- `parse` is `parse_token_full` with `inline_flag`, of `process_operations`.
variable (forms : OtherForms) (tokens : List Token) (parse : Bool → Parse (Option ParsedValue))

/-- `parse_negation`. -/
def parseNegation : Parse ParsedValue := do
  nextToken
  let token ← currentToken tokens
  errorIfFinished tokens
  match ← parse false with
  | none => syntaxError token "expected value"
  | some value => return value.negated

/-- `parse_range`. -/
def parseRange (start : ParsedValue) : Parse ParsedValue := do
  let token ← currentToken tokens
  nextToken
  errorIfFinished tokens
  match ← parse true with
  | none => syntaxError token "expected value"
  | some stop => return .range token.loc start stop (token.type = .to)

/-- The loop of `parse_operations`, for a number of rounds. -/
def collectOperations : ℕ → List ParsedValue → List OperationAt →
    Parse (List ParsedValue × List OperationAt)
  | 0, _, _ => throw .unfinished
  | rounds + 1, toOperateOn, operations => do
    if tokens.length ≤ (← get) then return (toOperateOn, operations)
    else
      let token ← currentToken tokens
      match token.type.asOperation with
      | none => return (toOperateOn, operations)
      | some operation =>
        nextToken
        skipNewlinesAndIndents tokens
        errorIfFinished tokens
        match ← parse false with
        | none => syntaxError token "expected value"
        | some value =>
          collectOperations rounds (toOperateOn ++ [value]) (operations ++ [⟨operation, token.loc⟩])

/-- `parse_operations`. -/
def parseOperations (rounds : ℕ) (first : ParsedValue) : Parse ParsedValue := do
  let (toOperateOn, operations) ← collectOperations tokens parse rounds [first] []
  convertToOperation operations.length toOperateOn operations

/-- The loop of `parse_token_full` for what is behind a value, for a number of rounds. -/
def parseSuffixes (processOperations : Bool) : ℕ → ParsedValue → Parse ParsedValue
  | 0, _ => throw .unfinished
  | rounds + 1, output => do
    let tempIndex ← get
    if tokens.length ≤ tempIndex then return output
    else
      skipNewlinesAndIndents tokens
      if tokens.length ≤ (← get) then
        set tempIndex
        return output
      else
        let token ← currentToken tokens
        match token.type.suffixKind with
        | .other => parseSuffixes processOperations rounds (← forms.suffix tokens output)
        | .range => parseSuffixes processOperations rounds (← parseRange tokens parse output)
        | .conditional =>
          if processOperations then
            parseSuffixes processOperations rounds (← forms.suffix tokens output)
          else return output
        | .operation =>
          if processOperations then
            parseSuffixes processOperations rounds (← parseOperations tokens parse rounds output)
          else return output
        | .none =>
          set tempIndex
          return output

/-- `case TOKEN_INDENT`. -/
def parseIndent (token : Token) : Parse (Option ParsedValue) := do
  let index ← get
  if token.value ≠ [] ∧ (tokens[index + 1]?).any fun next => next.type ≠ .newLine then
    syntaxError token "unexpected indent"
  else
    nextToken
    return none

/-- What `parse_token_full` does at the first token of a value. -/
def parseStart (token : Token) : Parse (Option ParsedValue) :=
  match forms.atom token with
  | some result => do
    nextToken
    return some (← result)
  | none =>
    match token.type with
    | .newLine => do
      nextToken
      return none
    | .indent => parseIndent tokens token
    | .minus => do return some (← parseNegation tokens parse)
    | .do_ | .lbracket | .lparen | .lbrace | .exclamation | .templateStart => do
      return some (← forms.operand tokens)
    | _ => syntaxError token "unexpected token"

end

/-- `parse_token_full`, for a number of steps. -/
def parseTokenFull (forms : OtherForms) (tokens : List Token) :
    ℕ → Bool → Bool → Parse (Option ParsedValue)
  | 0, _, _ => throw .unfinished
  | steps + 1, inlineFlag, processOperations => do
    let token ← currentToken tokens
    if !inlineFlag && token.type.isStatement then forms.statement tokens
    else
      match ← parseStart forms tokens (parseTokenFull forms tokens steps true) token with
      | none => return none
      | some output =>
        return some (← parseSuffixes forms tokens (parseTokenFull forms tokens steps true)
          processOperations steps output)

/-! ## The steps of the parser -/

section

variable {forms : OtherForms} {tokens : List Token} {i j k : ℕ} {token : Token}

theorem eventually_of_succ {P : ℕ → Prop} (h : ∀ᶠ n in atTop, P (n + 1)) : ∀ᶠ n in atTop, P n := by
  obtain ⟨N, hN⟩ := Filter.eventually_atTop.mp h
  refine Filter.eventually_atTop.mpr ⟨N + 1, fun n hn => ?_⟩
  obtain ⟨m, rfl⟩ : ∃ m, n = m + 1 := ⟨n - 1, by omega⟩
  exact hN m (by omega)

theorem skipFrom_of_not_blank (htoken : tokens[i]? = some token) (h : token.type.isBlank = false) :
    skipFrom tokens i = i := by
  obtain ⟨hlt, rfl⟩ := List.getElem?_eq_some_iff.mp htoken
  unfold skipFrom
  rw [List.drop_eq_getElem_cons hlt, List.takeWhile_cons, h]
  rfl

theorem getElem?_of_drop {token : Token} {rest : List Token} (h : tokens.drop i = token :: rest) :
    tokens[i]? = some token ∧ tokens.drop (i + 1) = rest := by
  constructor
  · rw [← List.head?_drop, h]
    rfl
  · rw [← List.tail_drop, h]
    rfl

/-- Nothing that the loop for suffixes takes follows, on this line or a later one. -/
def Ends (tokens : List Token) (k : ℕ) : Prop :=
  ∀ token, tokens[skipFrom tokens k]? = some token → token.type.suffixKind = .none

theorem asOperation_of_suffixKind {type : TokenType} (h : type.suffixKind = .none) :
    type.asOperation = none := by
  cases type <;> first | rfl | cases h

theorem Ends.asOperation (h : Ends tokens k) (htoken : tokens[k]? = some token) :
    token.type.asOperation = none := by
  cases hblank : token.type.isBlank with
  | true =>
    cases htype : token.type <;> rw [htype] at hblank <;> first | rfl | cases hblank
  | false =>
    have hskip := skipFrom_of_not_blank htoken hblank
    exact asOperation_of_suffixKind (h token (by rw [hskip]; exact htoken))

section Suffixes

variable {parse : Bool → Parse (Option ParsedValue)} {process : Bool} {rounds : ℕ}
  {value : ParsedValue}

/-- The loop is at its end, or it looks at the first token that is not blank. -/
theorem parseSuffixes_at (htoken : tokens[skipFrom tokens k]? = some token) {r : ParsedValue × ℕ}
    (h : (match token.type.suffixKind with
      | .other => do parseSuffixes forms tokens parse process rounds (← forms.suffix tokens value)
      | .range => do
        parseSuffixes forms tokens parse process rounds (← parseRange tokens parse value)
      | .conditional =>
        if process then do
          parseSuffixes forms tokens parse process rounds (← forms.suffix tokens value)
        else return value
      | .operation =>
        if process then do
          parseSuffixes forms tokens parse process rounds
            (← parseOperations tokens parse rounds value)
        else return value
      | .none => do
        set k
        return value : Parse ParsedValue) (skipFrom tokens k) = .ok r) :
    parseSuffixes forms tokens parse process (rounds + 1) value k = .ok r := by
  obtain ⟨hlt, _⟩ := List.getElem?_eq_some_iff.mp htoken
  have hk : k ≤ skipFrom tokens k := Nat.le_add_right ..
  rw [parseSuffixes]
  refine Parse.bind_ok.mpr ⟨k, k, rfl, ?_⟩
  rw [if_neg (by omega)]
  refine Parse.bind_ok.mpr ⟨(), _, skipNewlinesAndIndents_ok.mpr rfl, ?_⟩
  refine Parse.bind_ok.mpr ⟨_, _, Parse.get_ok.mpr ⟨rfl, rfl⟩, ?_⟩
  rw [if_neg (by omega)]
  exact Parse.bind_ok.mpr ⟨token, _, currentToken_ok.mpr ⟨htoken, rfl⟩, h⟩

theorem parseSuffixes_of_ends (h : Ends tokens k) :
    parseSuffixes forms tokens parse process (rounds + 1) value k = .ok (value, k) := by
  cases htoken : tokens[skipFrom tokens k]? with
  | some token =>
    refine parseSuffixes_at htoken ?_
    rw [h token htoken]
    rfl
  | none =>
    have hlength := List.getElem?_eq_none_iff.mp htoken
    rw [parseSuffixes]
    refine Parse.bind_ok.mpr ⟨k, k, rfl, ?_⟩
    by_cases hk : tokens.length ≤ k
    · rw [if_pos hk]
      rfl
    · rw [if_neg hk]
      refine Parse.bind_ok.mpr ⟨(), _, skipNewlinesAndIndents_ok.mpr rfl, ?_⟩
      refine Parse.bind_ok.mpr ⟨_, _, Parse.get_ok.mpr ⟨rfl, rfl⟩, ?_⟩
      rw [if_pos hlength]
      rfl

theorem suffixKind_of_asOperation {type : TokenType} {operation : OperationToken}
    (h : type.asOperation = some operation) : type.suffixKind = .operation := by
  cases type <;> first | rfl | cases h

theorem not_blank_of_asOperation {type : TokenType} {operation : OperationToken}
    (h : type.asOperation = some operation) : type.isBlank = false := by
  cases type <;> first | rfl | cases h

/-- Without `process_operations` an operator ends the value. -/
theorem parseSuffixes_of_operation (htoken : tokens[k]? = some token) {operation : OperationToken}
    (h : token.type.asOperation = some operation) :
    parseSuffixes forms tokens parse false (rounds + 1) value k = .ok (value, k) := by
  have hskip := skipFrom_of_not_blank htoken (not_blank_of_asOperation h)
  refine parseSuffixes_at (by rw [hskip]; exact htoken) ?_
  rw [suffixKind_of_asOperation h, hskip]
  rfl

end Suffixes

/-- What `f` is done to a value by the loop for suffixes, from a place to another. -/
def Behind (forms : OtherForms) (tokens : List Token) (process : Bool) (k : ℕ)
    (f : ParsedValue → ParsedValue) (k' : ℕ) : Prop :=
  ∀ value, ∀ᶠ n in atTop,
    parseSuffixes forms tokens (parseTokenFull forms tokens n true) process n value k =
      .ok (f value, k')

theorem Behind.of_ends {process : Bool} (h : Ends tokens k) :
    Behind forms tokens process k id k := by
  intro value
  refine eventually_of_succ (Filter.Eventually.of_forall fun n => ?_)
  exact parseSuffixes_of_ends h

theorem Behind.of_operation (htoken : tokens[k]? = some token) {operation : OperationToken}
    (h : token.type.asOperation = some operation) : Behind forms tokens false k id k := by
  intro value
  refine eventually_of_succ (Filter.Eventually.of_forall fun n => ?_)
  exact parseSuffixes_of_operation htoken h

section Start

variable {inlineFlag process : Bool} {value : ParsedValue} {r : ParsedValue × ℕ}

/-- A value that does not begin with a statement's token. -/
theorem parseTokenFull_start (htoken : tokens[i]? = some token) (hstatement : token.type.isStatement = false)
    (hstart : ∀ᶠ n in atTop,
      parseStart forms tokens (parseTokenFull forms tokens n true) token i = .ok (some value, j))
    (hsuffixes : ∀ᶠ n in atTop, parseSuffixes forms tokens (parseTokenFull forms tokens n true) process
      n value j = .ok r) :
    ∀ᶠ n in atTop, parseTokenFull forms tokens n inlineFlag process i = .ok (some r.1, r.2) := by
  refine eventually_of_succ ?_
  filter_upwards [hstart, hsuffixes] with n hstart hsuffixes
  rw [parseTokenFull]
  refine Parse.bind_ok.mpr ⟨token, i, currentToken_ok.mpr ⟨htoken, rfl⟩, ?_⟩
  rw [hstatement, Bool.and_false, if_neg Bool.false_ne_true]
  refine Parse.bind_ok.mpr ⟨_, _, hstart, ?_⟩
  exact Parse.bind_ok.mpr ⟨_, _, hsuffixes, rfl⟩

theorem OtherForms.plain_of_atom {result : Except ParseStop ParsedValue}
    (h : forms.atom token = some result) :
    token.type.isStatement = false ∧ token.type.isBlank = false := by
  unfold OtherForms.atom at h
  cases htype : token.type <;> rw [htype] at h <;> first | exact ⟨rfl, rfl⟩ | cases h

theorem parseTokenFull_minus (htoken : tokens[i]? = some token) (hminus : token.type = .minus)
    (hlt : i + 1 < tokens.length)
    (hvalue : ∀ᶠ n in atTop, parseTokenFull forms tokens n true false (i + 1) = .ok (some value, j))
    (hsuffixes : ∀ᶠ n in atTop, parseSuffixes forms tokens (parseTokenFull forms tokens n true) process
      n value.negated j = .ok r) :
    ∀ᶠ n in atTop, parseTokenFull forms tokens n inlineFlag process i = .ok (some r.1, r.2) := by
  refine parseTokenFull_start htoken (by rw [hminus]; rfl) ?_ hsuffixes
  filter_upwards [hvalue] with n hvalue
  have hatom : forms.atom token = none := by
    unfold OtherForms.atom
    rw [hminus]
  have hnegation : parseNegation tokens (parseTokenFull forms tokens n true) i =
      .ok (value.negated, j) := by
    refine Parse.bind_ok.mpr ⟨(), _, nextToken_ok.mpr rfl, ?_⟩
    refine Parse.bind_ok.mpr ⟨_, _, currentToken_ok.mpr ⟨List.getElem?_eq_getElem hlt, rfl⟩, ?_⟩
    refine Parse.bind_ok.mpr ⟨(), _, errorIfFinished_ok.mpr ⟨hlt, rfl⟩, ?_⟩
    exact Parse.bind_ok.mpr ⟨_, _, hvalue, rfl⟩
  unfold parseStart
  rw [hatom, hminus]
  exact Parse.bind_ok.mpr ⟨_, _, hnegation, rfl⟩

end Start

end

/-! ## Expressions -/

section

variable {forms : OtherForms}

/-- Tokens of which the parser makes a value before it looks for what is behind them, wherever they
are: one token, or a form with brackets, with what belongs to it. -/
structure Primary (forms : OtherForms) where
  tokens : List Token
  value : ParsedValue
  tokens_ne_nil : tokens ≠ []
  head_not_blank : ∀ token ∈ tokens.head?, token.type.isBlank = false
  reads : ∀ {all rest : List Token} {i : ℕ} {inlineFlag process : Bool} {r : ParsedValue × ℕ},
    all.drop i = tokens ++ rest →
    (∀ᶠ n in atTop, parseSuffixes forms all (parseTokenFull forms all n true) process n value
      (i + tokens.length) = .ok r) →
    ∀ᶠ n in atTop, parseTokenFull forms all n inlineFlag process i = .ok (some r.1, r.2)

/-- An operand of one token. -/
def Primary.ofAtom {token : Token} {value : ParsedValue}
    (h : forms.atom token = some (.ok value)) : Primary forms where
  tokens := [token]
  value := value
  tokens_ne_nil := List.cons_ne_nil _ _
  head_not_blank := by
    rintro _ ⟨⟩
    exact (forms.plain_of_atom h).2
  reads := by
    intro all rest i inlineFlag process r htokens hsuffixes
    refine parseTokenFull_start (getElem?_of_drop htokens).1 (forms.plain_of_atom h).1
      (Filter.Eventually.of_forall fun n => ?_) hsuffixes
    unfold parseStart
    rw [h]
    rfl

/-- An operand: minus signs, and what is behind them. -/
structure Operand (forms : OtherForms) where
  minuses : List Token
  primary : Primary forms
  minuses_type : ∀ token ∈ minuses, token.type = .minus

/-- A token of `SWITCH_OPERATIONS`. -/
structure OperationSign where
  token : Token
  operation : OperationToken
  token_type : token.type.asOperation = some operation

/-- Operands with operators between them. -/
abbrev Expression (forms : OtherForms) := Chain (Operand forms) OperationSign

def Operand.tokens (operand : Operand forms) : List Token :=
  operand.minuses ++ operand.primary.tokens

/-- The value of an operand with `f` done to the value behind the signs. -/
def Operand.parsed (f : ParsedValue → ParsedValue) (operand : Operand forms) : ParsedValue :=
  ParsedValue.negated^[operand.minuses.length] (f operand.primary.value)

def OperationSign.operationAt (sign : OperationSign) : OperationAt := ⟨sign.operation, sign.token.loc⟩

/-- The tokens behind the first operand. -/
def restTokens (rest : List (OperationSign × Operand forms)) : List Token :=
  rest.flatMap fun x => x.1.token :: x.2.tokens

def Expression.tokens (e : Expression forms) : List Token := e.first.tokens ++ restTokens e.rest

/-- The values of the operands with `f` done to the value behind the signs of the last. -/
def parsedRest (f : ParsedValue → ParsedValue) :
    Operand forms → List (OperationSign × Operand forms) → Chain ParsedValue OperationAt
  | operand, [] => ⟨operand.parsed f, []⟩
  | operand, (sign, operand') :: rest =>
    Chain.append ⟨operand.parsed id, []⟩ sign.operationAt (parsedRest f operand' rest)

def Expression.parsed (e : Expression forms) (f : ParsedValue → ParsedValue) :
    Chain ParsedValue OperationAt := parsedRest f e.first e.rest

/-- What `convert_to_operation` makes of the expression, with `f` done to the value behind the signs
of the last operand. -/
def Expression.value (e : Expression forms) (f : ParsedValue → ParsedValue) :
    Except ParseStop ParsedValue :=
  convertToOperation (e.parsed f).seps.length (e.parsed f).items (e.parsed f).seps

end

/-! ## Expressions in a list of tokens -/

section

variable {forms : OtherForms} {tokens : List Token} {i j k k' : ℕ}
  {f : ParsedValue → ParsedValue} {inlineFlag process : Bool}

/-- An operand. The signs take what is behind the value without `process_operations`, and what is
behind that is for the operand as a whole. -/
theorem parse_operand (operand : Operand forms) {rest : List Token} {r : ParsedValue × ℕ}
    (htokens : tokens.drop i = operand.tokens ++ rest)
    (hbehind : Behind forms tokens false (i + operand.tokens.length) f j)
    (hstop : Behind forms tokens false j id j)
    (hplain : operand.minuses = [] → ∀ᶠ n in atTop, parseSuffixes forms tokens
      (parseTokenFull forms tokens n true) process n operand.primary.value
      (i + operand.tokens.length) = .ok r)
    (hnegated : operand.minuses ≠ [] → ∀ᶠ n in atTop, parseSuffixes forms tokens
      (parseTokenFull forms tokens n true) process n (operand.parsed f) j = .ok r) :
    ∀ᶠ n in atTop, parseTokenFull forms tokens n inlineFlag process i = .ok (some r.1, r.2) := by
  obtain ⟨minuses, primary, hminuses⟩ := operand
  unfold Operand.tokens at htokens hbehind hplain
  unfold Operand.parsed at hnegated
  dsimp only at htokens hbehind hplain hnegated
  induction minuses generalizing i inlineFlag process r with
  | nil =>
    exact primary.reads htokens (hplain rfl)
  | cons minus minuses ih =>
    rw [List.forall_mem_cons] at hminuses
    obtain ⟨htoken, hrest⟩ := getElem?_of_drop htokens
    replace hrest : tokens.drop (i + 1) = (minuses ++ primary.tokens) ++ rest := hrest
    have hlt : i + 1 < tokens.length := by
      have hlength := congrArg List.length hrest
      have hpos := List.length_pos_of_ne_nil primary.tokens_ne_nil
      rw [List.length_drop, List.length_append, List.length_append] at hlength
      omega
    have hbehind' :
        Behind forms tokens false (i + 1 + (minuses ++ primary.tokens).length) f j := by
      rw [List.cons_append, List.length_cons] at hbehind
      rwa [Nat.add_assoc, Nat.add_comm 1]
    have hinner : ∀ᶠ n in atTop, parseTokenFull forms tokens n true false (i + 1) =
        .ok (some (ParsedValue.negated^[minuses.length] (f primary.value)), j) := by
      refine ih (r := (ParsedValue.negated^[minuses.length] (f primary.value), j)) hminuses.2 hrest hbehind'
        (fun hnil => ?_) fun _ => hstop _
      subst hnil
      exact hbehind' primary.value
    have hsuffixes := hnegated (List.cons_ne_nil _ _)
    rw [List.length_cons, Function.iterate_succ_apply'] at hsuffixes
    exact parseTokenFull_minus htoken hminuses.1 hlt hinner hsuffixes

/-- The operators from a place on, each with the value behind it, as far as `parse_operations` goes. -/
inductive OperationsAt (forms : OtherForms) (tokens : List Token) :
    ℕ → List (OperationAt × ParsedValue) → ℕ → Prop
  | nil {k : ℕ} (h : ∀ token, tokens[k]? = some token → token.type.asOperation = none) :
    OperationsAt forms tokens k [] k
  | cons {k j k' : ℕ} {token : Token} {operation : OperationToken} {value : ParsedValue}
      {rest : List (OperationAt × ParsedValue)} (htoken : tokens[k]? = some token)
      (hoperation : token.type.asOperation = some operation)
      (hlt : skipFrom tokens (k + 1) < tokens.length)
      (hvalue : ∀ᶠ n in atTop, parseTokenFull forms tokens n true false (skipFrom tokens (k + 1)) =
        .ok (some value, j))
      (hrest : OperationsAt forms tokens j rest k') :
    OperationsAt forms tokens k ((⟨operation, token.loc⟩, value) :: rest) k'

/-- The loop of `parse_operations` collects them. -/
theorem OperationsAt.collect {rest : List (OperationAt × ParsedValue)}
    (h : OperationsAt forms tokens k rest k') :
    ∀ᶠ n in atTop, ∀ rounds toOperateOn operations, rest.length < rounds →
      collectOperations tokens (parseTokenFull forms tokens n true) rounds toOperateOn operations k =
        .ok ((toOperateOn ++ rest.map Prod.snd, operations ++ rest.map Prod.fst), k') := by
  induction h with
  | @nil k h =>
    refine Filter.Eventually.of_forall fun n rounds toOperateOn operations hrounds => ?_
    obtain ⟨rounds, rfl⟩ := Nat.exists_eq_succ_of_ne_zero (by omega : rounds ≠ 0)
    rw [collectOperations]
    refine Parse.bind_ok.mpr ⟨_, _, Parse.get_ok.mpr ⟨rfl, rfl⟩, ?_⟩
    rw [List.map_nil, List.append_nil, List.map_nil, List.append_nil]
    by_cases hk : tokens.length ≤ k
    · rw [if_pos hk]
      rfl
    · rw [if_neg hk]
      have htoken := List.getElem?_eq_getElem (Nat.lt_of_not_le hk)
      refine Parse.bind_ok.mpr ⟨_, _, currentToken_ok.mpr ⟨htoken, rfl⟩, ?_⟩
      rw [h _ htoken]
      rfl
  | @cons k j k' token operation value rest htoken hoperation hlt hvalue _ ih =>
    filter_upwards [hvalue, ih] with n hvalue ih
    intro rounds toOperateOn operations hrounds
    obtain ⟨rounds, rfl⟩ := Nat.exists_eq_succ_of_ne_zero (by omega : rounds ≠ 0)
    obtain ⟨hk, _⟩ := List.getElem?_eq_some_iff.mp htoken
    rw [List.length_cons] at hrounds
    rw [collectOperations]
    refine Parse.bind_ok.mpr ⟨_, _, Parse.get_ok.mpr ⟨rfl, rfl⟩, ?_⟩
    rw [if_neg (by omega)]
    refine Parse.bind_ok.mpr ⟨token, _, currentToken_ok.mpr ⟨htoken, rfl⟩, ?_⟩
    rw [hoperation]
    refine Parse.bind_ok.mpr ⟨(), _, nextToken_ok.mpr rfl, ?_⟩
    refine Parse.bind_ok.mpr ⟨(), _, skipNewlinesAndIndents_ok.mpr rfl, ?_⟩
    refine Parse.bind_ok.mpr ⟨(), _, errorIfFinished_ok.mpr ⟨hlt, rfl⟩, ?_⟩
    refine Parse.bind_ok.mpr ⟨_, _, hvalue, ?_⟩
    have hrounds' := ih rounds (toOperateOn ++ [value]) (operations ++ [⟨operation, token.loc⟩])
      (by omega)
    rw [List.append_assoc, List.append_assoc] at hrounds'
    exact hrounds'

theorem OperationsAt.exists_operation {rest : List (OperationAt × ParsedValue)}
    (h : OperationsAt forms tokens k rest k') (hrest : rest ≠ []) :
    ∃ token operation, tokens[k]? = some token ∧ token.type.asOperation = some operation := by
  cases h with
  | nil => exact absurd rfl hrest
  | cons htoken hoperation => exact ⟨_, _, htoken, hoperation⟩

/-- A value with operators behind it, with `process_operations`. -/
theorem Behind.of_operations {first : ParsedValue} {rest : List (OperationAt × ParsedValue)}
    (h : OperationsAt forms tokens k rest k') (hrest : rest ≠ []) (hends : Ends tokens k')
    {result : ParsedValue} (hresult : convertToOperation rest.length (first :: rest.map Prod.snd)
      (rest.map Prod.fst) = .ok result) :
    ∀ᶠ n in atTop, parseSuffixes forms tokens (parseTokenFull forms tokens n true) true n first k =
      .ok (result, k') := by
  obtain ⟨token, operation, htoken, hoperation⟩ := h.exists_operation hrest
  have hskip := skipFrom_of_not_blank htoken (not_blank_of_asOperation hoperation)
  filter_upwards [h.collect, Filter.eventually_ge_atTop (rest.length + 2)] with n hcollect hn
  obtain ⟨n, rfl⟩ : ∃ m, n = m + 1 + 1 := ⟨n - 2, by omega⟩
  refine parseSuffixes_at (by rw [hskip]; exact htoken) ?_
  rw [suffixKind_of_asOperation hoperation, hskip]
  have hoperations := hcollect (n + 1) [first] [] (by omega)
  refine Parse.bind_ok.mpr ⟨result, k', ?_, ?_⟩
  · refine Parse.bind_ok.mpr ⟨_, _, hoperations, ?_⟩
    show (liftM (convertToOperation (rest.map Prod.fst).length (first :: rest.map Prod.snd)
      (rest.map Prod.fst)) : Parse ParsedValue) k' = _
    rw [List.length_map, hresult]
    rfl
  · exact parseSuffixes_of_ends hends

/-- An operand without `process_operations`. -/
theorem parse_operand_without (operand : Operand forms) {rest : List Token}
    (htokens : tokens.drop i = operand.tokens ++ rest)
    (hbehind : Behind forms tokens false (i + operand.tokens.length) f j)
    (hstop : Behind forms tokens false j id j) :
    ∀ᶠ n in atTop, parseTokenFull forms tokens n true false i =
      .ok (some (operand.parsed f), j) := by
  refine parse_operand operand htokens hbehind hstop (fun hnil => ?_) (fun _ => hstop _)
  rw [Operand.parsed, hnil]
  exact hbehind operand.primary.value

theorem Operand.exists_cons_tokens (operand : Operand forms) :
    ∃ token rest, operand.tokens = token :: rest ∧ token.type.isBlank = false := by
  obtain ⟨minuses, primary, hminuses⟩ := operand
  cases minuses with
  | nil =>
    obtain ⟨token, rest, htokens⟩ := List.exists_cons_of_ne_nil primary.tokens_ne_nil
    refine ⟨token, rest, htokens, primary.head_not_blank token ?_⟩
    rw [htokens]
    rfl
  | cons minus minuses =>
    refine ⟨minus, minuses ++ primary.tokens, rfl, ?_⟩
    rw [hminuses minus (List.mem_cons_self ..)]
    rfl

theorem drop_add {ts rest : List Token} (h : tokens.drop i = ts ++ rest) :
    tokens.drop (i + ts.length) = rest := by
  rw [← List.drop_drop, h, List.drop_left' rfl]

theorem lt_of_drop {token : Token} {rest : List Token} (h : tokens.drop i = token :: rest) :
    i < tokens.length := by
  have hlength := congrArg List.length h
  rw [List.length_drop, List.length_cons] at hlength
  omega

/-- The operators of an expression, and the operands behind them. -/
theorem operationsAt_rest (operand : Operand forms) {rest : List (OperationSign × Operand forms)}
    (hrest : rest ≠ []) {after : List Token} (htokens : tokens.drop k = restTokens rest ++ after)
    (hbehind : Behind forms tokens false (k + (restTokens rest).length) f k') (hends : Ends tokens k') :
    OperationsAt forms tokens k (parsedRest f operand rest).rest k' := by
  induction rest generalizing operand k with
  | nil => exact absurd rfl hrest
  | cons x rest ih =>
    obtain ⟨sign, operand'⟩ := x
    have htokens' : tokens.drop k = sign.token :: (operand'.tokens ++ (restTokens rest ++ after)) := by
      rw [htokens, restTokens, List.flatMap_cons, ← restTokens]
      simp
    obtain ⟨htoken, hoperand⟩ := getElem?_of_drop htokens'
    obtain ⟨first, others, hfirst, hblank⟩ := operand'.exists_cons_tokens
    have hoperand' : tokens.drop (k + 1) = first :: (others ++ (restTokens rest ++ after)) := by
      rw [hoperand, hfirst]
      rfl
    have hskip : skipFrom tokens (k + 1) = k + 1 :=
      skipFrom_of_not_blank (getElem?_of_drop hoperand').1 hblank
    have hlength : k + (restTokens ((sign, operand') :: rest)).length =
        k + 1 + operand'.tokens.length + (restTokens rest).length := by
      rw [restTokens, List.flatMap_cons, List.length_append, List.length_cons, ← restTokens]
      dsimp only
      omega
    rw [hlength] at hbehind
    have hdrop := drop_add hoperand
    have hlt : skipFrom tokens (k + 1) < tokens.length := by
      rw [hskip]
      exact lt_of_drop hoperand'
    cases rest with
    | nil =>
      -- `f` is done to the last operand.
      have hstop : Behind forms tokens false k' id k' := .of_ends hends
      have hvalue := parse_operand_without operand' hoperand hbehind hstop
      exact .cons htoken sign.token_type hlt (by rw [hskip]; exact hvalue) (.nil fun _ => hends.asOperation)
    | cons y rest =>
      have hsigns : tokens.drop (k + 1 + operand'.tokens.length) =
          y.1.token :: (y.2.tokens ++ (restTokens rest ++ after)) := by
        rw [hdrop, restTokens, List.flatMap_cons, ← restTokens]
        simp
      have hstop : Behind forms tokens false (k + 1 + operand'.tokens.length) id _ :=
        .of_operation (getElem?_of_drop hsigns).1 y.1.token_type
      have hvalue := parse_operand_without operand' hoperand hstop hstop
      exact .cons htoken sign.token_type hlt (by rw [hskip]; exact hvalue)
        (ih operand' (List.cons_ne_nil _ _) hdrop hbehind)

theorem parsedRest_first {operand : Operand forms} {rest : List (OperationSign × Operand forms)}
    (h : rest ≠ []) : (parsedRest f operand rest).first = operand.parsed id := by
  cases rest with
  | nil => exact absurd rfl h
  | cons x rest => rfl

theorem parsedRest_rest_ne_nil {operand : Operand forms}
    {rest : List (OperationSign × Operand forms)} (h : rest ≠ []) :
    (parsedRest f operand rest).rest ≠ [] := by
  cases rest with
  | nil => exact absurd rfl h
  | cons x rest => exact List.cons_ne_nil _ _

/-- An expression with something behind it: what `f` the loop for suffixes does there is done to the
value behind the last signs, and the operators are a tree over that. -/
theorem parseToken_expression (e : Expression forms) {after : List Token}
    (htokens : tokens.drop i = e.tokens ++ after)
    (hbehind : ∀ process, Behind forms tokens process (i + e.tokens.length) f k')
    (hends : Ends tokens k') {result : ParsedValue}
    (hresult : e.value f = .ok result) :
    ∀ᶠ n in atTop, parseTokenFull forms tokens n inlineFlag true i = .ok (some result, k') := by
  obtain ⟨operand, rest⟩ := e
  unfold Expression.tokens at htokens hbehind
  unfold Expression.value Expression.parsed at hresult
  dsimp only at htokens hbehind hresult
  by_cases hrest : rest = []
  · subst hrest
    cases hresult
    have htokens' : tokens.drop i = operand.tokens ++ after := by rw [htokens, restTokens]; simp
    have hbehind' (process : Bool) :
        Behind forms tokens process (i + operand.tokens.length) f k' := by
      have := hbehind process
      rwa [restTokens, List.flatMap_nil, List.append_nil] at this
    refine parse_operand operand htokens' (hbehind' false) (.of_ends hends) (fun hnil => ?_)
      fun _ => Behind.of_ends hends _
    rw [Operand.parsed, hnil]
    exact hbehind' true operand.primary.value
  · have htokens' : tokens.drop i = operand.tokens ++ (restTokens rest ++ after) := by
      rw [htokens, List.append_assoc]
    have hdrop := drop_add htokens'
    rw [List.length_append, ← Nat.add_assoc] at hbehind
    have hoperations := operationsAt_rest operand hrest hdrop (hbehind false) hends
    have hvalue : ∀ᶠ n in atTop, parseSuffixes forms tokens (parseTokenFull forms tokens n true) true
        n (operand.parsed id) (i + operand.tokens.length) = .ok (result, k') := by
      refine Behind.of_operations hoperations (parsedRest_rest_ne_nil hrest) hends ?_
      rw [← parsedRest_first (f := f) hrest, ← hresult, Chain.seps, List.length_map]
      rfl
    obtain ⟨token, operation, htoken, hoperation⟩ := hoperations.exists_operation
      (parsedRest_rest_ne_nil hrest)
    have hstop : Behind forms tokens false (i + operand.tokens.length) id _ :=
      .of_operation htoken hoperation
    refine parse_operand operand htokens' hstop hstop (fun hnil => ?_) fun _ => hvalue
    rw [Operand.parsed, hnil] at hvalue
    exact hvalue

end

/-! ## Ranges -/

/-- `parse_token` gives a value from a place to another. -/
def Parses (forms : OtherForms) (tokens : List Token) (inlineFlag : Bool) (i : ℕ) (value : ParsedValue)
    (k : ℕ) : Prop :=
  ∀ᶠ n in atTop, parseTokenFull forms tokens n inlineFlag true i = .ok (some value, k)

/-- The source `e₁ to e₂` or `e₁ until e₂`, with tokens around it that are none of `e₂`. -/
structure RangeSource (forms : OtherForms) where
  before : List Token
  start : Expression forms
  token : Token
  stop : Expression forms
  after : List Token
  token_type : token.type = .to ∨ token.type = .until
  after_ends : ∀ next ∈ (after.dropWhile fun token => token.type.isBlank).head?,
    next.type.suffixKind = .none

namespace RangeSource

variable {forms : OtherForms} (source : RangeSource forms)

def tokens : List Token :=
  source.before ++ (source.start.tokens ++ source.token :: (source.stop.tokens ++ source.after))

/-- The place of the token of the range. -/
def middle : ℕ := source.before.length + source.start.tokens.length

/-- The place behind the range. -/
def finish : ℕ := source.middle + 1 + source.stop.tokens.length

/-- The source is the range from what the one expression is to what the other is, each by itself. -/
def Meets : Prop :=
  ∀ inlineFlag start stop,
    Parses forms source.start.tokens inlineFlag 0 start source.start.tokens.length →
    Parses forms source.stop.tokens inlineFlag 0 stop source.stop.tokens.length →
    Parses forms source.tokens inlineFlag source.before.length
      (.range source.token.loc start stop (source.token.type = .to)) source.finish

/-- There is no operator in front of the range, and no sign. -/
def Unsigned : Prop := source.start.rest = [] ∧ source.start.first.minuses = []

end RangeSource

section

variable {forms : OtherForms} {tokens : List Token} {i k : ℕ} {inlineFlag : Bool}

theorem Parses.unique {v v' : ParsedValue} {k' : ℕ} (h : Parses forms tokens inlineFlag i v k)
    (h' : Parses forms tokens inlineFlag i v' k') : v = v' := by
  obtain ⟨n, hn, hn'⟩ := (h.and h').exists
  rw [hn, Except.ok.injEq, Prod.mk.injEq, Option.some.injEq] at hn'
  exact hn'.1

/-- Every expression has a value. -/
theorem Expression.exists_value (e : Expression forms) (f : ParsedValue → ParsedValue) :
    ∃ value, e.value f = .ok value := by
  obtain ⟨tree, -, htree⟩ := convertToOperation_chain (e.parsed f)
  exact ⟨tree.value, htree _ le_rfl⟩

/-- With operators the value is an operation. -/
theorem Expression.value_of_rest {e : Expression forms} (h : e.rest ≠ [])
    {f : ParsedValue → ParsedValue} {value : ParsedValue} (hvalue : e.value f = .ok value) :
    ∃ loc operation first rest, value = .operation loc operation first rest := by
  obtain ⟨tree, htree, hconvert⟩ := convertToOperation_chain (e.parsed f)
  rw [Expression.value, hconvert _ le_rfl, Except.ok.injEq] at hvalue
  obtain ⟨o, ho⟩ := List.exists_mem_of_ne_nil (e.parsed f).seps fun hnil =>
    parsedRest_rest_ne_nil h (List.map_eq_nil_iff.mp hnil)
  obtain ⟨operation, hroot, -⟩ := htree.isOf.root_loosest o ho
  subst hvalue
  cases tree with
  | operand value => cases hroot
  | operation loc operation first rest => exact ⟨loc, operation, _, _, rfl⟩

theorem ends_of_after {after : List Token} (htokens : tokens.drop k = after)
    (h : ∀ next ∈ (after.dropWhile fun token => token.type.isBlank).head?,
      next.type.suffixKind = .none) : Ends tokens k := by
  intro token htoken
  have hdrop : (tokens.drop k)[(after.takeWhile fun token => token.type.isBlank).length]? =
      some token := by
    rw [← htoken, List.getElem?_drop, skipFrom, htokens]
  have hrest : after.drop (after.takeWhile fun token => token.type.isBlank).length =
      after.dropWhile fun token => token.type.isBlank := by
    nth_rewrite 2 [← List.takeWhile_append_dropWhile (p := fun token : Token => token.type.isBlank)
      (l := after)]
    exact List.drop_left' rfl
  rw [htokens, ← List.head?_drop, hrest] at hdrop
  exact h token hdrop

/-- An expression by itself. -/
theorem parses_alone (e : Expression forms) {value : ParsedValue} (hvalue : e.value id = .ok value) :
    Parses forms e.tokens inlineFlag 0 value e.tokens.length := by
  have hdrop : e.tokens.drop (0 + e.tokens.length) = [] := by rw [Nat.zero_add, List.drop_length]
  have hends : Ends e.tokens (0 + e.tokens.length) := ends_of_after hdrop nofun
  have htokens : e.tokens.drop 0 = e.tokens ++ [] := by rw [List.append_nil, List.drop_zero]
  have hparse : Parses forms e.tokens inlineFlag 0 value (0 + e.tokens.length) :=
    parseToken_expression e htokens (fun _ => Behind.of_ends hends) hends hvalue
  rwa [Nat.zero_add] at hparse

/-- What is behind an expression that a range follows. -/
theorem Behind.of_range {token : Token} (htype : token.type = .to ∨ token.type = .until)
    {stop : Expression forms} {after : List Token}
    (htokens : tokens.drop k = token :: (stop.tokens ++ after))
    (hends : Ends tokens (k + 1 + stop.tokens.length)) {value : ParsedValue}
    (hvalue : stop.value id = .ok value) (process : Bool) :
    Behind forms tokens process k (fun start => .range token.loc start value (token.type = .to))
      (k + 1 + stop.tokens.length) := by
  obtain ⟨htoken, hstop⟩ := getElem?_of_drop htokens
  have hkind : token.type.suffixKind = .range := by rcases htype with h | h <;> rw [h] <;> rfl
  have hblank : token.type.isBlank = false := by rcases htype with h | h <;> rw [h] <;> rfl
  have hskip := skipFrom_of_not_blank htoken hblank
  have hparse : Parses forms tokens true (k + 1) value (k + 1 + stop.tokens.length) :=
    parseToken_expression stop hstop (fun _ => Behind.of_ends hends) hends hvalue
  obtain ⟨first, others, hfirst, -⟩ := stop.first.exists_cons_tokens
  have hstop' : tokens.drop (k + 1) = first :: (others ++ (restTokens stop.rest ++ after)) := by
    rw [hstop, Expression.tokens, hfirst]
    simp
  have hlt := lt_of_drop hstop'
  intro start
  filter_upwards [hparse, Filter.eventually_ge_atTop 2] with n hparse hn
  obtain ⟨n, rfl⟩ : ∃ m, n = m + 1 + 1 := ⟨n - 2, by omega⟩
  refine parseSuffixes_at (by rw [hskip]; exact htoken) ?_
  rw [hkind, hskip]
  refine Parse.bind_ok.mpr ⟨.range token.loc start value (token.type = .to), _, ?_,
    parseSuffixes_of_ends hends⟩
  refine Parse.bind_ok.mpr ⟨token, _, currentToken_ok.mpr ⟨htoken, rfl⟩, ?_⟩
  refine Parse.bind_ok.mpr ⟨(), _, nextToken_ok.mpr rfl, ?_⟩
  refine Parse.bind_ok.mpr ⟨(), _, errorIfFinished_ok.mpr ⟨hlt, rfl⟩, ?_⟩
  exact Parse.bind_ok.mpr ⟨_, _, hparse, rfl⟩

end

theorem ParsedValue.negated_ne_range (value : ParsedValue) {loc : SourceLocation}
    {start stop : ParsedValue} {inclusive : Bool} : value.negated ≠ .range loc start stop inclusive := by
  cases value <;> nofun

namespace RangeSource

variable {forms : OtherForms} (source : RangeSource forms)

/-- The range of a value to the other expression. -/
def rangeTo (stop start : ParsedValue) : ParsedValue :=
  .range source.token.loc start stop (source.token.type = .to)

/-- The range is made of the value behind the last signs. -/
theorem parses {stop value : ParsedValue} (hstop : source.stop.value id = .ok stop)
    (hvalue : source.start.value (source.rangeTo stop) = .ok value) (inlineFlag : Bool) :
    Parses forms source.tokens inlineFlag source.before.length value source.finish := by
  have hstart : source.tokens.drop source.before.length =
      source.start.tokens ++ source.token :: (source.stop.tokens ++ source.after) :=
    List.drop_left' rfl
  have hmiddle : source.tokens.drop source.middle =
      source.token :: (source.stop.tokens ++ source.after) := drop_add hstart
  have hfinish : source.tokens.drop source.finish = source.after :=
    drop_add (getElem?_of_drop hmiddle).2
  have hends : Ends source.tokens source.finish := ends_of_after hfinish source.after_ends
  exact parseToken_expression source.start hstart
    (Behind.of_range source.token_type hmiddle hends hstop) hends hvalue

theorem Unsigned.value_eq {source : RangeSource forms} (h : source.Unsigned)
    (f : ParsedValue → ParsedValue) : source.start.value f = .ok (f source.start.first.primary.value) := by
  unfold Expression.value Expression.parsed
  rw [h.1, parsedRest, Operand.parsed, h.2]
  rfl

theorem meets_of_unsigned (h : source.Unsigned) : source.Meets := by
  intro inlineFlag start stop hstart hstop
  obtain ⟨start', hstart'⟩ := source.start.exists_value id
  obtain ⟨stop', hstop'⟩ := source.stop.exists_value id
  obtain rfl := hstart.unique (parses_alone source.start hstart')
  obtain rfl := hstop.unique (parses_alone source.stop hstop')
  have hstart'' : source.start.value (source.rangeTo stop) = .ok (source.rangeTo stop start) := by
    rw [h.value_eq] at hstart' ⊢
    cases hstart'
    rfl
  exact source.parses hstop' hstart'' inlineFlag

theorem unsigned_of_meets (h : source.Meets) : source.Unsigned := by
  obtain ⟨start, hstart⟩ := source.start.exists_value id
  obtain ⟨stop, hstop⟩ := source.stop.exists_value id
  obtain ⟨value, hvalue⟩ := source.start.exists_value (source.rangeTo stop)
  have hrange : value = source.rangeTo stop start :=
    (source.parses hstop hvalue true).unique
      (h true start stop (parses_alone source.start hstart) (parses_alone source.stop hstop))
  by_cases hrest : source.start.rest = []
  · refine ⟨hrest, ?_⟩
    have hparsed : value = source.start.first.parsed (source.rangeTo stop) := by
      unfold Expression.value Expression.parsed at hvalue
      rw [hrest] at hvalue
      cases hvalue
      rfl
    cases hminuses : source.start.first.minuses with
    | nil => rfl
    | cons minus minuses =>
      -- The signs are made of the range.
      rw [hparsed, Operand.parsed, hminuses, List.length_cons, Function.iterate_succ_apply'] at hrange
      exact absurd hrange (ParsedValue.negated_ne_range _)
  · obtain ⟨loc, operation, first, rest, rfl⟩ := Expression.value_of_rest hrest hvalue
    cases hrange

/-- A range is between its two expressions if and only if there is no operator in front of it. -/
theorem range_between_iff : source.Meets ↔ source.Unsigned :=
  ⟨source.unsigned_of_meets, source.meets_of_unsigned⟩

/-- A name of one letter as an operand. -/
def name {forms : OtherForms} (bytes : List UInt8) (column : UInt64) : Operand forms where
  minuses := []
  primary := @Primary.ofAtom forms ⟨.identifier, 1, column, 1, bytes⟩ _ rfl
  minuses_type := nofun

/-- `a + b to c` -/
def ofSum (forms : OtherForms) : RangeSource forms where
  before := []
  start := ⟨name [97] 1, [(⟨⟨.plus, 1, 3, 1, [43]⟩, .plus, rfl⟩, name [98] 5)]⟩
  token := ⟨.to, 1, 7, 2, [116, 111]⟩
  stop := ⟨name [99] 10, []⟩
  after := []
  token_type := .inl rfl
  after_ends := nofun

theorem not_forall_range_between : ¬∀ (forms : OtherForms) (source : RangeSource forms), source.Meets := by
  intro h
  let forms : OtherForms := ⟨fun _ => throw .exit, fun _ => throw .exit, fun _ _ => throw .exit,
    fun _ => throw .exit⟩
  have hstart := (ofSum forms).unsigned_of_meets (h forms (ofSum forms))
  exact List.cons_ne_nil _ _ hstart.1

end RangeSource

end Chloride
