import Chloride.Parser.Tokens
import Chloride.Translator.ParsedValue

/-!
# Parsing of calls

`parse_call` and `parse_arg_list` of `src/parser/assignable/call/call.c`, over `parse_token` for the
expressions. `ArgumentsAt` is the grammar of an argument list without the parser's state: the arguments
in the order of the source. `parseArgList_arguments` says that a list the parser accepts is one of the
grammar, and that the parser sorts its arguments by kind and keeps their order in each kind.
-/

namespace Chloride

/-- `AssignMode`. -/
inductive AssignMode where
  | notAllowed | allowed | required
  deriving DecidableEq

/-- The stages of an argument list: `0=positional 1=*arg 2=kwargs 3=**arg`. -/
inductive CallStage where
  | positional | vArg | kwargs | kwArg
  deriving DecidableEq

/-- `CallArgState`. -/
structure CallArgState where
  args : List ParsedValue
  kwargs : List (Name × ParsedValue)
  vArg : Option ParsedValue
  kwArg : Option ParsedValue
  stage : CallStage
  assignMode : AssignMode

/-- `call_arg_state_init`. -/
def CallArgState.init : CallArgState := ⟨[], [], none, none, .positional, .allowed⟩

/-- `ParsedCall`. -/
structure ParsedCall where
  toCall : ParsedValue
  args : List ParsedValue
  kwargs : List (Name × ParsedValue)
  vArg : Option ParsedValue
  kwArg : Option ParsedValue
  assignMode : AssignMode
  line : UInt64
  column : UInt64

/-- The call as the translator reads it. -/
def ParsedCall.value (call : ParsedCall) : ParsedValue :=
  .call call.line call.column call.toCall call.args call.vArg call.kwargs call.kwArg

def ParsedValue.isIdentifier : ParsedValue → Bool
  | .identifier _ => true
  | _ => false

/-- The mode after an argument: only identifiers can be parameters. -/
def AssignMode.after (mode : AssignMode) (token : Token) (value : ParsedValue) : AssignMode :=
  if mode = .allowed then
    if token.type = .identifier ∧ value.isIdentifier then .allowed else .notAllowed
  else mode

/-- A keyword argument ends the positional ones, unless `*` did. -/
def CallStage.keyword (stage : CallStage) : CallStage :=
  if stage = .positional then .kwargs else stage

section

-- `readName` is the name that C reads where a parsed value is taken for an identifier: of one that is
-- not, it may read anything or crash.
variable (siphash : List UInt8 → UInt64) (readName : ParsedValue → Option Name)

/-- The names of the list that were not seen before, until one that was. -/
def seeNames : List ParsedValue → List UInt64 → Parse (Bool × List UInt64)
  | [], seen => return (false, seen)
  | value :: values, seen =>
    match readName value with
    | none => throw .undefined
    | some name =>
      if siphash name ∈ seen then return (true, seen)
      else seeNames values (siphash name :: seen)

/-- `RETURN_CHECKS`: a name that is there twice cannot be a parameter. -/
def returnChecks (cs : CallArgState) : Parse CallArgState := do
  if cs.assignMode = .notAllowed then return cs
  let (twice, seen) ← seeNames siphash readName cs.args []
  let (twice', seen) ← seeNames siphash readName cs.vArg.toList seen
  let (twice'', _) ← seeNames siphash readName cs.kwArg.toList seen
  return if twice || twice' || twice'' then { cs with assignMode := .notAllowed } else cs

-- `parseToken` is `parse_token` with `inline_flag`.
variable (tokens : List Token) (parseToken : Parse (Option ParsedValue))

/-- `*expr` and `**expr`. -/
def parseStarArgument (cs : CallArgState) : Parse CallArgState := do
  nextToken
  errorIfFinished tokens
  let token ← currentToken tokens
  if token.type = .star then
    if cs.kwArg.isSome then syntaxError token "only one **expr argument is allowed"
    else
      nextToken
      let token ← currentToken tokens
      match ← parseToken with
      | none => syntaxError token "expected value after **"
      | some value =>
        return { cs with
          kwArg := some value
          assignMode := cs.assignMode.after token value
          stage := .kwArg }
  else if cs.vArg.isSome then syntaxError token "only one *expr argument is allowed"
  else
    match ← parseToken with
    | none => syntaxError token "expected value after *"
    | some value =>
      return { cs with
        vArg := some value
        assignMode := cs.assignMode.after token value
        stage := .vArg }

/-- `name=expr`; the index is at the name. -/
def parseKeywordArgument (cs : CallArgState) (token : Token) : Parse CallArgState := do
  nextToken
  nextToken
  skipNewlinesAndIndents tokens
  errorIfFinished tokens
  match ← parseToken with
  | none => syntaxError token "expected value"
  | some value =>
    return { cs with kwargs := cs.kwargs ++ [(token.value, value)], stage := cs.stage.keyword }

/-- `name?`, which is `name=null`; the index is at the name. -/
def parseNullArgument (cs : CallArgState) (token : Token) : Parse CallArgState := do
  nextToken
  if cs.assignMode = .notAllowed then
    syntaxError token "using ? shorthand in a call which cannot be assigned to."
  else
    nextToken
    if cs.stage = .kwArg then syntaxError token "no arguments allowed after **token"
    else
      return { cs with
        kwargs := cs.kwargs ++ [(token.value, .null)]
        stage := cs.stage.keyword
        assignMode := .required }

/-- An argument by position. -/
def parsePositionalArgument (cs : CallArgState) (token : Token) : Parse CallArgState := do
  if cs.stage = .kwargs then syntaxError token "positional argument follows keyword argument"
  else if cs.stage = .kwArg then syntaxError token "no arguments allowed after **token"
  else
    match ← parseToken with
    | none => syntaxError token "expected argument"
    | some value =>
      return { cs with
        args := cs.args ++ [value]
        assignMode := cs.assignMode.after token value }

/-- The comma or the parenthesis behind an argument; whether it is the parenthesis. -/
def endOfArgument (message : String) (cs : CallArgState) : Parse (Bool × CallArgState) := do
  skipNewlinesAndIndents tokens
  errorIfFinished tokens
  let token ← currentToken tokens
  if token.type = .rparen then
    let cs ← returnChecks siphash readName cs
    nextToken
    return (true, cs)
  else if token.type ≠ .comma then syntaxError token message
  else
    nextToken
    return (false, cs)

/-- One round of the loop of `parse_arg_list`; whether the list is at its end. -/
def parseArgument (cs : CallArgState) : Parse (Bool × CallArgState) := do
  skipNewlinesAndIndents tokens
  errorIfFinished tokens
  let token ← currentToken tokens
  if token.type = .rparen then
    nextToken
    return (true, cs)
  else if token.type = .star then
    let cs ← parseStarArgument tokens parseToken cs
    endOfArgument siphash readName tokens "expected comma or ) after *expr/**expr" cs
  else
    let isKwarg ← followedBy tokens .assign
    let isNullShorthand ← followedBy tokens .question
    let cs ← (
      if token.type = .identifier ∧ cs.stage ≠ .kwArg ∧ isKwarg then
        parseKeywordArgument tokens parseToken cs token
      else if token.type = .identifier ∧ isNullShorthand then parseNullArgument cs token
      else parsePositionalArgument parseToken cs token)
    let (done, cs) ← endOfArgument siphash readName tokens "expected comma" cs
    if done then return (true, cs)
    else
      errorIfFinished tokens
      return (false, cs)

/-- `parse_arg_list`, for a number of rounds. -/
def parseArgList : ℕ → CallArgState → Parse CallArgState
  | 0, _ => throw .unfinished
  | rounds + 1, cs => do
    if tokens.length ≤ (← get) then
      throw (.error ⟨⟨0, 0, 0⟩, "unexpected end of file in argument list"⟩)
    else
      let (done, cs) ← parseArgument siphash readName tokens parseToken cs
      if done then return cs else parseArgList rounds cs

/-- `parse_call`; the index is at the parenthesis. -/
def parseCall (rounds : ℕ) (toCall : ParsedValue) : Parse ParsedCall := do
  let token ← currentToken tokens
  nextToken
  errorIfFinished tokens
  let next ← currentToken tokens
  let cs ← (
    if next.type ≠ .rparen then
      parseArgList siphash readName tokens parseToken rounds CallArgState.init
    else do
      nextToken
      return CallArgState.init)
  return ⟨toCall, cs.args, cs.kwargs, cs.vArg, cs.kwArg, cs.assignMode, token.line, token.column⟩

end

/-! ## The arguments in the order of the source -/

/-- An argument of a call. -/
inductive Argument where
  | positional (value : ParsedValue)
  | spread (value : ParsedValue)
  | keyword (name : Name) (value : ParsedValue)
  | keywordSpread (value : ParsedValue)

namespace Argument

/-- The expression of an argument. -/
def value : Argument → ParsedValue
  | positional value | spread value | keyword _ value | keywordSpread value => value

def positional? : Argument → Option ParsedValue
  | positional value => some value
  | _ => none

def spread? : Argument → Option ParsedValue
  | spread value => some value
  | _ => none

def keyword? : Argument → Option (Name × ParsedValue)
  | keyword name value => some (name, value)
  | _ => none

def keywordSpread? : Argument → Option ParsedValue
  | keywordSpread value => some value
  | _ => none

end Argument

section

variable (tokens : List Token) (parseToken : Parse (Option ParsedValue))

/-- There is a token of a type at a place. -/
def TokenAt (i : ℕ) (type : TokenType) : Prop := ∃ token, tokens[i]? = some token ∧ token.type = type

/-- An argument from a place to another. -/
inductive ArgumentAt : ℕ → Argument → ℕ → Prop where
  | spread {i j : ℕ} {value : ParsedValue} : TokenAt tokens i .star → ¬TokenAt tokens (i + 1) .star →
    parseToken (i + 1) = .ok (some value, j) → ArgumentAt i (.spread value) j
  | keywordSpread {i j : ℕ} {value : ParsedValue} : TokenAt tokens i .star →
    TokenAt tokens (i + 1) .star → parseToken (i + 2) = .ok (some value, j) →
    ArgumentAt i (.keywordSpread value) j
  | keyword {i j : ℕ} {token : Token} {value : ParsedValue} : tokens[i]? = some token →
    token.type = .identifier → TokenAt tokens (i + 1) .assign →
    parseToken (skipFrom tokens (i + 2)) = .ok (some value, j) →
    ArgumentAt i (.keyword token.value value) j
  | null {i : ℕ} {token : Token} : tokens[i]? = some token → token.type = .identifier →
    TokenAt tokens (i + 1) .question → ArgumentAt i (.keyword token.value .null) (i + 2)
  | positional {i j : ℕ} {value : ParsedValue} : ¬TokenAt tokens i .star →
    ¬(TokenAt tokens i .identifier ∧
      (TokenAt tokens (i + 1) .assign ∨ TokenAt tokens (i + 1) .question)) →
    parseToken i = .ok (some value, j) → ArgumentAt i (.positional value) j

/-- The arguments from a place behind the opening parenthesis or a comma to the place behind the
closing parenthesis. -/
inductive ArgumentsAt : ℕ → List Argument → ℕ → Prop where
  | close {i : ℕ} : TokenAt tokens (skipFrom tokens i) .rparen →
    ArgumentsAt i [] (skipFrom tokens i + 1)
  | last {i j : ℕ} {a : Argument} : ¬TokenAt tokens (skipFrom tokens i) .rparen →
    ArgumentAt tokens parseToken (skipFrom tokens i) a j → TokenAt tokens (skipFrom tokens j) .rparen →
    ArgumentsAt i [a] (skipFrom tokens j + 1)
  | cons {i j k : ℕ} {a : Argument} {as : List Argument} :
    ¬TokenAt tokens (skipFrom tokens i) .rparen →
    ArgumentAt tokens parseToken (skipFrom tokens i) a j → TokenAt tokens (skipFrom tokens j) .comma →
    ArgumentsAt (skipFrom tokens j + 1) as k → ArgumentsAt i (a :: as) k

end

/-! ## What the parser collects -/

/-- The tree of a call holds these arguments. -/
structure ParsedCall.Holds (call : ParsedCall) (as : List Argument) : Prop where
  args : call.args = as.filterMap Argument.positional?
  kwargs : call.kwargs = as.filterMap Argument.keyword?
  vArg : call.vArg.toList = as.filterMap Argument.spread?
  kwArg : call.kwArg.toList = as.filterMap Argument.keywordSpread?

/-- The state after some more arguments: those of each kind in the order in which they came. -/
structure Collects (cs : CallArgState) (as : List Argument) (cs' : CallArgState) : Prop where
  args : cs'.args = cs.args ++ as.filterMap Argument.positional?
  kwargs : cs'.kwargs = cs.kwargs ++ as.filterMap Argument.keyword?
  vArg : cs'.vArg.toList = cs.vArg.toList ++ as.filterMap Argument.spread?
  kwArg : cs'.kwArg.toList = cs.kwArg.toList ++ as.filterMap Argument.keywordSpread?

theorem Collects.refl (cs : CallArgState) : Collects cs [] cs :=
  ⟨(List.append_nil _).symm, (List.append_nil _).symm, (List.append_nil _).symm,
    (List.append_nil _).symm⟩

theorem Collects.trans {cs cs' cs'' : CallArgState} {as bs : List Argument} (h : Collects cs as cs')
    (h' : Collects cs' bs cs'') : Collects cs (as ++ bs) cs'' := by
  refine ⟨?_, ?_, ?_, ?_⟩
  · rw [h'.args, h.args, List.filterMap_append, List.append_assoc]
  · rw [h'.kwargs, h.kwargs, List.filterMap_append, List.append_assoc]
  · rw [h'.vArg, h.vArg, List.filterMap_append, List.append_assoc]
  · rw [h'.kwArg, h.kwArg, List.filterMap_append, List.append_assoc]

section

variable {siphash : List UInt8 → UInt64} {readName : ParsedValue → Option Name}
  {tokens : List Token} {parseToken : Parse (Option ParsedValue)}

theorem seeNames_index {values : List ParsedValue} {seen : List UInt64} {r : Bool × List UInt64}
    {i k : ℕ} (h : seeNames siphash readName values seen i = .ok (r, k)) : i = k := by
  induction values generalizing seen with
  | nil => exact (Parse.pure_ok.mp h).2
  | cons value values ih =>
    unfold seeNames at h
    cases hname : readName value with
    | none =>
      rw [hname] at h
      cases h
    | some name =>
      rw [hname] at h
      dsimp only at h
      by_cases hseen : siphash name ∈ seen
      · rw [if_pos hseen] at h
        exact (Parse.pure_ok.mp h).2
      · rw [if_neg hseen] at h
        exact ih h

/-- The checks at the end change the mode at most. -/
theorem returnChecks_collects {cs cs' : CallArgState} {i k : ℕ}
    (h : returnChecks siphash readName cs i = .ok (cs', k)) : Collects cs [] cs' ∧ i = k := by
  have hsame : ∀ (b : Bool), Collects cs [] (if b then { cs with assignMode := .notAllowed } else cs) := by
    intro b
    cases b with
    | false => exact Collects.refl cs
    | true =>
      have hrefl := Collects.refl cs
      exact ⟨hrefl.args, hrefl.kwargs, hrefl.vArg, hrefl.kwArg⟩
  unfold returnChecks at h
  by_cases hmode : cs.assignMode = .notAllowed
  · rw [if_pos hmode] at h
    obtain ⟨rfl, rfl⟩ := Parse.pure_ok.mp h
    exact ⟨Collects.refl cs, rfl⟩
  · rw [if_neg hmode] at h
    obtain ⟨⟨twice, seen⟩, _, hseen, h⟩ := Parse.bind_ok.mp h
    obtain ⟨⟨twice', seen'⟩, _, hseen', h⟩ := Parse.bind_ok.mp h
    obtain ⟨⟨twice'', seen''⟩, _, hseen'', h⟩ := Parse.bind_ok.mp h
    obtain rfl := seeNames_index hseen
    obtain rfl := seeNames_index hseen'
    obtain rfl := seeNames_index hseen''
    obtain ⟨rfl, rfl⟩ := Parse.pure_ok.mp h
    exact ⟨hsame _, rfl⟩

theorem followedBy_iff {type : TokenType} {i j : ℕ} {b : Bool}
    (h : followedBy tokens type i = .ok (b, j)) : (b = true ↔ TokenAt tokens (i + 1) type) ∧ i = j := by
  obtain ⟨rfl, rfl⟩ := followedBy_ok.mp h
  refine ⟨?_, rfl⟩
  rw [Option.any_eq_true]
  constructor
  · rintro ⟨token, htoken, htype⟩
    exact ⟨token, htoken, of_decide_eq_true htype⟩
  · rintro ⟨token, htoken, htype⟩
    exact ⟨token, htoken, decide_eq_true htype⟩

/-- `*expr` and `**expr`. -/
theorem parseStarArgument_argument {cs cs' : CallArgState} {i j : ℕ} (hstar : TokenAt tokens i .star)
    (h : parseStarArgument tokens parseToken cs i = .ok (cs', j)) :
    ∃ a, ArgumentAt tokens parseToken i a j ∧ Collects cs [a] cs' := by
  unfold parseStarArgument at h
  obtain ⟨_, _, hnext, h⟩ := Parse.bind_ok.mp h
  obtain rfl := nextToken_ok.mp hnext
  obtain ⟨_, _, hfinished, h⟩ := Parse.bind_ok.mp h
  obtain ⟨_, rfl⟩ := errorIfFinished_ok.mp hfinished
  obtain ⟨token, _, hcurrent, h⟩ := Parse.bind_ok.mp h
  obtain ⟨htoken, rfl⟩ := currentToken_ok.mp hcurrent
  by_cases htype : token.type = .star
  · rw [if_pos htype] at h
    by_cases hsome : cs.kwArg.isSome = true
    · rw [if_pos hsome] at h
      exact absurd h syntaxError_ok
    rw [if_neg hsome] at h
    obtain ⟨_, _, hnext, h⟩ := Parse.bind_ok.mp h
    obtain rfl := nextToken_ok.mp hnext
    obtain ⟨token', _, hcurrent, h⟩ := Parse.bind_ok.mp h
    obtain ⟨_, rfl⟩ := currentToken_ok.mp hcurrent
    obtain ⟨value, _, hvalue, h⟩ := Parse.bind_ok.mp h
    cases value with
    | none => exact absurd h syntaxError_ok
    | some value =>
      obtain ⟨rfl, rfl⟩ := Parse.pure_ok.mp h
      have hnone : cs.kwArg = none := Option.not_isSome_iff_eq_none.mp hsome
      refine ⟨.keywordSpread value, .keywordSpread hstar ⟨token, htoken, htype⟩ hvalue, ?_⟩
      refine ⟨(List.append_nil _).symm, (List.append_nil _).symm, (List.append_nil _).symm, ?_⟩
      rw [hnone]
      rfl
  · rw [if_neg htype] at h
    by_cases hsome : cs.vArg.isSome = true
    · rw [if_pos hsome] at h
      exact absurd h syntaxError_ok
    rw [if_neg hsome] at h
    obtain ⟨value, _, hvalue, h⟩ := Parse.bind_ok.mp h
    cases value with
    | none => exact absurd h syntaxError_ok
    | some value =>
      obtain ⟨rfl, rfl⟩ := Parse.pure_ok.mp h
      have hnone : cs.vArg = none := Option.not_isSome_iff_eq_none.mp hsome
      have hnot : ¬TokenAt tokens (i + 1) .star := by
        rintro ⟨other, hother, htype'⟩
        rw [htoken, Option.some.injEq] at hother
        exact htype (hother ▸ htype')
      refine ⟨.spread value, .spread hstar hnot hvalue, ?_⟩
      refine ⟨(List.append_nil _).symm, (List.append_nil _).symm, ?_, (List.append_nil _).symm⟩
      rw [hnone]
      rfl

theorem parseKeywordArgument_argument {cs cs' : CallArgState} {token : Token} {i j : ℕ}
    (htoken : tokens[i]? = some token) (htype : token.type = .identifier)
    (hassign : TokenAt tokens (i + 1) .assign)
    (h : parseKeywordArgument tokens parseToken cs token i = .ok (cs', j)) :
    ∃ a, ArgumentAt tokens parseToken i a j ∧ Collects cs [a] cs' := by
  unfold parseKeywordArgument at h
  obtain ⟨_, _, hnext, h⟩ := Parse.bind_ok.mp h
  obtain rfl := nextToken_ok.mp hnext
  obtain ⟨_, _, hnext, h⟩ := Parse.bind_ok.mp h
  obtain rfl := nextToken_ok.mp hnext
  obtain ⟨_, _, hskip, h⟩ := Parse.bind_ok.mp h
  obtain rfl := skipNewlinesAndIndents_ok.mp hskip
  obtain ⟨_, _, hfinished, h⟩ := Parse.bind_ok.mp h
  obtain ⟨_, rfl⟩ := errorIfFinished_ok.mp hfinished
  obtain ⟨value, _, hvalue, h⟩ := Parse.bind_ok.mp h
  cases value with
  | none => exact absurd h syntaxError_ok
  | some value =>
    obtain ⟨rfl, rfl⟩ := Parse.pure_ok.mp h
    exact ⟨.keyword token.value value, .keyword htoken htype hassign hvalue,
      (List.append_nil _).symm, rfl, (List.append_nil _).symm, (List.append_nil _).symm⟩

theorem parseNullArgument_argument {cs cs' : CallArgState} {token : Token} {i j : ℕ}
    (htoken : tokens[i]? = some token) (htype : token.type = .identifier)
    (hquestion : TokenAt tokens (i + 1) .question)
    (h : parseNullArgument cs token i = .ok (cs', j)) :
    ∃ a, ArgumentAt tokens parseToken i a j ∧ Collects cs [a] cs' := by
  unfold parseNullArgument at h
  obtain ⟨_, _, hnext, h⟩ := Parse.bind_ok.mp h
  obtain rfl := nextToken_ok.mp hnext
  by_cases hmode : cs.assignMode = .notAllowed
  · rw [if_pos hmode] at h
    exact absurd h syntaxError_ok
  rw [if_neg hmode] at h
  obtain ⟨_, _, hnext, h⟩ := Parse.bind_ok.mp h
  obtain rfl := nextToken_ok.mp hnext
  by_cases hstage : cs.stage = .kwArg
  · rw [if_pos hstage] at h
    exact absurd h syntaxError_ok
  rw [if_neg hstage] at h
  obtain ⟨rfl, rfl⟩ := Parse.pure_ok.mp h
  exact ⟨.keyword token.value .null, .null htoken htype hquestion,
    (List.append_nil _).symm, rfl, (List.append_nil _).symm, (List.append_nil _).symm⟩

theorem parsePositionalArgument_argument {cs cs' : CallArgState} {token : Token} {i j : ℕ}
    (hstar : ¬TokenAt tokens i .star)
    (hkeyword : cs.stage ≠ .kwArg → ¬(TokenAt tokens i .identifier ∧
      (TokenAt tokens (i + 1) .assign ∨ TokenAt tokens (i + 1) .question)))
    (h : parsePositionalArgument parseToken cs token i = .ok (cs', j)) :
    ∃ a, ArgumentAt tokens parseToken i a j ∧ Collects cs [a] cs' := by
  unfold parsePositionalArgument at h
  by_cases hstage : cs.stage = .kwargs
  · rw [if_pos hstage] at h
    exact absurd h syntaxError_ok
  rw [if_neg hstage] at h
  by_cases hstage' : cs.stage = .kwArg
  · rw [if_pos hstage'] at h
    exact absurd h syntaxError_ok
  rw [if_neg hstage'] at h
  obtain ⟨value, _, hvalue, h⟩ := Parse.bind_ok.mp h
  cases value with
  | none => exact absurd h syntaxError_ok
  | some value =>
    obtain ⟨rfl, rfl⟩ := Parse.pure_ok.mp h
    exact ⟨.positional value, .positional hstar (hkeyword hstage') hvalue,
      rfl, (List.append_nil _).symm, (List.append_nil _).symm, (List.append_nil _).symm⟩

/-- The token behind an argument, and the state after it. -/
theorem endOfArgument_ok {message : String} {cs cs' : CallArgState} {done : Bool} {i k : ℕ}
    (h : endOfArgument siphash readName tokens message cs i = .ok ((done, cs'), k)) :
    TokenAt tokens (skipFrom tokens i) (if done then .rparen else .comma) ∧ Collects cs [] cs' ∧
      k = skipFrom tokens i + 1 := by
  unfold endOfArgument at h
  obtain ⟨_, _, hskip, h⟩ := Parse.bind_ok.mp h
  obtain rfl := skipNewlinesAndIndents_ok.mp hskip
  obtain ⟨_, _, hfinished, h⟩ := Parse.bind_ok.mp h
  obtain ⟨_, rfl⟩ := errorIfFinished_ok.mp hfinished
  obtain ⟨token, _, hcurrent, h⟩ := Parse.bind_ok.mp h
  obtain ⟨htoken, rfl⟩ := currentToken_ok.mp hcurrent
  by_cases hrparen : token.type = .rparen
  · rw [if_pos hrparen] at h
    obtain ⟨cs₁, _, hchecks, h⟩ := Parse.bind_ok.mp h
    obtain ⟨_, _, hnext, h⟩ := Parse.bind_ok.mp h
    obtain ⟨hcollects, rfl⟩ := returnChecks_collects hchecks
    obtain rfl := nextToken_ok.mp hnext
    obtain ⟨hpair, rfl⟩ := Parse.pure_ok.mp h
    cases hpair
    exact ⟨⟨token, htoken, hrparen⟩, hcollects, rfl⟩
  rw [if_neg hrparen] at h
  by_cases hcomma : token.type ≠ .comma
  · rw [if_pos hcomma] at h
    exact absurd h syntaxError_ok
  rw [if_neg hcomma] at h
  obtain ⟨_, _, hnext, h⟩ := Parse.bind_ok.mp h
  obtain rfl := nextToken_ok.mp hnext
  obtain ⟨hpair, rfl⟩ := Parse.pure_ok.mp h
  cases hpair
  exact ⟨⟨token, htoken, not_not.mp hcomma⟩, Collects.refl cs, rfl⟩


/-- What one round reads: the closing parenthesis, or an argument with what is behind it. -/
theorem parseArgument_ok {cs cs' : CallArgState} {done : Bool} {i k : ℕ}
    (h : parseArgument siphash readName tokens parseToken cs i = .ok ((done, cs'), k)) :
    (done = true ∧ cs' = cs ∧ TokenAt tokens (skipFrom tokens i) .rparen ∧
      k = skipFrom tokens i + 1) ∨
    (¬TokenAt tokens (skipFrom tokens i) .rparen ∧ ∃ a j,
      ArgumentAt tokens parseToken (skipFrom tokens i) a j ∧ Collects cs [a] cs' ∧
      TokenAt tokens (skipFrom tokens j) (if done then .rparen else .comma) ∧
      k = skipFrom tokens j + 1) := by
  unfold parseArgument at h
  obtain ⟨_, _, hskip, h⟩ := Parse.bind_ok.mp h
  obtain rfl := skipNewlinesAndIndents_ok.mp hskip
  obtain ⟨_, _, hfinished, h⟩ := Parse.bind_ok.mp h
  obtain ⟨_, rfl⟩ := errorIfFinished_ok.mp hfinished
  obtain ⟨token, _, hcurrent, h⟩ := Parse.bind_ok.mp h
  obtain ⟨htoken, rfl⟩ := currentToken_ok.mp hcurrent
  have htype : ∀ type, TokenAt tokens (skipFrom tokens i) type ↔ token.type = type := by
    intro type
    constructor
    · rintro ⟨other, hother, hother'⟩
      rw [htoken, Option.some.injEq] at hother
      exact hother ▸ hother'
    · exact fun h => ⟨token, htoken, h⟩
  by_cases hrparen : token.type = .rparen
  · rw [if_pos hrparen] at h
    obtain ⟨_, _, hnext, h⟩ := Parse.bind_ok.mp h
    obtain rfl := nextToken_ok.mp hnext
    obtain ⟨hpair, rfl⟩ := Parse.pure_ok.mp h
    cases hpair
    exact Or.inl ⟨rfl, rfl, (htype _).mpr hrparen, rfl⟩
  rw [if_neg hrparen] at h
  refine Or.inr ⟨fun h => hrparen ((htype _).mp h), ?_⟩
  by_cases hstar : token.type = .star
  · rw [if_pos hstar] at h
    obtain ⟨cs₁, j, hargument, h⟩ := Parse.bind_ok.mp h
    obtain ⟨a, ha, hcollects⟩ := parseStarArgument_argument ((htype _).mpr hstar) hargument
    obtain ⟨hend, hcollects', hk⟩ := endOfArgument_ok h
    exact ⟨a, j, ha, hcollects.trans hcollects', hend, hk⟩
  rw [if_neg hstar] at h
  obtain ⟨isKwarg, _, hpeek, h⟩ := Parse.bind_ok.mp h
  obtain ⟨hkwarg, rfl⟩ := followedBy_iff hpeek
  obtain ⟨isNull, _, hpeek', h⟩ := Parse.bind_ok.mp h
  obtain ⟨hnull, rfl⟩ := followedBy_iff hpeek'
  obtain ⟨cs₁, j, hargument, h⟩ := Parse.bind_ok.mp h
  have ha : ∃ a, ArgumentAt tokens parseToken (skipFrom tokens i) a j ∧ Collects cs [a] cs₁ := by
    by_cases hkeyword : token.type = .identifier ∧ cs.stage ≠ .kwArg ∧ isKwarg = true
    · rw [if_pos hkeyword] at hargument
      obtain ⟨hidentifier, _, hassign⟩ := hkeyword
      exact parseKeywordArgument_argument htoken hidentifier (hkwarg.mp hassign) hargument
    rw [if_neg hkeyword] at hargument
    by_cases hquestion : token.type = .identifier ∧ isNull = true
    · rw [if_pos hquestion] at hargument
      exact parseNullArgument_argument htoken hquestion.1 (hnull.mp hquestion.2) hargument
    rw [if_neg hquestion] at hargument
    refine parsePositionalArgument_argument (fun h => hstar ((htype _).mp h)) ?_ hargument
    rintro hstage ⟨hidentifier, hassign | hquestion'⟩
    · exact hkeyword ⟨(htype _).mp hidentifier, hstage, hkwarg.mpr hassign⟩
    · exact hquestion ⟨(htype _).mp hidentifier, hnull.mpr hquestion'⟩
  obtain ⟨a, ha, hcollects⟩ := ha
  obtain ⟨⟨done', cs₂⟩, k', hbehind, h⟩ := Parse.bind_ok.mp h
  obtain ⟨hend, hcollects', rfl⟩ := endOfArgument_ok hbehind
  refine ⟨a, j, ha, ?_⟩
  cases done' with
  | true =>
    obtain ⟨hpair, rfl⟩ := Parse.pure_ok.mp h
    cases hpair
    exact ⟨hcollects.trans hcollects', hend, rfl⟩
  | false =>
    dsimp only at h
    rw [if_neg Bool.false_ne_true] at h
    obtain ⟨_, _, hfinished, h⟩ := Parse.bind_ok.mp h
    obtain ⟨_, rfl⟩ := errorIfFinished_ok.mp hfinished
    obtain ⟨hpair, rfl⟩ := Parse.pure_ok.mp h
    cases hpair
    exact ⟨hcollects.trans hcollects', hend, rfl⟩

/-- An argument list that the parser accepts is one of the grammar, and its arguments are collected. -/
theorem parseArgList_arguments {rounds : ℕ} {cs cs' : CallArgState} {i k : ℕ}
    (h : parseArgList siphash readName tokens parseToken rounds cs i = .ok (cs', k)) :
    ∃ as, ArgumentsAt tokens parseToken i as k ∧ Collects cs as cs' := by
  induction rounds generalizing cs i with
  | zero => cases h
  | succ rounds ih =>
    unfold parseArgList at h
    obtain ⟨_, _, hget, h⟩ := Parse.bind_ok.mp h
    obtain ⟨rfl, rfl⟩ := Parse.get_ok.mp hget
    by_cases hlength : tokens.length ≤ i
    · rw [if_pos hlength] at h
      cases h
    rw [if_neg hlength] at h
    obtain ⟨⟨done, cs₁⟩, j, hargument, h⟩ := Parse.bind_ok.mp h
    dsimp only at h
    rcases parseArgument_ok hargument with
      ⟨rfl, rfl, hrparen, rfl⟩ | ⟨hnot, a, j', ha, hcollects, hend, rfl⟩
    · rw [if_pos rfl] at h
      obtain ⟨rfl, rfl⟩ := Parse.pure_ok.mp h
      exact ⟨[], .close hrparen, Collects.refl _⟩
    · cases done with
      | true =>
        rw [if_pos rfl] at h
        obtain ⟨rfl, rfl⟩ := Parse.pure_ok.mp h
        exact ⟨[a], .last hnot ha hend, hcollects⟩
      | false =>
        rw [if_neg Bool.false_ne_true] at h
        obtain ⟨as, has, hcollects'⟩ := ih h
        exact ⟨a :: as, .cons hnot ha hend has, hcollects.trans hcollects'⟩


/-- A call that the parser accepts: its arguments, and where they are in the tree. -/
theorem parseCall_arguments {rounds : ℕ} {toCall : ParsedValue} {call : ParsedCall} {i k : ℕ}
    (h : parseCall siphash readName tokens parseToken rounds toCall i = .ok (call, k)) :
    call.toCall = toCall ∧ ∃ as, ArgumentsAt tokens parseToken (i + 1) as k ∧ call.Holds as := by
  unfold parseCall at h
  obtain ⟨token, _, hcurrent, h⟩ := Parse.bind_ok.mp h
  obtain ⟨_, rfl⟩ := currentToken_ok.mp hcurrent
  obtain ⟨_, _, hnext, h⟩ := Parse.bind_ok.mp h
  obtain rfl := nextToken_ok.mp hnext
  obtain ⟨_, _, hfinished, h⟩ := Parse.bind_ok.mp h
  obtain ⟨_, rfl⟩ := errorIfFinished_ok.mp hfinished
  obtain ⟨next, _, hcurrent, h⟩ := Parse.bind_ok.mp h
  obtain ⟨hget, rfl⟩ := currentToken_ok.mp hcurrent
  obtain ⟨cs, j, hlist, h⟩ := Parse.bind_ok.mp h
  obtain ⟨rfl, rfl⟩ := Parse.pure_ok.mp h
  refine ⟨rfl, ?_⟩
  have has : ∃ as, ArgumentsAt tokens parseToken (i + 1) as j ∧ Collects .init as cs := by
    by_cases hrparen : next.type ≠ .rparen
    · rw [if_pos hrparen] at hlist
      exact parseArgList_arguments hlist
    · rw [if_neg hrparen] at hlist
      obtain ⟨_, _, hnext, hlist⟩ := Parse.bind_ok.mp hlist
      obtain rfl := nextToken_ok.mp hnext
      obtain ⟨rfl, rfl⟩ := Parse.pure_ok.mp hlist
      -- The parenthesis is not blank, so nothing is skipped.
      have hskip : skipFrom tokens (i + 1) = i + 1 := by
        have hdrop : tokens.drop (i + 1) = next :: tokens.drop (i + 1 + 1) :=
          (List.drop_eq_getElem?_toList_append).trans (by rw [hget]; rfl)
        unfold skipFrom
        rw [hdrop, List.takeWhile_cons_of_neg (by rw [not_not.mp hrparen]; decide)]
        rfl
      have hclose : TokenAt tokens (skipFrom tokens (i + 1)) .rparen := by
        rw [hskip]
        exact ⟨next, hget, not_not.mp hrparen⟩
      have has : ArgumentsAt tokens parseToken (i + 1) [] (skipFrom tokens (i + 1) + 1) :=
        ArgumentsAt.close hclose
      rw [hskip] at has
      exact ⟨[], has, Collects.refl _⟩
  obtain ⟨as, has, hcollects⟩ := has
  exact ⟨as, has, ⟨hcollects.args, hcollects.kwargs, hcollects.vArg, hcollects.kwArg⟩⟩

theorem TokenAt.lt {i : ℕ} {type : TokenType} (h : TokenAt tokens i type) : i < tokens.length := by
  obtain ⟨token, htoken, -⟩ := h
  exact (List.getElem?_eq_some_iff.mp htoken).1

/-- There is one token at a place. -/
theorem TokenAt.unique {i : ℕ} {type type' : TokenType} (h : TokenAt tokens i type)
    (h' : TokenAt tokens i type') : type = type' := by
  obtain ⟨token, htoken, rfl⟩ := h
  obtain ⟨token', htoken', rfl⟩ := h'
  rw [htoken, Option.some.injEq] at htoken'
  rw [htoken']

/-- The grammar is not ambiguous: there is one argument at a place. -/
theorem ArgumentAt.unique {i j j' : ℕ} {a a' : Argument} (h : ArgumentAt tokens parseToken i a j)
    (h' : ArgumentAt tokens parseToken i a' j') : a = a' ∧ j = j' := by
  have hvalue : ∀ {n : ℕ} {v v' : ParsedValue} {m m' : ℕ}, parseToken n = .ok (some v, m) →
      parseToken n = .ok (some v', m') → v = v' ∧ m = m' := by
    intro n v v' m m' hv hv'
    rw [hv, Except.ok.injEq, Prod.mk.injEq, Option.some.injEq] at hv'
    exact hv'
  have htoken : ∀ {token token' : Token}, tokens[i]? = some token → tokens[i]? = some token' →
      token = token' := fun h h' => Option.some.inj (h.symm.trans h')
  cases h with
  | spread hstar hone hv =>
    cases h' with
    | spread _ _ hv' => obtain ⟨rfl, rfl⟩ := hvalue hv hv'; exact ⟨rfl, rfl⟩
    | keywordSpread _ htwo _ => exact absurd htwo hone
    | keyword ht hidentifier _ _ => exact nomatch hstar.unique ⟨_, ht, hidentifier⟩
    | null ht hidentifier _ => exact nomatch hstar.unique ⟨_, ht, hidentifier⟩
    | positional hnot _ _ => exact absurd hstar hnot
  | keywordSpread hstar htwo hv =>
    cases h' with
    | spread _ hone _ => exact absurd htwo hone
    | keywordSpread _ _ hv' => obtain ⟨rfl, rfl⟩ := hvalue hv hv'; exact ⟨rfl, rfl⟩
    | keyword ht hidentifier _ _ => exact nomatch hstar.unique ⟨_, ht, hidentifier⟩
    | null ht hidentifier _ => exact nomatch hstar.unique ⟨_, ht, hidentifier⟩
    | positional hnot _ _ => exact absurd hstar hnot
  | keyword ht hidentifier hassign hv =>
    cases h' with
    | spread hstar _ _ => exact nomatch hstar.unique ⟨_, ht, hidentifier⟩
    | keywordSpread hstar _ _ => exact nomatch hstar.unique ⟨_, ht, hidentifier⟩
    | keyword ht' _ _ hv' =>
      obtain ⟨rfl, rfl⟩ := hvalue hv hv'
      exact ⟨by rw [htoken ht ht'], rfl⟩
    | null _ _ hquestion => exact nomatch hassign.unique hquestion
    | positional _ hnot _ => exact absurd ⟨⟨_, ht, hidentifier⟩, Or.inl hassign⟩ hnot
  | null ht hidentifier hquestion =>
    cases h' with
    | spread hstar _ _ => exact nomatch hstar.unique ⟨_, ht, hidentifier⟩
    | keywordSpread hstar _ _ => exact nomatch hstar.unique ⟨_, ht, hidentifier⟩
    | keyword _ _ hassign _ => exact nomatch hassign.unique hquestion
    | null ht' _ _ => exact ⟨by rw [htoken ht ht'], rfl⟩
    | positional _ hnot _ => exact absurd ⟨⟨_, ht, hidentifier⟩, Or.inr hquestion⟩ hnot
  | positional hstar hnot hv =>
    cases h' with
    | spread hstar' _ _ => exact absurd hstar' hstar
    | keywordSpread hstar' _ _ => exact absurd hstar' hstar
    | keyword ht hidentifier hassign _ =>
      exact absurd ⟨⟨_, ht, hidentifier⟩, Or.inl hassign⟩ hnot
    | null ht hidentifier hquestion =>
      exact absurd ⟨⟨_, ht, hidentifier⟩, Or.inr hquestion⟩ hnot
    | positional _ _ hv' => obtain ⟨rfl, rfl⟩ := hvalue hv hv'; exact ⟨rfl, rfl⟩

/-- A list of arguments has one reading. -/
theorem ArgumentsAt.unique {i k k' : ℕ} {as as' : List Argument}
    (h : ArgumentsAt tokens parseToken i as k) (h' : ArgumentsAt tokens parseToken i as' k') :
    as = as' ∧ k = k' := by
  induction h generalizing as' k' with
  | close hrparen =>
    cases h' with
    | close => exact ⟨rfl, rfl⟩
    | last hnot => exact absurd hrparen hnot
    | cons hnot => exact absurd hrparen hnot
  | last hnot ha hend =>
    cases h' with
    | close hrparen => exact absurd hrparen hnot
    | last _ ha' _ =>
      obtain ⟨rfl, rfl⟩ := ha.unique ha'
      exact ⟨rfl, rfl⟩
    | cons _ ha' hcomma _ =>
      obtain ⟨rfl, rfl⟩ := ha.unique ha'
      exact nomatch hend.unique hcomma
  | cons hnot ha hcomma _ ih =>
    cases h' with
    | close hrparen => exact absurd hrparen hnot
    | last _ ha' hend =>
      obtain ⟨rfl, rfl⟩ := ha.unique ha'
      exact nomatch hend.unique hcomma
    | cons _ ha' _ has' =>
      obtain ⟨rfl, rfl⟩ := ha.unique ha'
      obtain ⟨rfl, rfl⟩ := ih has'
      exact ⟨rfl, rfl⟩

end

end Chloride
