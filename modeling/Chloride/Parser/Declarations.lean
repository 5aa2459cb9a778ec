import Chloride.Parser.Parameters

/-!
# Declarations of functions

The three ways to write a function: `let f(...) = ...` (`parse_declaration`), `f(...) = ...`
(`parse_call`, then `parse_assign`) and `(...) = ...` (`parse_parentheses`). The first and the last
read the parameters with `parse_param_list`; for the second they are the arguments of a call.
-/

namespace Chloride

/-! ## The parser -/

/-- `create_parsed_function` with the parameters of a state. -/
def ParamState.function (ps : ParamState) (name : Name) (body : ParsedValue) : ParsedValue :=
  .function ⟨name, ps.positional, ps.vParam, ps.kwParam⟩ ps.defaults body

/-- The name of an identifier. -/
def ParsedValue.name? : ParsedValue → Option Name
  | .identifier id => some id.name
  | _ => none

/-- The name that `parse_assign` gives a function. -/
def functionName : ParsedValue → Name
  | .identifier id => id.name
  | .access _ _ (.string string) => string
  | _ => "anonymous".toUTF8.data.toList

/-- The token types of assignments. -/
def TokenType.isAssign : TokenType → Bool
  | .caretAssign | .starAssign | .slashAssign | .floordivAssign | .moduloAssign | .minusAssign
  | .plusAssign | .assign => true
  | _ => false

/-- How a function is written. -/
inductive FunctionForm where
  | declaration (name : Name)
  | assignment (toCall : ParsedValue)
  | anonymous

section

variable (siphash : List UInt8 → UInt64) (tokens : List Token)
  (parseToken : Parse (Option ParsedValue)) (rounds : ℕ)

/-- The body in `parse_declaration`, which need not be there. -/
def declarationBody (token : Token) : Parse ParsedValue := do
  if token.type = .assign then
    nextToken
    errorIfFinished tokens
    match ← parseToken with
    | none => syntaxError token "expected body"
    | some body => return body
  else return .null

/-- What `parse_declaration` does at the parenthesis behind a name, for one declaration. -/
def parseDeclaration (name : Name) : Parse ParsedValue := do
  nextToken
  errorIfFinished tokens
  let token ← currentToken tokens
  if token.type = .rparen then
    nextToken
    if tokens.length ≤ (← get) then return ParamState.init.function name .null
    else return ParamState.init.function name (← declarationBody tokens parseToken (← currentToken tokens))
  else
    let ps ← parseParamList siphash tokens parseToken rounds .init
    let token ← (if (← get) < tokens.length then currentToken tokens else pure token)
    return ps.function name (← declarationBody tokens parseToken token)

/-- The look-ahead of `parse_parentheses` behind the parenthesis. -/
def isAnonymousFunction (i : ℕ) : Bool :=
  (tokens[i]?).any fun token =>
    match token.type with
    | .rparen => (tokens[skipFrom tokens (i + 1)]?).any fun next => next.type = .assign
    | .star => true
    | .identifier => (tokens[i + 1]?).any fun next =>
      match next.type with
      | .assign | .question | .comma => true
      | .rparen => (tokens[skipFrom tokens (i + 2)]?).any fun after => after.type = .assign
      | _ => false
    | _ => false

/-- What is behind the parameters of an anonymous function. -/
def anonymousBody : Parse ParsedValue := do
  skipNewlinesAndIndents tokens
  errorIfFinished tokens
  let token ← currentToken tokens
  if token.type ≠ .assign then syntaxError token "expected =>"
  else
    nextToken
    errorIfFinished tokens
    match ← parseToken with
    | none => syntaxError token "expected body"
    | some body => return body

/-- The parameters of an anonymous function; the index is behind the parenthesis. -/
def parseParams (token : Token) : Parse ParamState := do
  if token.type = .rparen then
    nextToken
    return .init
  else parseParamList siphash tokens parseToken rounds .init

/-- `parse_parentheses` at the parenthesis of an anonymous function; `none` is for an expression in
parentheses. -/
def parseAnonymous : Parse (Option ParsedValue) := do
  nextToken
  skipNewlinesAndIndents tokens
  errorIfFinished tokens
  let token ← currentToken tokens
  if isAnonymousFunction tokens (← get) then
    let ps ← parseParams siphash tokens parseToken rounds token
    return some (ps.function ("anonymous".toUTF8.data.toList) (← anonymousBody tokens parseToken))
  else return none

/-- The body in `parse_assign`; the index is at the assignment. -/
def assignBody : Parse ParsedValue := do
  nextToken
  errorIfFinished tokens
  let token ← currentToken tokens
  match ← parseToken with
  | none => syntaxError token "expected body"
  | some body => return body

/-- The parameter names that `parse_assign` takes from the arguments. -/
def parameterNames (token : Token) : List ParsedValue → Parse (List Name)
  | [] => return []
  | arg :: args =>
    match arg.name? with
    | none => syntaxError token ("parameter names need to start with a letter or _, " ++
        "only use letters, digits, or _, and can't be keywords.")
    | some name => do return name :: (← parameterNames token args)

/-- The name of `*expr` or `**expr`, which is read without a look at what the expression is. -/
def collectorName : Option ParsedValue → Parse (Option Name)
  | none => return none
  | some value =>
    match value.name? with
    | none => throw .undefined
    | some name => return some name

/-- `parse_assign` with a call on the left: the function that is assigned. -/
def parseAssignCall (call : ParsedCall) : Parse ParsedValue := do
  let token ← currentToken tokens
  if call.assignMode = .notAllowed then syntaxError token "Invalid syntax"
  else
    let parameters ← parameterNames token call.args
    let kwParameter ← collectorName call.kwArg
    let vParameter ← collectorName call.vArg
    let body ← assignBody tokens parseToken
    return .function ⟨functionName call.toCall, parameters, vParameter, kwParameter⟩
      (if call.kwargs = [] then none else some call.kwargs) body

/-- `parse_call` at the parenthesis, and `parse_assign` if an assignment follows; `none` is for a
call. -/
def parseAssignment (toCall : ParsedValue) : Parse (Option ParsedValue) := do
  let call ← parseCall siphash ParsedValue.name? tokens parseToken rounds toCall
  skipNewlinesAndIndents tokens
  if tokens.length ≤ (← get) then return none
  else
    let token ← currentToken tokens
    if token.type.isAssign then return some (← parseAssignCall tokens parseToken call) else return none

/-- What is made of a function at the parenthesis of its parameters. -/
def parseFunction : FunctionForm → Parse (Option ParsedValue)
  | .declaration name => do return some (← parseDeclaration siphash tokens parseToken rounds name)
  | .assignment toCall => parseAssignment siphash tokens parseToken rounds toCall
  | .anonymous => parseAnonymous siphash tokens parseToken rounds

end

/-! ## Arguments as parameters -/

section

variable (tokens : List Token) (parseToken : Parse (Option ParsedValue))

/-- There is a parsed name at a place, and whether it is written as one. -/
def ParsesName (i : ℕ) (name : Name) (plain : Bool) (j : ℕ) : Prop :=
  ∃ value, parseToken i = .ok (some value, j) ∧ value.name? = some name ∧
    (plain = true ↔ TokenAt tokens i .identifier) ∧ i < tokens.length

/-- An argument that can be a parameter, from a place to the place behind it. -/
inductive CallParamAt : ℕ → Param → ℕ → Prop where
  | required {i j : ℕ} {name : Name} {plain : Bool} : ¬TokenAt tokens i .star →
    ¬TokenAt tokens i .rparen →
    ¬(TokenAt tokens i .identifier ∧
      (TokenAt tokens (i + 1) .assign ∨ TokenAt tokens (i + 1) .question)) →
    ParsesName tokens parseToken i name plain j → CallParamAt i (.required name plain) j
  | default {i j : ℕ} {name : Name} {value : ParsedValue} : NameAt tokens i name →
    TokenAt tokens (i + 1) .assign → skipFrom tokens (i + 2) < tokens.length →
    parseToken (skipFrom tokens (i + 2)) = .ok (some value, j) →
    CallParamAt i (.default name value) j
  | optional {i : ℕ} {name : Name} : NameAt tokens i name → TokenAt tokens (i + 1) .question →
    CallParamAt i (.optional name true) (i + 2)
  | args {i j : ℕ} {name : Name} {plain : Bool} : TokenAt tokens i .star →
    ¬TokenAt tokens (i + 1) .star → ParsesName tokens parseToken (i + 1) name plain j →
    CallParamAt i (.args name plain) j
  | kwargs {i j : ℕ} {name : Name} {plain : Bool} : TokenAt tokens i .star →
    TokenAt tokens (i + 1) .star → ParsesName tokens parseToken (i + 2) name plain j →
    CallParamAt i (.kwargs name plain) j

/-- The arguments from a place behind the opening parenthesis or a comma to the place behind the
closing parenthesis; whether there is a comma in front of that, or nothing at all. -/
inductive CallParamsAt : ℕ → List Param → Bool → ℕ → Prop where
  | close {i : ℕ} : TokenAt tokens (skipFrom tokens i) .rparen →
    CallParamsAt i [] true (skipFrom tokens i + 1)
  | last {i j : ℕ} {p : Param} : CallParamAt tokens parseToken (skipFrom tokens i) p j →
    TokenAt tokens (skipFrom tokens j) .rparen → CallParamsAt i [p] false (skipFrom tokens j + 1)
  | cons {i j k : ℕ} {p : Param} {params : List Param} {trailing : Bool} :
    CallParamAt tokens parseToken (skipFrom tokens i) p j →
    TokenAt tokens (skipFrom tokens j) .comma → CallParamsAt (skipFrom tokens j + 1) params trailing k →
    CallParamsAt i (p :: params) trailing k

end

/-- What `parse_arg_list` holds of arguments that are names. -/
structure CallParams where
  args : List Name
  vArg : Option Name
  kwArg : Option Name
  stage : CallStage
  assignMode : AssignMode

namespace CallParams

def init : CallParams := ⟨[], none, none, .positional, .allowed⟩

/-- The mode after a name. -/
def modeAfter (s : CallParams) (plain : Bool) : AssignMode :=
  if s.assignMode = .allowed ∧ plain = false then .notAllowed else s.assignMode

/-- What `parse_arg_list` does with an argument that can be a parameter; `none` is a syntax error. -/
def add (s : CallParams) : Param → Option CallParams
  | .required name plain =>
    if s.stage = .kwargs ∨ s.stage = .kwArg then none
    else some { s with args := s.args ++ [name], assignMode := s.modeAfter plain }
  | .default _ _ => if s.stage = .kwArg then none else some { s with stage := s.stage.keyword }
  | .optional _ _ =>
    if s.assignMode = .notAllowed ∨ s.stage = .kwArg then none
    else some { s with stage := s.stage.keyword, assignMode := .required }
  | .args name plain =>
    if s.vArg.isSome then none
    else some { s with vArg := some name, assignMode := s.modeAfter plain, stage := .vArg }
  | .kwargs name plain =>
    if s.kwArg.isSome then none
    else some { s with kwArg := some name, assignMode := s.modeAfter plain, stage := .kwArg }

/-- The names of the arguments that are not keyword arguments. -/
def names (s : CallParams) : List Name := s.args ++ s.vArg.toList ++ s.kwArg.toList

/-- `RETURN_CHECKS`. -/
def checked (siphash : List UInt8 → UInt64) (s : CallParams) : CallParams :=
  if (s.names.map siphash).Nodup then s else { s with assignMode := .notAllowed }

/-- The state after some arguments; the checks are not made behind a trailing comma. -/
def addAll (siphash : List UInt8 → UInt64) (s : CallParams) (params : List Param) (trailing : Bool) :
    Option CallParams :=
  (params.foldlM add s).map fun s => if trailing then s else s.checked siphash

end CallParams

/-- The state of the parser holds the names. -/
structure CallArgState.Reads (cs : CallArgState) (s : CallParams) : Prop where
  args : cs.args.map ParsedValue.name? = s.args.map some
  vArg : cs.vArg.map ParsedValue.name? = s.vArg.map some
  kwArg : cs.kwArg.map ParsedValue.name? = s.kwArg.map some
  stage : cs.stage = s.stage
  assignMode : cs.assignMode = s.assignMode

/-! ## What the parser of calls does with names -/

/-- The parser gives what stands for a value at a place, or (`none`) a syntax error. -/
def Parse.Stands {α β : Type} (x : Parse α) (i : ℕ) (R : α → β → Prop) (r : Option β) (k : ℕ) :
    Prop :=
  match r with
  | some b => ∃ a, x i = .ok (a, k) ∧ R a b
  | none => ∃ e, x i = .error (.error e)

section

variable {α β γ : Type} {i j k : ℕ} {x : Parse α} {f : α → Parse γ}

theorem Parse.Stands.bind {δ : Type} {a : α} {R : γ → δ → Prop} {r : Option δ} (hx : x i = .ok (a, j))
    (h : (f a).Stands j R r k) : (x >>= f).Stands i R r k := by
  have hbind : (x >>= f) i = f a j := Parse.bind_of_ok hx
  cases r with
  | none =>
    obtain ⟨e, he⟩ := h
    exact ⟨e, hbind.trans he⟩
  | some b =>
    obtain ⟨c, hc, hR⟩ := h
    exact ⟨c, hbind.trans hc, hR⟩

theorem Parse.Stands.bind_none {δ : Type} {R : α → β → Prop} {S : γ → δ → Prop}
    (h : x.Stands i R none j) : (x >>= f).Stands i S none k := by
  obtain ⟨e, he⟩ := h
  refine ⟨e, ?_⟩
  show (x i >>= fun p => f p.1 p.2) = _
  rw [he]
  rfl

theorem Parse.Stands.bind_map {δ : Type} {R : α → β → Prop} {S : γ → δ → Prop} {r : Option β}
    {g : β → δ} (hx : x.Stands i R r j) (h : ∀ a b, R a b → (f a).Stands j S (some (g b)) k) :
    (x >>= f).Stands i S (r.map g) k := by
  cases r with
  | none => exact .bind_none hx
  | some b =>
    obtain ⟨a, ha, hR⟩ := hx
    exact .bind ha (h a b hR)

end

section

variable {siphash : List UInt8 → UInt64} {tokens : List Token}
  {parseToken : Parse (Option ParsedValue)} {cs : CallArgState} {s : CallParams} {i j k : ℕ}
  {name : Name} {plain : Bool} {p : Param}

/-- The mode after an argument that is a name. -/
theorem CallArgState.Reads.after (h : cs.Reads s) {token : Token} {value : ParsedValue}
    (htoken : tokens[i]? = some token) (hvalue : value.name? = some name)
    (hplain : plain = true ↔ TokenAt tokens i .identifier) :
    cs.assignMode.after token value = s.modeAfter plain := by
  have hidentifier : value.isIdentifier = true := by
    cases value <;> first | rfl | cases hvalue
  have htype : token.type = .identifier ↔ plain = true := by
    rw [hplain]
    constructor
    · exact fun h => ⟨token, htoken, h⟩
    · rintro ⟨other, hother, htype⟩
      rw [htoken, Option.some.injEq] at hother
      exact hother ▸ htype
  unfold AssignMode.after CallParams.modeAfter
  rw [h.assignMode]
  by_cases hallowed : s.assignMode = .allowed
  · rw [if_pos hallowed]
    cases plain with
    | true =>
      have hnot : ¬(s.assignMode = .allowed ∧ true = false) := fun h => nomatch h.2
      rw [if_pos ⟨htype.mpr rfl, hidentifier⟩, if_neg hnot, hallowed]
    | false =>
      have hnot : ¬(token.type = .identifier ∧ value.isIdentifier = true) := fun h =>
        nomatch htype.mp h.1
      rw [if_neg hnot, if_pos ⟨hallowed, rfl⟩]
  · rw [if_neg hallowed, if_neg fun h => hallowed h.1]

theorem isSome_of_reads {value : Option ParsedValue} {name : Option Name}
    (h : value.map ParsedValue.name? = name.map some) : value.isSome = name.isSome := by
  have hsome := congrArg Option.isSome h
  rwa [Option.isSome_map, Option.isSome_map] at hsome

theorem parseStarArgument_args (hs : cs.Reads s) (hstar : ¬TokenAt tokens (i + 1) .star)
    (hname : ParsesName tokens parseToken (i + 1) name plain j) :
    (parseStarArgument tokens parseToken cs).Stands i CallArgState.Reads
      (s.add (.args name plain)) j := by
  obtain ⟨value, hparse, hvalue, hplain, hlt⟩ := hname
  have htoken := List.getElem?_eq_getElem hlt
  refine .bind (a := ()) (nextToken_ok.mpr rfl) ?_
  refine .bind (a := ()) (errorIfFinished_ok.mpr ⟨hlt, rfl⟩) ?_
  refine .bind (currentToken_ok.mpr ⟨htoken, rfl⟩) ?_
  rw [if_neg fun h => hstar ⟨_, htoken, h⟩, isSome_of_reads hs.vArg]
  rw [CallParams.add]
  by_cases hsome : s.vArg.isSome = true
  · rw [if_pos hsome, if_pos hsome]
    exact ⟨_, rfl⟩
  rw [if_neg hsome, if_neg hsome]
  refine .bind hparse ⟨_, rfl, hs.args, ?_, hs.kwArg, rfl, hs.after htoken hvalue hplain⟩
  rw [Option.map_some, hvalue, Option.map_some]

theorem parseStarArgument_kwargs (hs : cs.Reads s) (hstar : TokenAt tokens (i + 1) .star)
    (hname : ParsesName tokens parseToken (i + 2) name plain j) :
    (parseStarArgument tokens parseToken cs).Stands i CallArgState.Reads
      (s.add (.kwargs name plain)) j := by
  obtain ⟨value, hparse, hvalue, hplain, hlt⟩ := hname
  have htoken := List.getElem?_eq_getElem hlt
  have hlt' := hstar.lt
  obtain ⟨star, hstar, htype⟩ := hstar
  refine .bind (a := ()) (nextToken_ok.mpr rfl) ?_
  refine .bind (a := ()) (errorIfFinished_ok.mpr ⟨hlt', rfl⟩) ?_
  refine .bind (currentToken_ok.mpr ⟨hstar, rfl⟩) ?_
  rw [if_pos htype, isSome_of_reads hs.kwArg]
  rw [CallParams.add]
  by_cases hsome : s.kwArg.isSome = true
  · rw [if_pos hsome, if_pos hsome]
    exact ⟨_, rfl⟩
  rw [if_neg hsome, if_neg hsome]
  refine .bind (a := ()) (nextToken_ok.mpr rfl) ?_
  refine .bind (currentToken_ok.mpr ⟨htoken, rfl⟩) ?_
  refine .bind hparse ⟨_, rfl, hs.args, hs.vArg, ?_, rfl, hs.after htoken hvalue hplain⟩
  rw [Option.map_some, hvalue, Option.map_some]

theorem parsePositionalArgument_required (hs : cs.Reads s) {token : Token}
    (htoken : tokens[i]? = some token) (hname : ParsesName tokens parseToken i name plain j) :
    (parsePositionalArgument parseToken cs token).Stands i CallArgState.Reads
      (s.add (.required name plain)) j := by
  obtain ⟨value, hparse, hvalue, hplain, hlt⟩ := hname
  unfold parsePositionalArgument
  rw [CallParams.add, hs.stage]
  by_cases hkwargs : s.stage = .kwargs
  · rw [if_pos hkwargs, if_pos (.inl hkwargs)]
    exact ⟨_, rfl⟩
  by_cases hkwArg : s.stage = .kwArg
  · rw [if_neg hkwargs, if_pos hkwArg, if_pos (.inr hkwArg)]
    exact ⟨_, rfl⟩
  rw [if_neg hkwargs, if_neg hkwArg, if_neg (by tauto)]
  refine .bind hparse ⟨_, rfl, ?_, hs.vArg, hs.kwArg, rfl, hs.after htoken hvalue hplain⟩
  rw [List.map_append, List.map_append, hs.args, List.map_singleton, List.map_singleton, hvalue]

theorem parseKeywordArgument_default (hs : cs.Reads s) {token : Token} {value : ParsedValue}
    (hstage : s.stage ≠ .kwArg) (hlt : skipFrom tokens (i + 2) < tokens.length)
    (hvalue : parseToken (skipFrom tokens (i + 2)) = .ok (some value, j)) :
    (parseKeywordArgument tokens parseToken cs token).Stands i CallArgState.Reads
      (s.add (.default name value)) j := by
  rw [CallParams.add, if_neg hstage]
  refine .bind (a := ()) (nextToken_ok.mpr rfl) (.bind (a := ()) (nextToken_ok.mpr rfl) ?_)
  refine .bind (a := ()) (skipNewlinesAndIndents_ok.mpr rfl) ?_
  refine .bind (a := ()) (errorIfFinished_ok.mpr ⟨hlt, rfl⟩) ?_
  refine .bind hvalue ⟨_, rfl, hs.args, hs.vArg, hs.kwArg, ?_, hs.assignMode⟩
  rw [hs.stage]

theorem parseNullArgument_optional (hs : cs.Reads s) {token : Token} :
    (parseNullArgument cs token).Stands i CallArgState.Reads (s.add (.optional name true)) (i + 2) := by
  rw [CallParams.add]
  refine .bind (a := ()) (nextToken_ok.mpr rfl) ?_
  rw [hs.assignMode]
  by_cases hmode : s.assignMode = .notAllowed
  · rw [if_pos hmode, if_pos (.inl hmode)]
    exact ⟨_, rfl⟩
  rw [if_neg hmode]
  refine .bind (a := ()) (nextToken_ok.mpr rfl) ?_
  rw [hs.stage]
  by_cases hstage : s.stage = .kwArg
  · rw [if_pos hstage, if_pos (.inr hstage)]
    exact ⟨_, rfl⟩
  rw [if_neg hstage, if_neg (by tauto)]
  exact ⟨_, rfl, hs.args, hs.vArg, hs.kwArg, rfl, rfl⟩

/-- The names of a list are looked up among those that were seen. -/
theorem seeNames_names (siphash : List UInt8 → UInt64) (i : ℕ) {values : List ParsedValue}
    {names : List Name} (h : values.map ParsedValue.name? = names.map some) (seen : List UInt64) :
    ∃ twice seen', seeNames siphash ParsedValue.name? values seen i = .ok ((twice, seen'), i) ∧
      (twice = false ↔ (names.map siphash).Nodup ∧ ∀ n ∈ names, siphash n ∉ seen) ∧
      (twice = false → seen' = (names.map siphash).reverse ++ seen) := by
  induction values generalizing names seen with
  | nil =>
    obtain rfl : names = [] := List.map_eq_nil_iff.mp h.symm
    exact ⟨false, seen, rfl, iff_of_true rfl ⟨.nil, fun _ hn => absurd hn List.not_mem_nil⟩, fun _ => rfl⟩
  | cons value values ih =>
    cases names with
    | nil => cases h
    | cons name names =>
      rw [List.map_cons, List.map_cons, List.cons.injEq] at h
      unfold seeNames
      rw [h.1]
      dsimp only
      by_cases hseen : siphash name ∈ seen
      · rw [if_pos hseen]
        refine ⟨true, seen, rfl, iff_of_false Bool.false_ne_true.symm fun h => ?_,
          fun h => absurd h Bool.false_ne_true.symm⟩
        exact h.2 name (List.mem_cons_self ..) hseen
      · rw [if_neg hseen]
        obtain ⟨twice, seen', hsee, htwice, hseen'⟩ := ih h.2 (siphash name :: seen)
        refine ⟨twice, seen', hsee, htwice.trans ?_, fun h => ?_⟩
        · rw [List.map_cons, List.nodup_cons, List.forall_mem_cons]
          constructor
          · rintro ⟨hnodup, hall⟩
            refine ⟨⟨fun hmem => ?_, hnodup⟩, hseen, fun n hn hmem => ?_⟩
            · obtain ⟨n, hn, heq⟩ := List.mem_map.mp hmem
              exact hall n hn (heq ▸ List.mem_cons_self ..)
            · exact hall n hn (List.mem_cons_of_mem _ hmem)
          · rintro ⟨⟨hnot, hnodup⟩, -, hall⟩
            refine ⟨hnodup, fun n hn hmem => ?_⟩
            rcases List.mem_cons.mp hmem with heq | hmem
            · exact hnot (heq ▸ List.mem_map_of_mem hn)
            · exact hall n hn hmem
        · rw [hseen' h, List.map_cons, List.reverse_cons, List.append_assoc]
          rfl

theorem nodup_append_reverse {names : List Name} (names' : List Name) {seen : List UInt64}
    (h : (names.map siphash).Nodup) (hseen : seen = (names.map siphash).reverse ++ []) :
    ((names ++ names').map siphash).Nodup ↔
      (names'.map siphash).Nodup ∧ ∀ n ∈ names', siphash n ∉ seen := by
  rw [hseen, List.append_nil, List.map_append, List.nodup_append]
  constructor
  · rintro ⟨-, hnodup, hne⟩
    refine ⟨hnodup, fun n hn hmem => ?_⟩
    exact hne _ (List.mem_reverse.mp hmem) _ (List.mem_map_of_mem hn) rfl
  · rintro ⟨hnodup, hnot⟩
    refine ⟨h, hnodup, fun a ha b hb heq => ?_⟩
    obtain ⟨n, hn, rfl⟩ := List.mem_map.mp hb
    exact hnot n hn (List.mem_reverse.mpr (heq ▸ ha))

theorem map_toList_of_reads {value : Option ParsedValue} {name : Option Name}
    (h : value.map ParsedValue.name? = name.map some) :
    value.toList.map ParsedValue.name? = name.toList.map some := by
  cases value with
  | none =>
    cases name with
    | none => rfl
    | some name => cases h
  | some value =>
    cases name with
    | none => cases h
    | some name =>
      rw [Option.map_some, Option.map_some, Option.some.injEq] at h
      rw [Option.toList_some, Option.toList_some, List.map_singleton, List.map_singleton, h]

/-- The names that are looked up are apart. -/
theorem seeNames_all (siphash : List UInt8 → UInt64) (i : ℕ) (hs : cs.Reads s) :
    ∃ twice seen twice' seen' twice'' seen'',
      seeNames siphash ParsedValue.name? cs.args [] i = .ok ((twice, seen), i) ∧
      seeNames siphash ParsedValue.name? cs.vArg.toList seen i = .ok ((twice', seen'), i) ∧
      seeNames siphash ParsedValue.name? cs.kwArg.toList seen' i = .ok ((twice'', seen''), i) ∧
      ((twice || twice' || twice'') = false ↔ (s.names.map siphash).Nodup) := by
  obtain ⟨twice, seen, hsee, htwice, hseen⟩ := seeNames_names siphash i hs.args []
  obtain ⟨twice', seen', hsee', htwice', hseen'⟩ :=
    seeNames_names siphash i (map_toList_of_reads hs.vArg) seen
  obtain ⟨twice'', seen'', hsee'', htwice'', -⟩ :=
    seeNames_names siphash i (map_toList_of_reads hs.kwArg) seen'
  refine ⟨twice, seen, twice', seen', twice'', seen'', hsee, hsee', hsee'', ?_⟩
  unfold CallParams.names
  cases twice with
  | true =>
    refine iff_of_false (fun h => nomatch h) fun h => ?_
    rw [List.append_assoc, List.map_append] at h
    exact nomatch htwice.mpr ⟨h.of_append_left, nofun⟩
  | false =>
    have hargs := (htwice.mp rfl).1
    have hvArg := nodup_append_reverse s.vArg.toList hargs (hseen rfl)
    cases twice' with
    | true =>
      refine iff_of_false (fun h => nomatch h) fun h => ?_
      rw [List.map_append] at h
      exact nomatch htwice'.mpr (hvArg.mp h.of_append_left)
    | false =>
      have hboth := hvArg.mpr (htwice'.mp rfl)
      have hseen'' : seen' = ((s.args ++ s.vArg.toList).map siphash).reverse ++ [] := by
        rw [hseen' rfl, hseen rfl, List.map_append, List.reverse_append, List.append_assoc]
      exact htwice''.trans (nodup_append_reverse _ hboth hseen'').symm

/-- `RETURN_CHECKS`, where all the arguments are names. -/
theorem returnChecks_reads (hs : cs.Reads s) :
    (returnChecks siphash ParsedValue.name? cs).Stands i CallArgState.Reads
      (some (s.checked siphash)) i := by
  obtain ⟨twice, seen, twice', seen', twice'', seen'', hsee, hsee', hsee'', htwice⟩ :=
    seeNames_all siphash i hs
  unfold returnChecks CallParams.checked
  by_cases hmode : cs.assignMode = .notAllowed
  · rw [if_pos hmode]
    have hmode' : s.assignMode = .notAllowed := hs.assignMode ▸ hmode
    refine ⟨cs, rfl, ?_⟩
    split
    · exact hs
    · exact ⟨hs.args, hs.vArg, hs.kwArg, hs.stage, hmode⟩
  · rw [if_neg hmode]
    refine .bind hsee (.bind hsee' (.bind hsee'' ?_))
    dsimp only
    cases hany : twice || twice' || twice'' with
    | true =>
      have hnot : ¬(s.names.map siphash).Nodup := fun h => by
        rw [htwice.mpr h] at hany
        cases hany
      rw [if_neg hnot]
      exact ⟨_, rfl, hs.args, hs.vArg, hs.kwArg, hs.stage, rfl⟩
    | false =>
      rw [if_pos (htwice.mp hany)]
      exact ⟨_, rfl, hs⟩


/-- What is read at the end of a round: whether the list is over, and the state. -/
def ReadsEnd (done : Bool) (r : Bool × CallArgState) (s : CallParams) : Prop :=
  r.1 = done ∧ r.2.Reads s

/-- The checks are made at the parenthesis. -/
def CallParams.atEnd (siphash : List UInt8 → UInt64) (done : Bool) (s : CallParams) : CallParams :=
  if done then s.checked siphash else s

theorem endOfArgument_at {message : String} {done : Bool} (hs : cs.Reads s)
    (hend : TokenAt tokens (skipFrom tokens i) (if done then .rparen else .comma)) :
    (endOfArgument siphash ParsedValue.name? tokens message cs).Stands i (ReadsEnd done)
      (some (s.atEnd siphash done)) (skipFrom tokens i + 1) := by
  have hlt := hend.lt
  obtain ⟨token, htoken, htype⟩ := hend
  refine .bind (a := ()) (skipNewlinesAndIndents_ok.mpr rfl) ?_
  refine .bind (a := ()) (errorIfFinished_ok.mpr ⟨hlt, rfl⟩) ?_
  refine .bind (currentToken_ok.mpr ⟨htoken, rfl⟩) ?_
  cases done with
  | true =>
    rw [if_pos (show token.type = .rparen from htype)]
    have hchecks : (returnChecks siphash ParsedValue.name? cs).Stands (skipFrom tokens i)
        CallArgState.Reads (some (s.checked siphash)) (skipFrom tokens i) := returnChecks_reads hs
    obtain ⟨cs', hcs', hreads⟩ := hchecks
    exact .bind hcs' (.bind (a := ()) (nextToken_ok.mpr rfl) ⟨_, rfl, rfl, hreads⟩)
  | false =>
    have hcomma : token.type = .comma := htype
    rw [if_neg (by rw [hcomma]; nofun), if_neg (not_not.mpr hcomma)]
    exact .bind (a := ()) (nextToken_ok.mpr rfl) ⟨_, rfl, rfl, hs⟩

theorem parseArgument_star {r : Option CallParams} {done : Bool}
    (hstar : TokenAt tokens (skipFrom tokens i) .star)
    (h : (parseStarArgument tokens parseToken cs).Stands (skipFrom tokens i) CallArgState.Reads r j)
    (hend : TokenAt tokens (skipFrom tokens j) (if done then .rparen else .comma)) :
    (parseArgument siphash ParsedValue.name? tokens parseToken cs).Stands i (ReadsEnd done)
      (r.map (CallParams.atEnd siphash done)) (skipFrom tokens j + 1) := by
  have hlt := hstar.lt
  obtain ⟨token, htoken, htype⟩ := hstar
  refine .bind (a := ()) (skipNewlinesAndIndents_ok.mpr rfl) ?_
  refine .bind (a := ()) (errorIfFinished_ok.mpr ⟨hlt, rfl⟩) ?_
  refine .bind (currentToken_ok.mpr ⟨htoken, rfl⟩) ?_
  rw [if_neg (by rw [htype]; nofun), if_pos htype]
  exact .bind_map h fun cs s hs => endOfArgument_at hs hend

theorem exists_followedBy (tokens : List Token) (type : TokenType) (i : ℕ) :
    ∃ b, followedBy tokens type i = .ok (b, i) ∧ (b = true ↔ TokenAt tokens (i + 1) type) := by
  have hpeek : followedBy tokens type i = .ok (_, i) := followedBy_ok.mpr ⟨rfl, rfl⟩
  exact ⟨_, hpeek, (followedBy_iff hpeek).1⟩

/-- An argument that is not behind a star; `h` is for what is read of it. -/
theorem parseArgument_other {token : Token} {r : Option CallParams} {done : Bool}
    (htoken : tokens[skipFrom tokens i]? = some token) (hrparen : token.type ≠ .rparen)
    (hstar : token.type ≠ .star)
    (h : ∀ isKwarg isNull : Bool,
      (isKwarg = true ↔ TokenAt tokens (skipFrom tokens i + 1) .assign) →
      (isNull = true ↔ TokenAt tokens (skipFrom tokens i + 1) .question) →
      (if token.type = .identifier ∧ cs.stage ≠ .kwArg ∧ isKwarg then
        parseKeywordArgument tokens parseToken cs token
      else if token.type = .identifier ∧ isNull then parseNullArgument cs token
      else parsePositionalArgument parseToken cs token).Stands
        (skipFrom tokens i) CallArgState.Reads r j)
    (hend : TokenAt tokens (skipFrom tokens j) (if done then .rparen else .comma))
    (hnext : done = false → skipFrom tokens j + 1 < tokens.length) :
    (parseArgument siphash ParsedValue.name? tokens parseToken cs).Stands i (ReadsEnd done)
      (r.map (CallParams.atEnd siphash done)) (skipFrom tokens j + 1) := by
  have hlt := (List.getElem?_eq_some_iff.mp htoken).1
  refine .bind (a := ()) (skipNewlinesAndIndents_ok.mpr rfl) ?_
  refine .bind (a := ()) (errorIfFinished_ok.mpr ⟨hlt, rfl⟩) ?_
  refine .bind (currentToken_ok.mpr ⟨htoken, rfl⟩) ?_
  rw [if_neg hrparen, if_neg hstar]
  obtain ⟨isKwarg, hpeek, hkwarg⟩ := exists_followedBy tokens .assign (skipFrom tokens i)
  obtain ⟨isNull, hpeek', hnull⟩ := exists_followedBy tokens .question (skipFrom tokens i)
  refine .bind hpeek (.bind hpeek' (.bind_map (h _ _ hkwarg hnull) fun cs s hs => ?_))
  have hbehind : (endOfArgument siphash ParsedValue.name? tokens "expected comma" cs).Stands j
      (ReadsEnd done) (some (s.atEnd siphash done)) (skipFrom tokens j + 1) :=
    endOfArgument_at hs hend
  obtain ⟨⟨done', cs'⟩, hok, hdone, hreads⟩ := hbehind
  obtain rfl : done' = done := hdone
  refine .bind hok ?_
  cases done' with
  | true => exact ⟨_, rfl, rfl, hreads⟩
  | false => exact .bind (a := ()) (errorIfFinished_ok.mpr ⟨hnext rfl, rfl⟩) ⟨_, rfl, rfl, hreads⟩

theorem ParsesName.lt (h : ParsesName tokens parseToken i name plain j) : i < tokens.length := by
  obtain ⟨_, _, _, _, hlt⟩ := h
  exact hlt

/-- One round at an argument that can be a parameter. -/
theorem parseArgument_at {done : Bool} (hs : cs.Reads s)
    (hp : CallParamAt tokens parseToken (skipFrom tokens i) p j)
    (hend : TokenAt tokens (skipFrom tokens j) (if done then .rparen else .comma))
    (hnext : done = false → skipFrom tokens j + 1 < tokens.length) :
    (parseArgument siphash ParsedValue.name? tokens parseToken cs).Stands i (ReadsEnd done)
      ((s.add p).map (CallParams.atEnd siphash done)) (skipFrom tokens j + 1) := by
  cases hp with
  | required hstar hrparen hnot hname =>
    have hget := List.getElem?_eq_getElem (ParsesName.lt hname)
    refine parseArgument_other hget (fun h => hrparen ⟨_, hget, h⟩) (fun h => hstar ⟨_, hget, h⟩)
      (fun isKwarg isNull hkwarg hnull => ?_) hend hnext
    rw [if_neg fun h => hnot ⟨⟨_, hget, h.1⟩, .inl (hkwarg.mp h.2.2)⟩,
      if_neg fun h => hnot ⟨⟨_, hget, h.1⟩, .inr (hnull.mp h.2)⟩]
    exact parsePositionalArgument_required hs hget hname
  | default hname hassign hlt hvalue =>
    obtain ⟨token, hget, htype, rfl⟩ := hname
    refine parseArgument_other hget (by rw [htype]; nofun) (by rw [htype]; nofun)
      (fun isKwarg isNull hkwarg hnull => ?_) hend hnext
    by_cases hstage : s.stage = .kwArg
    · -- Behind `**` it is read as an argument by position, which is refused there.
      have hnot : ¬(token.type = .identifier ∧ isNull = true) := fun h =>
        nomatch hassign.unique (hnull.mp h.2)
      rw [if_neg fun h => h.2.1 (hs.stage.trans hstage), if_neg hnot]
      rw [CallParams.add, if_pos hstage]
      unfold parsePositionalArgument
      rw [hs.stage, if_neg (by rw [hstage]; nofun), if_pos hstage]
      exact ⟨_, rfl⟩
    · rw [if_pos ⟨htype, fun h => hstage (hs.stage.symm.trans h), hkwarg.mpr hassign⟩]
      exact parseKeywordArgument_default hs hstage hlt hvalue
  | optional hname hquestion =>
    obtain ⟨token, hget, htype, rfl⟩ := hname
    refine parseArgument_other hget (by rw [htype]; nofun) (by rw [htype]; nofun)
      (fun isKwarg isNull hkwarg hnull => ?_) hend hnext
    have hnull' : token.type = .identifier ∧ isNull = true := ⟨htype, hnull.mpr hquestion⟩
    have hnot : ¬(token.type = .identifier ∧ cs.stage ≠ .kwArg ∧ isKwarg = true) := fun h =>
      nomatch hquestion.unique (hkwarg.mp h.2.2)
    rw [if_neg hnot, if_pos hnull']
    exact parseNullArgument_optional hs
  | args hstar hnot hname =>
    exact parseArgument_star hstar (parseStarArgument_args hs hnot hname) hend
  | kwargs hstar hstar' hname =>
    exact parseArgument_star hstar (parseStarArgument_kwargs hs hstar' hname) hend

theorem CallParams.addAll_cons (s : CallParams) (p : Param) (params : List Param) (trailing : Bool) :
    s.addAll siphash (p :: params) trailing =
      (s.add p).bind fun s => s.addAll siphash params trailing := by
  unfold CallParams.addAll
  rw [List.foldlM_cons]
  exact Option.map_bind ..

theorem CallParamAt.lt (h : CallParamAt tokens parseToken i p j) : i < tokens.length := by
  cases h with
  | required _ _ _ hname => exact ParsesName.lt hname
  | default hname => exact hname.lt
  | optional hname => exact hname.lt
  | args hstar => exact hstar.lt
  | kwargs hstar => exact hstar.lt

theorem CallParamsAt.lt {params : List Param} {trailing : Bool}
    (h : CallParamsAt tokens parseToken i params trailing k) : i < tokens.length := by
  have hskip : i ≤ skipFrom tokens i := Nat.le_add_right ..
  cases h with
  | close hrparen => exact skipFrom_lt hrparen
  | last hp => exact hskip.trans_lt hp.lt
  | cons hp => exact hskip.trans_lt hp.lt

/-- A round, and the rounds behind it. -/
theorem parseArgList_succ (hlt : i < tokens.length) {rounds : ℕ} {done : Bool} {r : Option CallParams}
    (h : (parseArgument siphash ParsedValue.name? tokens parseToken cs).Stands i (ReadsEnd done) r j)
    {r' : Option CallParams} (hnone : r = none → r' = none)
    (hsome : ∀ cs' s', r = some s' → cs'.Reads s' →
      (if done then pure cs' else
        parseArgList siphash ParsedValue.name? tokens parseToken rounds cs').Stands j
        CallArgState.Reads r' k) :
    (parseArgList siphash ParsedValue.name? tokens parseToken (rounds + 1) cs).Stands i
      CallArgState.Reads r' k := by
  unfold parseArgList
  refine .bind (a := i) (Parse.get_ok.mpr ⟨rfl, rfl⟩) ?_
  rw [if_neg (by omega)]
  cases r with
  | none =>
    rw [hnone rfl]
    exact .bind_none h
  | some s' =>
    obtain ⟨⟨done', cs'⟩, hok, hdone, hreads⟩ := h
    obtain rfl : done' = done := hdone
    exact .bind hok (hsome cs' s' rfl hreads)

theorem parseArgument_close (cs : CallArgState) (hrparen : TokenAt tokens (skipFrom tokens i) .rparen) :
    parseArgument siphash ParsedValue.name? tokens parseToken cs i =
      .ok ((true, cs), skipFrom tokens i + 1) := by
  have hlt := hrparen.lt
  obtain ⟨token, htoken, htype⟩ := hrparen
  refine Parse.bind_ok.mpr ⟨(), _, skipNewlinesAndIndents_ok.mpr rfl, ?_⟩
  refine Parse.bind_ok.mpr ⟨(), _, errorIfFinished_ok.mpr ⟨hlt, rfl⟩, ?_⟩
  refine Parse.bind_ok.mpr ⟨token, _, currentToken_ok.mpr ⟨htoken, rfl⟩, ?_⟩
  rw [if_pos htype]
  rfl

/-- A list of arguments that can be parameters is read, or there is a syntax error, by what they are. -/
theorem parseArgList_at {params : List Param} {trailing : Bool}
    (h : CallParamsAt tokens parseToken i params trailing k) (hs : cs.Reads s) {rounds : ℕ}
    (hrounds : params.length < rounds) :
    (parseArgList siphash ParsedValue.name? tokens parseToken rounds cs).Stands i CallArgState.Reads
      (s.addAll siphash params trailing) k := by
  induction h generalizing cs s rounds with
  | @close i hrparen =>
    obtain ⟨rounds, rfl⟩ := Nat.exists_eq_succ_of_ne_zero (by omega : rounds ≠ 0)
    have hround : (parseArgument siphash ParsedValue.name? tokens parseToken cs).Stands i
        (ReadsEnd true) (some s) (skipFrom tokens i + 1) :=
      ⟨(true, cs), parseArgument_close cs hrparen, rfl, hs⟩
    refine parseArgList_succ (skipFrom_lt hrparen) hround nofun ?_
    rintro cs' s' ⟨⟩ hs'
    exact ⟨cs', rfl, hs'⟩
  | @last i j p hp hend =>
    obtain ⟨rounds, rfl⟩ := Nat.exists_eq_succ_of_ne_zero (by omega : rounds ≠ 0)
    have hlt : i < tokens.length := Nat.lt_of_le_of_lt (Nat.le_add_right ..) hp.lt
    have hround : (parseArgument siphash ParsedValue.name? tokens parseToken cs).Stands i
        (ReadsEnd true) ((s.add p).map (CallParams.atEnd siphash true)) (skipFrom tokens j + 1) :=
      parseArgument_at hs hp hend nofun
    rw [CallParams.addAll_cons]
    refine parseArgList_succ hlt hround (fun hnone => ?_) fun cs' s' hsome hs' => ?_
    · rw [Option.map_eq_none_iff.mp hnone]
      rfl
    · obtain ⟨s'', hadd, rfl⟩ := Option.map_eq_some_iff.mp hsome
      rw [hadd]
      exact ⟨cs', rfl, hs'⟩
  | @cons i j k p params trailing hp hcomma hrest ih =>
    rw [List.length_cons] at hrounds
    obtain ⟨rounds, rfl⟩ := Nat.exists_eq_succ_of_ne_zero (by omega : rounds ≠ 0)
    have hlt : i < tokens.length := Nat.lt_of_le_of_lt (Nat.le_add_right ..) hp.lt
    have hround : (parseArgument siphash ParsedValue.name? tokens parseToken cs).Stands i
        (ReadsEnd false) ((s.add p).map (CallParams.atEnd siphash false)) (skipFrom tokens j + 1) :=
      parseArgument_at hs hp hcomma fun _ => hrest.lt
    rw [CallParams.addAll_cons]
    refine parseArgList_succ hlt hround (fun hnone => ?_) fun cs' s' hsome hs' => ?_
    · rw [Option.map_eq_none_iff.mp hnone]
      rfl
    · obtain ⟨s'', hadd, rfl⟩ := Option.map_eq_some_iff.mp hsome
      rw [hadd]
      exact ih hs' (by omega)

/-! ## What can be assigned -/

/-- The arguments of the state are names. -/
structure CallArgState.Named (cs : CallArgState) : Prop where
  args : ∀ value ∈ cs.args, value.name? ≠ none
  vArg : ∀ value ∈ cs.vArg.toList, value.name? ≠ none
  kwArg : ∀ value ∈ cs.kwArg.toList, value.name? ≠ none

theorem CallArgState.Named.of_collects {cs' : CallArgState} {as : List Argument}
    (h : Collects cs as cs') (hnamed : cs'.Named) : cs.Named := by
  obtain ⟨hargs, hvArg, hkwArg⟩ := hnamed
  rw [h.args, List.forall_mem_append] at hargs
  rw [h.vArg, List.forall_mem_append] at hvArg
  rw [h.kwArg, List.forall_mem_append] at hkwArg
  exact ⟨hargs.1, hvArg.1, hkwArg.1⟩

/-- What is behind the star or the name of an argument is there. -/
structure ArgumentInside (tokens : List Token) (i : ℕ) : Prop where
  lt : i < tokens.length
  star : TokenAt tokens i .star → i + 1 < tokens.length
  stars : TokenAt tokens i .star → TokenAt tokens (i + 1) .star → i + 2 < tokens.length
  keyword : TokenAt tokens i .identifier → TokenAt tokens (i + 1) .assign →
    skipFrom tokens (i + 2) < tokens.length

/-- An argument of which the parser makes a name is one that can be a parameter. -/
theorem CallParamAt.of_argumentAt {cs' : CallArgState} {a : Argument} (hinside : ArgumentInside tokens i)
    (hrparen : ¬TokenAt tokens i .rparen)
    (ha : ArgumentAt tokens parseToken i a j) (hcollects : Collects cs [a] cs') (hnamed : cs'.Named) :
    ∃ p, CallParamAt tokens parseToken i p j := by
  classical
  obtain ⟨hargs, hvArg, hkwArg⟩ := hnamed
  rw [hcollects.args, List.forall_mem_append] at hargs
  rw [hcollects.vArg, List.forall_mem_append] at hvArg
  rw [hcollects.kwArg, List.forall_mem_append] at hkwArg
  have hname {n : ℕ} {value : ParsedValue} (hvalue : value.name? ≠ none)
      (hparse : parseToken n = .ok (some value, j)) (hn : n < tokens.length) :
      ∃ name, ParsesName tokens parseToken n name (decide (TokenAt tokens n .identifier)) j := by
    obtain ⟨name, hname⟩ := Option.ne_none_iff_exists'.mp hvalue
    exact ⟨name, value, hparse, hname, decide_eq_true_iff, hn⟩
  cases ha with
  | spread hstar hnot hparse =>
    obtain ⟨name, hname⟩ := hname (hvArg.2 _ (List.mem_singleton_self _)) hparse (hinside.star hstar)
    exact ⟨_, .args hstar hnot hname⟩
  | keywordSpread hstar hstar' hparse =>
    obtain ⟨name, hname⟩ :=
      hname (hkwArg.2 _ (List.mem_singleton_self _)) hparse (hinside.stars hstar hstar')
    exact ⟨_, .kwargs hstar hstar' hname⟩
  | keyword htoken htype hassign hparse =>
    exact ⟨_, .default ⟨_, htoken, htype, rfl⟩ hassign (hinside.keyword ⟨_, htoken, htype⟩ hassign) hparse⟩
  | null htoken htype hquestion => exact ⟨_, .optional ⟨_, htoken, htype, rfl⟩ hquestion⟩
  | positional hstar hnot hparse =>
    obtain ⟨name, hname⟩ := hname (hargs.2 _ (List.mem_singleton_self _)) hparse hinside.lt
    exact ⟨_, .required hstar hrparen hnot hname⟩

theorem parseStarArgument_inside {cs' : CallArgState}
    (h : parseStarArgument tokens parseToken cs i = .ok (cs', j)) :
    i + 1 < tokens.length ∧ (TokenAt tokens (i + 1) .star → i + 2 < tokens.length) := by
  unfold parseStarArgument at h
  obtain ⟨_, _, hnext, h⟩ := Parse.bind_ok.mp h
  obtain rfl := nextToken_ok.mp hnext
  obtain ⟨_, _, hfinished, h⟩ := Parse.bind_ok.mp h
  obtain ⟨hlt, rfl⟩ := errorIfFinished_ok.mp hfinished
  obtain ⟨token, _, hcurrent, h⟩ := Parse.bind_ok.mp h
  obtain ⟨htoken, rfl⟩ := currentToken_ok.mp hcurrent
  refine ⟨hlt, fun hstar => ?_⟩
  obtain ⟨other, hother, htype⟩ := hstar
  rw [htoken, Option.some.injEq] at hother
  rw [if_pos (show token.type = .star from hother ▸ htype)] at h
  obtain ⟨_, h⟩ := guard_ok.mp h
  obtain ⟨_, _, hnext, h⟩ := Parse.bind_ok.mp h
  obtain rfl := nextToken_ok.mp hnext
  obtain ⟨token', _, hcurrent, h⟩ := Parse.bind_ok.mp h
  obtain ⟨htoken', _⟩ := currentToken_ok.mp hcurrent
  exact (List.getElem?_eq_some_iff.mp htoken').1

theorem parseKeywordArgument_inside {cs' : CallArgState} {token : Token}
    (h : parseKeywordArgument tokens parseToken cs token i = .ok (cs', j)) :
    skipFrom tokens (i + 2) < tokens.length := by
  unfold parseKeywordArgument at h
  obtain ⟨_, _, hnext, h⟩ := Parse.bind_ok.mp h
  obtain rfl := nextToken_ok.mp hnext
  obtain ⟨_, _, hnext, h⟩ := Parse.bind_ok.mp h
  obtain rfl := nextToken_ok.mp hnext
  obtain ⟨_, _, hskip, h⟩ := Parse.bind_ok.mp h
  obtain rfl := skipNewlinesAndIndents_ok.mp hskip
  obtain ⟨_, _, hfinished, h⟩ := Parse.bind_ok.mp h
  exact (errorIfFinished_ok.mp hfinished).1

/-- A round that is read to its end was at an argument that is there. -/
theorem parseArgument_inside {r : Bool × CallArgState}
    (h : parseArgument siphash ParsedValue.name? tokens parseToken cs i = .ok (r, k)) :
    ArgumentInside tokens (skipFrom tokens i) := by
  unfold parseArgument at h
  obtain ⟨_, _, hskip, h⟩ := Parse.bind_ok.mp h
  obtain rfl := skipNewlinesAndIndents_ok.mp hskip
  obtain ⟨_, _, hfinished, h⟩ := Parse.bind_ok.mp h
  obtain ⟨hlt, rfl⟩ := errorIfFinished_ok.mp hfinished
  obtain ⟨token, _, hcurrent, h⟩ := Parse.bind_ok.mp h
  obtain ⟨htoken, rfl⟩ := currentToken_ok.mp hcurrent
  have htype {type : TokenType} (h : TokenAt tokens (skipFrom tokens i) type) : token.type = type :=
    TokenAt.unique ⟨token, htoken, rfl⟩ h
  have hstar : TokenAt tokens (skipFrom tokens i) .star →
      skipFrom tokens i + 1 < tokens.length ∧
        (TokenAt tokens (skipFrom tokens i + 1) .star → skipFrom tokens i + 2 < tokens.length) := by
    intro hstar
    rw [if_neg (by rw [htype hstar]; nofun), if_pos (htype hstar)] at h
    obtain ⟨_, _, hargument, _⟩ := Parse.bind_ok.mp h
    exact parseStarArgument_inside hargument
  refine ⟨hlt, fun h => (hstar h).1, fun h => (hstar h).2, fun hidentifier hassign => ?_⟩
  rw [if_neg (by rw [htype hidentifier]; nofun), if_neg (by rw [htype hidentifier]; nofun)] at h
  obtain ⟨isKwarg, _, hpeek, h⟩ := Parse.bind_ok.mp h
  obtain ⟨hkwarg, rfl⟩ := followedBy_iff hpeek
  obtain ⟨isNull, _, hpeek', h⟩ := Parse.bind_ok.mp h
  obtain ⟨hnull, rfl⟩ := followedBy_iff hpeek'
  obtain ⟨_, _, hargument, _⟩ := Parse.bind_ok.mp h
  by_cases hstage : cs.stage = .kwArg
  · -- It is read as an argument by position, which is refused behind `**`.
    have hnot : ¬(token.type = .identifier ∧ isNull = true) := fun h =>
      nomatch hassign.unique (hnull.mp h.2)
    rw [if_neg fun h => h.2.1 hstage, if_neg hnot] at hargument
    unfold parsePositionalArgument at hargument
    rw [hstage] at hargument
    exact absurd rfl (guard_ok.mp (guard_ok.mp hargument).2).1
  · rw [if_pos ⟨htype hidentifier, hstage, hkwarg.mpr hassign⟩] at hargument
    exact parseKeywordArgument_inside hargument

theorem Parse.Stands.of_ok {α β : Type} {x : Parse α} {R : α → β → Prop} {r : Option β} {a : α}
    {i j k : ℕ} (h : x.Stands i R r k) (hok : x i = .ok (a, j)) : ∃ b, r = some b ∧ R a b ∧ j = k := by
  cases r with
  | none =>
    obtain ⟨e, he⟩ := h
    rw [he] at hok
    cases hok
  | some b =>
    obtain ⟨a', ha', hR⟩ := h
    rw [ha', Except.ok.injEq, Prod.mk.injEq] at hok
    obtain ⟨rfl, rfl⟩ := hok
    exact ⟨b, rfl, hR, rfl⟩

theorem parseArgList_lt {rounds : ℕ} {cs' : CallArgState}
    (h : parseArgList siphash ParsedValue.name? tokens parseToken rounds cs i = .ok (cs', k)) :
    i < tokens.length := by
  cases rounds with
  | zero => cases h
  | succ rounds =>
    unfold parseArgList at h
    obtain ⟨_, _, hget, h⟩ := Parse.bind_ok.mp h
    obtain ⟨rfl, rfl⟩ := Parse.get_ok.mp hget
    by_contra hlength
    rw [if_pos (Nat.le_of_not_lt hlength)] at h
    cases h

/-- A list of which all arguments are names is one of parameters. -/
theorem parseArgList_named {rounds : ℕ} {cs' : CallArgState}
    (h : parseArgList siphash ParsedValue.name? tokens parseToken rounds cs i = .ok (cs', k))
    (hs : cs.Reads s) (hnamed : cs'.Named) :
    ∃ params trailing s', CallParamsAt tokens parseToken i params trailing k ∧
      s.addAll siphash params trailing = some s' ∧ cs'.Reads s' := by
  induction rounds generalizing cs s i with
  | zero => cases h
  | succ rounds ih =>
    unfold parseArgList at h
    obtain ⟨_, _, hget, h⟩ := Parse.bind_ok.mp h
    obtain ⟨rfl, rfl⟩ := Parse.get_ok.mp hget
    by_cases hlength : tokens.length ≤ i
    · rw [if_pos hlength] at h
      cases h
    rw [if_neg hlength] at h
    obtain ⟨⟨done, cs₁⟩, j, hargument, h⟩ := Parse.bind_ok.mp h
    dsimp only at h
    have hinside := parseArgument_inside hargument
    rcases parseArgument_ok hargument with
      ⟨rfl, rfl, hrparen, rfl⟩ | ⟨hrparen, a, j', ha, hcollects, hend, rfl⟩
    · obtain ⟨rfl, rfl⟩ := Parse.pure_ok.mp h
      exact ⟨[], true, s, .close hrparen, rfl, hs⟩
    have hnamed₁ : cs₁.Named := by
      cases done with
      | true =>
        obtain ⟨rfl, -⟩ := Parse.pure_ok.mp h
        exact hnamed
      | false =>
        obtain ⟨as, -, hcollects'⟩ := parseArgList_arguments h
        exact .of_collects hcollects' hnamed
    obtain ⟨p, hp⟩ := CallParamAt.of_argumentAt hinside hrparen ha hcollects hnamed₁
    have hnext : done = false → skipFrom tokens j' + 1 < tokens.length := by
      rintro rfl
      exact parseArgList_lt h
    have hstands : (parseArgument siphash ParsedValue.name? tokens parseToken cs).Stands i
        (ReadsEnd done) ((s.add p).map (CallParams.atEnd siphash done)) (skipFrom tokens j' + 1) :=
      parseArgument_at hs hp hend hnext
    obtain ⟨s₁, hadd, ⟨-, hreads⟩, -⟩ := hstands.of_ok hargument
    obtain ⟨s₂, hadd', rfl⟩ := Option.map_eq_some_iff.mp hadd
    cases done with
    | true =>
      obtain ⟨rfl, rfl⟩ := Parse.pure_ok.mp h
      refine ⟨[p], false, _, .last hp hend, ?_, hreads⟩
      rw [CallParams.addAll_cons, hadd']
      rfl
    | false =>
      obtain ⟨params, trailing, s', hparams, hall, hreads'⟩ := ih h hreads
      refine ⟨p :: params, trailing, s', .cons hp hend hparams, ?_, hreads'⟩
      rw [CallParams.addAll_cons, hadd']
      exact hall

end

end Chloride
