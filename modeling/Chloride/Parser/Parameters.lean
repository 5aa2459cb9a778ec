import Chloride.Parser.Call

/-!
# Parameter lists

`parse_param_list` of `src/parser/declaration/declaration.c`, which reads the parameters of a
declaration with `let` and of an anonymous function. A list is written as a `Param` for each parameter
(`ParamsAt`); the parser takes it or gives a syntax error by what the parameters are alone
(`parseParamList_at`), and it takes nothing else (`parseParamList_ok`).
-/

namespace Chloride

/-! ## The parser -/

/-- `ParamState`. The stages are 0 for positional parameters, 1 for defaults, 2 for `*args` and 3 for
`**kwargs`. -/
structure ParamState where
  seen : List UInt64
  positional : List Name
  defaults : Option (List (Name × ParsedValue))
  vParam : Option Name
  kwParam : Option Name
  stage : ℕ

/-- `param_state_init`. -/
def ParamState.init : ParamState := ⟨[], [], none, none, none, 0⟩

/-- A default value; the list of them is made with the first one. -/
def ParamState.pushDefault (ps : ParamState) (name : Name) (value : ParsedValue) : ParamState :=
  { ps with defaults := some (ps.defaults.getD [] ++ [(name, value)]), stage := 1 }

section

variable (siphash : List UInt8 → UInt64) (tokens : List Token)
  (parseToken : Parse (Option ParsedValue))

/-- `*args` and `**kwargs`; the index is at the star, and then at the name. -/
def parseStarParam (ps : ParamState) : Parse ParamState := do
  nextToken
  errorIfFinished tokens
  let token ← currentToken tokens
  if token.type = .star then
    if ps.kwParam.isSome then syntaxError token "only one **kwargs parameter is allowed"
    else
      nextToken
      errorIfFinished tokens
      let token ← currentToken tokens
      if token.type ≠ .identifier then syntaxError token "expected identifier after **"
      else if siphash token.value ∈ ps.seen then
        syntaxError token "duplicate argument in function definition"
      else return { ps with kwParam := some token.value, stage := 3 }
  else if 2 ≤ ps.stage then syntaxError token "only one *args parameter is allowed"
  else if token.type ≠ .identifier then syntaxError token "expected identifier after *"
  else if siphash token.value ∈ ps.seen then
    syntaxError token "duplicate argument in function definition"
  else return { ps with vParam := some token.value, stage := 2 }

/-- What may be behind the name of a parameter: a default, or nothing. -/
def parseDefault (ps : ParamState) (name : Name) : Parse ParamState := do
  let token ← currentToken tokens
  if token.type = .question then
    if 2 ≤ ps.stage then
      syntaxError token "optional parameter not allowed after *args/**kwargs"
    else
      nextToken
      let _ ← currentToken tokens
      return ps.pushDefault name .null
  else if token.type = .assign then
    if ps.stage = 2 then syntaxError token "*args parameter cannot have a default value"
    else
      nextToken
      skipNewlinesAndIndents tokens
      errorIfFinished tokens
      match ← parseToken with
      | none => syntaxError token "expected value"
      | some value =>
        skipNewlinesAndIndents tokens
        errorIfFinished tokens
        return ps.pushDefault name value
  else if ps.stage = 1 then syntaxError token "non-default argument follows default argument"
  else if 2 ≤ ps.stage then syntaxError token "no positional parameters allowed after *args"
  else return { ps with positional := ps.positional ++ [name] }

/-- A parameter that is not behind a star; the index is at the name. -/
def parseNamedParam (ps : ParamState) (token : Token) : Parse ParamState := do
  if token.type ≠ .identifier then
    syntaxError token ("parameter names need to start with a letter or _, " ++
      "only use letters, digits, or _, and can't be keywords.")
  else if ps.stage = 3 then syntaxError token "no parameters allowed after **kwargs"
  else if siphash token.value ∈ ps.seen then
    syntaxError token "duplicate argument in function definition"
  else
    nextToken
    skipNewlinesAndIndents tokens
    errorIfFinished tokens
    parseDefault tokens parseToken { ps with seen := siphash token.value :: ps.seen } token.value

/-- One round of the loop of `parse_param_list`; whether the list is at its end. -/
def parseParam (ps : ParamState) : Parse (Bool × ParamState) := do
  skipNewlinesAndIndents tokens
  errorIfFinished tokens
  let token ← currentToken tokens
  if token.type = .rparen then
    nextToken
    return (true, ps)
  else if token.type = .star then
    let ps ← parseStarParam siphash tokens ps
    nextToken
    skipNewlinesAndIndents tokens
    errorIfFinished tokens
    let token ← currentToken tokens
    if token.type = .rparen then
      nextToken
      return (true, ps)
    else if token.type ≠ .comma then
      syntaxError token "expected comma or ) after *args/**kwargs"
    else
      nextToken
      return (false, ps)
  else
    let ps ← parseNamedParam siphash tokens parseToken ps token
    let token ← currentToken tokens
    if token.type = .rparen then
      nextToken
      return (true, ps)
    else if token.type ≠ .comma then syntaxError token "expected comma"
    else
      nextToken
      errorIfFinished tokens
      return (false, ps)

/-- `parse_param_list`, for a number of rounds. -/
def parseParamList : ℕ → ParamState → Parse ParamState
  | 0, _ => throw .unfinished
  | rounds + 1, ps => do
    if tokens.length ≤ (← get) then
      throw (.error ⟨⟨0, 0, 0⟩, "unexpected end of file in parameter list"⟩)
    else
      let (done, ps) ← parseParam siphash tokens parseToken ps
      if done then return ps else parseParamList rounds ps

end

/-! ## Lists of parameters -/

/-- A parameter as it is written. `plain` is how: an optional one with the comma or the parenthesis
right behind it, another one as a name. -/
inductive Param where
  | required (name : Name) (plain : Bool)
  | default (name : Name) (value : ParsedValue)
  | optional (name : Name) (plain : Bool)
  | args (name : Name) (plain : Bool)
  | kwargs (name : Name) (plain : Bool)

def Param.name : Param → Name
  | required name _ | default name _ | optional name _ | args name _ | kwargs name _ => name

/-- The stages of the parameters. -/
def Param.stage : Param → ℕ
  | required .. => 0
  | default .. | optional .. => 1
  | args .. => 2
  | kwargs .. => 3

/-- The parameter has a default value. -/
def Param.HasDefault (p : Param) : Prop := p.stage = 1

instance (p : Param) : Decidable p.HasDefault := inferInstanceAs (Decidable (p.stage = 1))

/-- The names are distinct, no required parameter is behind a defaulted one, and `*args` and `**kwargs`
are there once at most. -/
structure ValidParams (params : List Param) : Prop where
  distinct : (params.map Param.name).Nodup
  required_first : params.Pairwise fun p q => p.HasDefault → q.stage ≠ 0
  one_args : params.Pairwise fun p q => p.stage = 2 → q.stage ≠ 2
  one_kwargs : params.Pairwise fun p q => p.stage = 3 → q.stage ≠ 3

section

variable (tokens : List Token) (parseToken : Parse (Option ParsedValue))

/-- There is an identifier at a place. -/
def NameAt (i : ℕ) (name : Name) : Prop :=
  ∃ token, tokens[i]? = some token ∧ token.type = .identifier ∧ token.value = name

/-- A parameter from a place to the place where the token behind it is. -/
inductive ParamAt : ℕ → Param → ℕ → Prop where
  | required {i : ℕ} {name : Name} : NameAt tokens i name →
    ¬TokenAt tokens (skipFrom tokens (i + 1)) .assign →
    ¬TokenAt tokens (skipFrom tokens (i + 1)) .question →
    ParamAt i (.required name true) (skipFrom tokens (i + 1))
  | default {i j : ℕ} {name : Name} {value : ParsedValue} : NameAt tokens i name →
    TokenAt tokens (skipFrom tokens (i + 1)) .assign →
    skipFrom tokens (skipFrom tokens (i + 1) + 1) < tokens.length →
    parseToken (skipFrom tokens (skipFrom tokens (i + 1) + 1)) = .ok (some value, j) →
    ParamAt i (.default name value) (skipFrom tokens j)
  | optional {i : ℕ} {name : Name} {plain : Bool} : NameAt tokens i name →
    TokenAt tokens (skipFrom tokens (i + 1)) .question →
    (plain = true ↔ skipFrom tokens (skipFrom tokens (i + 1) + 1) = skipFrom tokens (i + 1) + 1) →
    ParamAt i (.optional name plain) (skipFrom tokens (skipFrom tokens (i + 1) + 1))
  | args {i : ℕ} {name : Name} : TokenAt tokens i .star → NameAt tokens (i + 1) name →
    ParamAt i (.args name true) (skipFrom tokens (i + 2))
  | kwargs {i : ℕ} {name : Name} : TokenAt tokens i .star → TokenAt tokens (i + 1) .star →
    NameAt tokens (i + 2) name → ParamAt i (.kwargs name true) (skipFrom tokens (i + 3))

/-- The parameters from a place behind the opening parenthesis or a comma to the place behind the
closing parenthesis, which may have a comma in front of it. -/
inductive ParamsAt : ℕ → List Param → ℕ → Prop where
  | close {i : ℕ} : TokenAt tokens (skipFrom tokens i) .rparen →
    ParamsAt i [] (skipFrom tokens i + 1)
  | last {i j : ℕ} {p : Param} : ParamAt tokens parseToken (skipFrom tokens i) p j →
    TokenAt tokens j .rparen → ParamsAt i [p] (j + 1)
  | cons {i j k : ℕ} {p : Param} {params : List Param} :
    ParamAt tokens parseToken (skipFrom tokens i) p j → TokenAt tokens j .comma →
    ParamsAt (j + 1) params k → ParamsAt i (p :: params) k

end

/-- The stage of a parameter is not over, and it is written as the parser expects it. -/
def ParamState.Fits (ps : ParamState) : Param → Prop
  | .required .. => ps.stage = 0
  | .default .. => ps.stage ≤ 1
  | .optional _ plain => ps.stage ≤ 1 ∧ plain = true
  | .args .. => ps.stage ≤ 1
  | .kwargs .. => ps.kwParam = none

instance (ps : ParamState) : DecidablePred ps.Fits := fun p => by
  cases p <;> unfold ParamState.Fits <;> infer_instance

section

variable (siphash : List UInt8 → UInt64)

/-- The state with a parameter. -/
def ParamState.insert (ps : ParamState) : Param → ParamState
  | .required name _ =>
    { ps with seen := siphash name :: ps.seen, positional := ps.positional ++ [name] }
  | .default name value => { ps with seen := siphash name :: ps.seen }.pushDefault name value
  | .optional name _ => { ps with seen := siphash name :: ps.seen }.pushDefault name .null
  | .args name _ => { ps with vParam := some name, stage := 2 }
  | .kwargs name _ => { ps with kwParam := some name, stage := 3 }

/-- What `parse_param_list` does with a parameter; `none` is a syntax error. -/
def ParamState.add (ps : ParamState) (p : Param) : Option ParamState :=
  if siphash p.name ∉ ps.seen ∧ ps.Fits p then some (ps.insert siphash p) else none

end

/-! ## Results with syntax errors -/

section

variable {α β : Type} {i j k : ℕ} {x : Parse α} {a : α} {f : α → Parse β} {r : Option β}

/-- The parser gives a value at a place, or (`none`) a syntax error. -/
def Parse.Gives (x : Parse α) (i : ℕ) (r : Option α) (k : ℕ) : Prop :=
  match r with
  | some a => x i = .ok (a, k)
  | none => ∃ e, x i = .error (.error e)

theorem Parse.Gives.bind (hx : x i = .ok (a, j)) (h : (f a).Gives j r k) : (x >>= f).Gives i r k := by
  have hbind : (x >>= f) i = f a j := by
    show (x i >>= fun p => f p.1 p.2) = _
    rw [hx]
    rfl
  cases r with
  | none =>
    obtain ⟨e, he⟩ := h
    exact ⟨e, hbind.trans he⟩
  | some b => exact hbind.trans h

theorem Parse.Gives.bind_none (h : x.Gives i none j) : (x >>= f).Gives i none k := by
  obtain ⟨e, he⟩ := h
  refine ⟨e, ?_⟩
  show (x i >>= fun p => f p.1 p.2) = _
  rw [he]
  rfl

theorem Parse.Gives.bind_map {r : Option α} {g : α → β} (hx : x.Gives i r j)
    (h : ∀ a, (f a).Gives j (some (g a)) k) : (x >>= f).Gives i (r.map g) k := by
  cases r with
  | none => exact .bind_none hx
  | some a => exact .bind hx (h a)

theorem Parse.Gives.bind_all_none {r : Option α} (hx : x.Gives i r j)
    (h : ∀ a, (f a).Gives j none k) : (x >>= f).Gives i none k := by
  cases r with
  | none => exact .bind_none hx
  | some a => exact .bind hx (h a)

theorem Parse.Gives.error {token : Token} {message : String} :
    (syntaxError token message : Parse α).Gives i none k := ⟨_, rfl⟩

theorem Parse.Gives.unique {r : Option α} (h : x.Gives i r k) (h' : x i = .ok (a, j)) :
    r = some a ∧ k = j := by
  cases r with
  | none =>
    obtain ⟨e, he⟩ := h
    rw [he] at h'
    cases h'
  | some b =>
    have hok := h.symm.trans h'
    rw [Except.ok.injEq, Prod.mk.injEq] at hok
    exact ⟨congrArg some hok.1, hok.2⟩

variable {tokens : List Token} {g : Unit → Parse β}

theorem Parse.Gives.next (h : (g ()).Gives (i + 1) r k) : (nextToken >>= g).Gives i r k :=
  Gives.bind (a := ()) (nextToken_ok.mpr rfl) h

theorem Parse.Gives.skip (h : (g ()).Gives (skipFrom tokens i) r k) :
    (skipNewlinesAndIndents tokens >>= g).Gives i r k :=
  Gives.bind (a := ()) (skipNewlinesAndIndents_ok.mpr rfl) h

theorem Parse.Gives.finished (hlt : i < tokens.length) (h : (g ()).Gives i r k) :
    (errorIfFinished tokens >>= g).Gives i r k :=
  Gives.bind (a := ()) (errorIfFinished_ok.mpr ⟨hlt, rfl⟩) h

theorem Parse.Gives.current {token : Token} {g : Token → Parse β} (htoken : tokens[i]? = some token)
    (h : (g token).Gives i r k) : (currentToken tokens >>= g).Gives i r k :=
  Gives.bind (currentToken_ok.mpr ⟨htoken, rfl⟩) h

end

section

variable {siphash : List UInt8 → UInt64} {tokens : List Token}
  {parseToken : Parse (Option ParsedValue)} {ps : ParamState} {i j k : ℕ} {name : Name}

theorem NameAt.lt (h : NameAt tokens i name) : i < tokens.length := by
  obtain ⟨token, htoken, _⟩ := h
  exact (List.getElem?_eq_some_iff.mp htoken).1

section Add

variable {p : Param}

theorem ParamState.add_of_seen (hname : p.name = name) (h : siphash name ∈ ps.seen) :
    ps.add siphash p = none := if_neg fun h' => h'.1 (hname ▸ h)

theorem ParamState.add_of_not_fits (h : ¬ps.Fits p) : ps.add siphash p = none :=
  if_neg fun h' => h h'.2

theorem ParamState.add_of_fits (hname : p.name = name) (hseen : siphash name ∉ ps.seen)
    (h : ps.Fits p) : ps.add siphash p = some (ps.insert siphash p) := if_pos ⟨hname ▸ hseen, h⟩

end Add

theorem parseStarParam_args (hname : NameAt tokens (i + 1) name) :
    (parseStarParam siphash tokens ps).Gives i (ps.add siphash (.args name true)) (i + 1) := by
  have hlt := hname.lt
  obtain ⟨token, htoken, htype, rfl⟩ := hname
  refine .next (.finished hlt (.current htoken ?_))
  rw [if_neg (by rw [htype]; nofun)]
  by_cases hstage : 2 ≤ ps.stage
  · have hnot : ¬ps.Fits (.args token.value true) := Nat.not_le.mpr hstage
    rw [if_pos hstage, ParamState.add_of_not_fits hnot]
    exact .error
  have hfits : ps.Fits (.args token.value true) := Nat.lt_succ_iff.mp (Nat.lt_of_not_le hstage)
  rw [if_neg hstage, if_neg (not_not.mpr htype)]
  by_cases hseen : siphash token.value ∈ ps.seen
  · rw [if_pos hseen, ParamState.add_of_seen rfl hseen]
    exact .error
  · rw [if_neg hseen, ParamState.add_of_fits rfl hseen hfits]
    rfl

theorem parseStarParam_kwargs (hstar : TokenAt tokens (i + 1) .star)
    (hname : NameAt tokens (i + 2) name) :
    (parseStarParam siphash tokens ps).Gives i (ps.add siphash (.kwargs name true)) (i + 2) := by
  have hlt := hstar.lt
  have hlt' := hname.lt
  obtain ⟨star, hstar, htype⟩ := hstar
  obtain ⟨token, htoken, htype', rfl⟩ := hname
  refine .next (.finished hlt (.current hstar ?_))
  rw [if_pos htype]
  by_cases hsome : ps.kwParam.isSome = true
  · have hnot : ¬ps.Fits (.kwargs token.value true) := Option.isSome_iff_ne_none.mp hsome
    rw [if_pos hsome, ParamState.add_of_not_fits hnot]
    exact .error
  have hfits : ps.Fits (.kwargs token.value true) := Option.not_isSome_iff_eq_none.mp hsome
  rw [if_neg hsome]
  refine .next (.finished hlt' (.current htoken ?_))
  rw [if_neg (not_not.mpr htype')]
  by_cases hseen : siphash token.value ∈ ps.seen
  · rw [if_pos hseen, ParamState.add_of_seen rfl hseen]
    exact .error
  · rw [if_neg hseen, ParamState.add_of_fits rfl hseen hfits]
    rfl

section Named

variable {token : Token} {p : Param}

/-- What is the same for every parameter that is not behind a star. -/
theorem parseNamedParam_name (htype : token.type = .identifier)
    (hlt : skipFrom tokens (i + 1) < tokens.length) (hname : p.name = token.value)
    (hfits : ps.Fits p → ps.stage ≤ 1)
    (h : ps.stage ≠ 3 → siphash token.value ∉ ps.seen →
      (parseDefault tokens parseToken { ps with seen := siphash token.value :: ps.seen }
        token.value).Gives (skipFrom tokens (i + 1)) (ps.add siphash p) k) :
    (parseNamedParam siphash tokens parseToken ps token).Gives i (ps.add siphash p) k := by
  unfold parseNamedParam
  rw [if_neg (not_not.mpr htype)]
  by_cases hstage : ps.stage = 3
  · have hnot : ¬ps.Fits p := fun h => by have := hfits h; omega
    rw [if_pos hstage, ParamState.add_of_not_fits hnot]
    exact .error
  rw [if_neg hstage]
  by_cases hseen : siphash token.value ∈ ps.seen
  · rw [if_pos hseen, ParamState.add_of_seen hname hseen]
    exact .error
  rw [if_neg hseen]
  exact .next (.skip (.finished hlt (h hstage hseen)))

theorem parseNamedParam_required (htype : token.type = .identifier)
    (hlt : skipFrom tokens (i + 1) < tokens.length)
    (hassign : ¬TokenAt tokens (skipFrom tokens (i + 1)) .assign)
    (hquestion : ¬TokenAt tokens (skipFrom tokens (i + 1)) .question) :
    (parseNamedParam siphash tokens parseToken ps token).Gives i
      (ps.add siphash (.required token.value true)) (skipFrom tokens (i + 1)) := by
  refine parseNamedParam_name htype hlt rfl (fun h => Nat.le_of_eq h |>.trans (by omega)) ?_
  intro _ hseen
  have hbehind := List.getElem?_eq_getElem hlt
  refine .current hbehind ?_
  rw [if_neg fun h => hquestion ⟨_, hbehind, h⟩, if_neg fun h => hassign ⟨_, hbehind, h⟩]
  by_cases hstage : ps.stage = 0
  · have hfits : ps.Fits (.required token.value true) := hstage
    rw [ParamState.add_of_fits rfl hseen hfits]
    dsimp only
    rw [if_neg (by omega), if_neg (by omega)]
    rfl
  · have hnot : ¬ps.Fits (.required token.value true) := hstage
    rw [ParamState.add_of_not_fits hnot]
    dsimp only
    by_cases hone : ps.stage = 1
    · rw [if_pos hone]
      exact .error
    · rw [if_neg hone, if_pos (by omega)]
      exact .error

theorem parseNamedParam_default (htype : token.type = .identifier) (hstage : ps.stage ≤ 3)
    (hassign : TokenAt tokens (skipFrom tokens (i + 1)) .assign) {value : ParsedValue}
    (hvalue : parseToken (skipFrom tokens (skipFrom tokens (i + 1) + 1)) = .ok (some value, j))
    (hlt' : skipFrom tokens (skipFrom tokens (i + 1) + 1) < tokens.length)
    (hlt : skipFrom tokens j < tokens.length) :
    (parseNamedParam siphash tokens parseToken ps token).Gives i
      (ps.add siphash (.default token.value value)) (skipFrom tokens j) := by
  refine parseNamedParam_name htype hassign.lt rfl id ?_
  intro hthree hseen
  obtain ⟨assign, hbehind, htype'⟩ := hassign
  refine .current hbehind ?_
  rw [if_neg (by rw [htype']; nofun), if_pos htype']
  dsimp only
  by_cases htwo : ps.stage = 2
  · have hnot : ¬ps.Fits (.default token.value value) := fun h => by
      have : ps.stage ≤ 1 := h
      omega
    rw [if_pos htwo, ParamState.add_of_not_fits hnot]
    exact .error
  have hfits : ps.Fits (.default token.value value) := by
    show ps.stage ≤ 1
    omega
  rw [if_neg htwo, ParamState.add_of_fits rfl hseen hfits]
  exact .next (.skip (.finished hlt' (.bind hvalue (.skip (.finished hlt rfl)))))

theorem parseNamedParam_optional (htype : token.type = .identifier)
    (hquestion : TokenAt tokens (skipFrom tokens (i + 1)) .question)
    (hlt : skipFrom tokens (i + 1) + 1 < tokens.length) :
    (parseNamedParam siphash tokens parseToken ps token).Gives i
      (ps.add siphash (.optional token.value true)) (skipFrom tokens (i + 1) + 1) := by
  refine parseNamedParam_name htype hquestion.lt rfl (fun h => h.1) ?_
  intro _ hseen
  obtain ⟨question, hbehind, htype'⟩ := hquestion
  refine .current hbehind ?_
  rw [if_pos htype']
  by_cases hstage : 2 ≤ ps.stage
  · have hnot : ¬ps.Fits (.optional token.value true) := fun h => by
      have := h.1
      omega
    rw [if_pos hstage, ParamState.add_of_not_fits hnot]
    exact .error
  have hfits : ps.Fits (.optional token.value true) := ⟨by omega, rfl⟩
  rw [if_neg hstage, ParamState.add_of_fits rfl hseen hfits]
  exact .next (.current (List.getElem?_eq_getElem hlt) rfl)

end Named

theorem exists_blank_of_skipFrom (h : skipFrom tokens i ≠ i) :
    ∃ token, tokens[i]? = some token ∧ token.type.isBlank = true := by
  cases htoken : tokens[i]? with
  | none =>
    refine absurd ?_ h
    unfold skipFrom
    rw [List.drop_eq_nil_of_le (List.getElem?_eq_none_iff.mp htoken)]
    rfl
  | some token =>
    obtain ⟨hlt, rfl⟩ := List.getElem?_eq_some_iff.mp htoken
    refine ⟨_, rfl, ?_⟩
    by_contra hblank
    refine h ?_
    unfold skipFrom
    rw [List.drop_eq_getElem_cons hlt, List.takeWhile_cons, if_neg hblank]
    rfl

section Round

variable {r : Option ParamState} {done : Bool}

theorem parseParam_star (hstar : TokenAt tokens (skipFrom tokens i) .star)
    (h : (parseStarParam siphash tokens ps).Gives (skipFrom tokens i) r j)
    (hend : TokenAt tokens (skipFrom tokens (j + 1)) (if done then .rparen else .comma)) :
    (parseParam siphash tokens parseToken ps).Gives i (r.map fun ps => (done, ps))
      (skipFrom tokens (j + 1) + 1) := by
  have hlt := hend.lt
  obtain ⟨endToken, hendToken, hendType⟩ := hend
  have hlt' := hstar.lt
  obtain ⟨token, htoken, htype⟩ := hstar
  refine .skip (.finished hlt' (.current htoken ?_))
  rw [if_neg (by rw [htype]; nofun), if_pos htype]
  refine .bind_map h fun ps => .next (.skip (.finished hlt (.current hendToken ?_)))
  cases done with
  | true =>
    rw [if_pos (show endToken.type = .rparen from hendType)]
    rfl
  | false =>
    have hcomma : endToken.type = .comma := hendType
    rw [if_neg (by rw [hcomma]; nofun), if_neg (not_not.mpr hcomma)]
    rfl

theorem parseParam_named {token : Token} (htoken : tokens[skipFrom tokens i]? = some token)
    (htype : token.type = .identifier)
    (h : (parseNamedParam siphash tokens parseToken ps token).Gives (skipFrom tokens i) r j)
    (hend : TokenAt tokens j (if done then .rparen else .comma))
    (hnext : done = false → j + 1 < tokens.length) :
    (parseParam siphash tokens parseToken ps).Gives i (r.map fun ps => (done, ps)) (j + 1) := by
  obtain ⟨endToken, hendToken, hendType⟩ := hend
  refine .skip (.finished (List.getElem?_eq_some_iff.mp htoken).1 (.current htoken ?_))
  rw [if_neg (by rw [htype]; nofun), if_neg (by rw [htype]; nofun)]
  refine .bind_map h fun ps => .current hendToken ?_
  cases done with
  | true =>
    rw [if_pos (show endToken.type = .rparen from hendType)]
    rfl
  | false =>
    have hcomma : endToken.type = .comma := hendType
    rw [if_neg (by rw [hcomma]; nofun), if_neg (not_not.mpr hcomma)]
    exact .next (.finished (hnext rfl) rfl)

/-- What is behind a parameter is a new line. -/
theorem parseParam_blank {token blank : Token} (htoken : tokens[skipFrom tokens i]? = some token)
    (htype : token.type = .identifier)
    (h : (parseNamedParam siphash tokens parseToken ps token).Gives (skipFrom tokens i) r j)
    (hblank : tokens[j]? = some blank) (hblank' : blank.type.isBlank = true) :
    (parseParam siphash tokens parseToken ps).Gives i none k := by
  have hrparen : blank.type ≠ .rparen := fun h => by rw [h] at hblank'; cases hblank'
  have hcomma : blank.type ≠ .comma := fun h => by rw [h] at hblank'; cases hblank'
  refine .skip (.finished (List.getElem?_eq_some_iff.mp htoken).1 (.current htoken ?_))
  rw [if_neg (by rw [htype]; nofun), if_neg (by rw [htype]; nofun)]
  refine .bind_all_none h fun ps => .current hblank ?_
  rw [if_neg hrparen, if_pos hcomma]
  exact .error

end Round

/-- One round at a parameter. -/
theorem parseParam_at {p : Param} (hp : ParamAt tokens parseToken (skipFrom tokens i) p j)
    (hstage : ps.stage ≤ 3) {done : Bool}
    (hend : TokenAt tokens j (if done then .rparen else .comma))
    (hnext : done = false → j + 1 < tokens.length) :
    (parseParam siphash tokens parseToken ps).Gives i ((ps.add siphash p).map fun ps => (done, ps))
      (j + 1) := by
  cases hp with
  | required hname hassign hquestion =>
    obtain ⟨token, htoken, htype, rfl⟩ := hname
    exact parseParam_named htoken htype (parseNamedParam_required htype hend.lt hassign hquestion)
      hend hnext
  | default hname hassign hlt hvalue =>
    obtain ⟨token, htoken, htype, rfl⟩ := hname
    exact parseParam_named htoken htype
      (parseNamedParam_default htype hstage hassign hvalue hlt hend.lt) hend hnext
  | @optional name plain hname hquestion hplain =>
    obtain ⟨token, htoken, htype, rfl⟩ := hname
    have hle : skipFrom tokens (skipFrom tokens i + 1) + 1 ≤
        skipFrom tokens (skipFrom tokens (skipFrom tokens i + 1) + 1) := Nat.le_add_right ..
    have hread : (parseNamedParam siphash tokens parseToken ps token).Gives (skipFrom tokens i)
        (ps.add siphash (.optional token.value true)) (skipFrom tokens (skipFrom tokens i + 1) + 1) :=
      parseNamedParam_optional htype hquestion (by have := hend.lt; omega)
    cases plain with
    | true =>
      rw [← hplain.mp rfl] at hread
      exact parseParam_named htoken htype hread hend hnext
    | false =>
      have hblank : skipFrom tokens (skipFrom tokens (skipFrom tokens i + 1) + 1) ≠
          skipFrom tokens (skipFrom tokens i + 1) + 1 := fun h => nomatch hplain.mpr h
      obtain ⟨blank, hblank, hblank'⟩ := exists_blank_of_skipFrom hblank
      have hnot : ¬ps.Fits (.optional token.value false) := fun h => nomatch h.2
      rw [ParamState.add_of_not_fits hnot]
      exact parseParam_blank htoken htype hread hblank hblank'
  | args hstar hname => exact parseParam_star hstar (parseStarParam_args hname) hend
  | kwargs hstar hstar' hname =>
    exact parseParam_star hstar (parseStarParam_kwargs hstar' hname) hend

/-- The stages are the four. -/
theorem ParamState.add_stage {ps' : ParamState} {p : Param} (hstage : ps.stage ≤ 3)
    (h : ps.add siphash p = some ps') : ps'.stage ≤ 3 := by
  unfold ParamState.add at h
  by_cases hadd : siphash p.name ∉ ps.seen ∧ ps.Fits p
  · rw [if_pos hadd, Option.some.injEq] at h
    subst h
    cases p with
    | required => exact hstage
    | default => exact (by decide : 1 ≤ 3)
    | optional => exact (by decide : 1 ≤ 3)
    | args => exact (by decide : 2 ≤ 3)
    | kwargs => exact Nat.le_refl 3
  · rw [if_neg hadd] at h
    cases h

/-- The state after some parameters. -/
def ParamState.addAll (siphash : List UInt8 → UInt64) (ps : ParamState) (params : List Param) :
    Option ParamState :=
  params.foldlM (fun ps p => ps.add siphash p) ps

theorem skipFrom_lt {type : TokenType} (h : TokenAt tokens (skipFrom tokens i) type) :
    i < tokens.length := Nat.lt_of_le_of_lt (Nat.le_add_right ..) h.lt

theorem ParamAt.lt {p : Param} (h : ParamAt tokens parseToken (skipFrom tokens i) p j) :
    i < tokens.length := by
  have hlt : skipFrom tokens i < tokens.length := by
    cases h with
    | required hname => exact hname.lt
    | default hname => exact hname.lt
    | optional hname => exact hname.lt
    | args hstar => exact hstar.lt
    | kwargs hstar => exact hstar.lt
  exact Nat.lt_of_le_of_lt (Nat.le_add_right ..) hlt

theorem ParamsAt.lt {params : List Param} (h : ParamsAt tokens parseToken i params k) :
    i < tokens.length := by
  cases h with
  | close hrparen => exact skipFrom_lt hrparen
  | last hp => exact hp.lt
  | cons hp => exact hp.lt

theorem ParamState.addAll_cons (siphash : List UInt8 → UInt64) (ps : ParamState) (p : Param)
    (params : List Param) :
    ps.addAll siphash (p :: params) =
      (ps.add siphash p).bind fun ps => ps.addAll siphash params := List.foldlM_cons

/-- A round, and the rounds behind it. -/
theorem parseParamList_succ (hlt : i < tokens.length) {rounds : ℕ} {r : Option (Bool × ParamState)}
    (h : (parseParam siphash tokens parseToken ps).Gives i r j) {r' : Option ParamState}
    (hnone : r = none → r' = none)
    (hsome : ∀ done ps', r = some (done, ps') →
      (if done then pure ps' else parseParamList siphash tokens parseToken rounds ps').Gives j r' k) :
    (parseParamList siphash tokens parseToken (rounds + 1) ps).Gives i r' k := by
  have hloop : (do
      let (done, ps) ← parseParam siphash tokens parseToken ps
      if done then return ps else parseParamList siphash tokens parseToken rounds ps :
      Parse ParamState).Gives i r' k := by
    cases r with
    | none =>
      rw [hnone rfl]
      exact .bind_none h
    | some x => exact .bind h (hsome x.1 x.2 rfl)
  unfold parseParamList
  refine .bind (a := i) (Parse.get_ok.mpr ⟨rfl, rfl⟩) ?_
  rw [if_neg (by omega)]
  exact hloop

theorem parseParam_close (hrparen : TokenAt tokens (skipFrom tokens i) .rparen) :
    (parseParam siphash tokens parseToken ps).Gives i (some (true, ps)) (skipFrom tokens i + 1) := by
  have hlt := hrparen.lt
  obtain ⟨token, htoken, htype⟩ := hrparen
  refine .skip (.finished hlt (.current htoken ?_))
  rw [if_pos htype]
  exact .next rfl

/-- A list of parameters is taken, or there is a syntax error, by what the parameters are. -/
theorem parseParamList_at {params : List Param} (h : ParamsAt tokens parseToken i params k)
    (hstage : ps.stage ≤ 3) {rounds : ℕ} (hrounds : params.length < rounds) :
    (parseParamList siphash tokens parseToken rounds ps).Gives i (ps.addAll siphash params) k := by
  induction h generalizing ps rounds with
  | @close i hrparen =>
    obtain ⟨rounds, rfl⟩ := Nat.exists_eq_succ_of_ne_zero (by omega : rounds ≠ 0)
    refine parseParamList_succ (skipFrom_lt hrparen) (parseParam_close hrparen) nofun ?_
    rintro done ps' ⟨⟩
    rfl
  | @last i j p hp hend =>
    obtain ⟨rounds, rfl⟩ := Nat.exists_eq_succ_of_ne_zero (by omega : rounds ≠ 0)
    have hround : (parseParam siphash tokens parseToken ps).Gives i
        ((ps.add siphash p).map fun ps => (true, ps)) (j + 1) := parseParam_at hp hstage hend nofun
    rw [ParamState.addAll_cons]
    refine parseParamList_succ hp.lt hround (fun hnone => ?_) fun done ps' hsome => ?_
    · rw [Option.map_eq_none_iff.mp hnone]
      rfl
    · obtain ⟨ps'', hadd, heq⟩ := Option.map_eq_some_iff.mp hsome
      cases heq
      rw [hadd]
      rfl
  | @cons i j k p params hp hcomma hrest ih =>
    rw [List.length_cons] at hrounds
    obtain ⟨rounds, rfl⟩ := Nat.exists_eq_succ_of_ne_zero (by omega : rounds ≠ 0)
    have hround : (parseParam siphash tokens parseToken ps).Gives i
        ((ps.add siphash p).map fun ps => (false, ps)) (j + 1) :=
      parseParam_at hp hstage hcomma fun _ => hrest.lt
    rw [ParamState.addAll_cons]
    refine parseParamList_succ hp.lt hround (fun hnone => ?_) fun done ps' hsome => ?_
    · rw [Option.map_eq_none_iff.mp hnone]
      rfl
    · obtain ⟨ps'', hadd, heq⟩ := Option.map_eq_some_iff.mp hsome
      cases heq
      rw [hadd]
      exact ih (ParamState.add_stage hstage hadd) (by omega)

/-! ## What is taken -/

theorem skipFrom_of_tokenAt {type : TokenType} (h : TokenAt tokens i type)
    (hblank : type.isBlank = false) : skipFrom tokens i = i := by
  by_contra hne
  obtain ⟨token, htoken, hblank'⟩ := exists_blank_of_skipFrom hne
  obtain ⟨token', htoken', rfl⟩ := h
  rw [htoken, Option.some.injEq] at htoken'
  rw [htoken', hblank] at hblank'
  cases hblank'

theorem parseStarParam_ok {ps' : ParamState} (hstar : TokenAt tokens i .star)
    (h : parseStarParam siphash tokens ps i = .ok (ps', j)) :
    ∃ p, ParamAt tokens parseToken i p (skipFrom tokens (j + 1)) := by
  unfold parseStarParam at h
  obtain ⟨_, _, hnext, h⟩ := Parse.bind_ok.mp h
  obtain rfl := nextToken_ok.mp hnext
  obtain ⟨_, _, hfinished, h⟩ := Parse.bind_ok.mp h
  obtain ⟨_, rfl⟩ := errorIfFinished_ok.mp hfinished
  obtain ⟨token, _, hcurrent, h⟩ := Parse.bind_ok.mp h
  obtain ⟨htoken, rfl⟩ := currentToken_ok.mp hcurrent
  by_cases htype : token.type = .star
  · rw [if_pos htype] at h
    obtain ⟨_, h⟩ := guard_ok.mp h
    obtain ⟨_, _, hnext, h⟩ := Parse.bind_ok.mp h
    obtain rfl := nextToken_ok.mp hnext
    obtain ⟨_, _, hfinished, h⟩ := Parse.bind_ok.mp h
    obtain ⟨_, rfl⟩ := errorIfFinished_ok.mp hfinished
    obtain ⟨token', _, hcurrent, h⟩ := Parse.bind_ok.mp h
    obtain ⟨htoken', rfl⟩ := currentToken_ok.mp hcurrent
    obtain ⟨htype', h⟩ := guard_ok.mp h
    obtain ⟨_, h⟩ := guard_ok.mp h
    obtain ⟨_, rfl⟩ := Parse.pure_ok.mp h
    exact ⟨.kwargs token'.value true,
      .kwargs hstar ⟨token, htoken, htype⟩ ⟨token', htoken', not_not.mp htype', rfl⟩⟩
  · rw [if_neg htype] at h
    obtain ⟨_, h⟩ := guard_ok.mp h
    obtain ⟨htype', h⟩ := guard_ok.mp h
    obtain ⟨_, h⟩ := guard_ok.mp h
    obtain ⟨_, rfl⟩ := Parse.pure_ok.mp h
    exact ⟨.args token.value true, .args hstar ⟨token, htoken, not_not.mp htype', rfl⟩⟩

/-- What is behind the name of a parameter, if the token behind that is not blank. -/
theorem parseDefault_ok {ps' : ParamState} (hname : NameAt tokens i name)
    (hend : ∃ type, TokenAt tokens j type ∧ type.isBlank = false)
    (h : parseDefault tokens parseToken ps name (skipFrom tokens (i + 1)) = .ok (ps', j)) :
    ∃ p, ParamAt tokens parseToken i p j := by
  obtain ⟨type, htypeAt, hblank⟩ := hend
  unfold parseDefault at h
  obtain ⟨behind, _, hcurrent, h⟩ := Parse.bind_ok.mp h
  obtain ⟨hbehind, rfl⟩ := currentToken_ok.mp hcurrent
  have hunique (type : TokenType) (h : TokenAt tokens (skipFrom tokens (i + 1)) type) :
      behind.type = type := by
    obtain ⟨other, hother, htype⟩ := h
    rw [hbehind, Option.some.injEq] at hother
    exact hother ▸ htype
  by_cases hquestion : behind.type = .question
  · rw [if_pos hquestion] at h
    obtain ⟨_, h⟩ := guard_ok.mp h
    obtain ⟨_, _, hnext, h⟩ := Parse.bind_ok.mp h
    obtain rfl := nextToken_ok.mp hnext
    obtain ⟨_, _, hcurrent, h⟩ := Parse.bind_ok.mp h
    obtain ⟨_, rfl⟩ := currentToken_ok.mp hcurrent
    obtain ⟨_, rfl⟩ := Parse.pure_ok.mp h
    have hskip := skipFrom_of_tokenAt htypeAt hblank
    have hp : ParamAt tokens parseToken i (.optional name true)
        (skipFrom tokens (skipFrom tokens (i + 1) + 1)) :=
      .optional hname ⟨behind, hbehind, hquestion⟩ (iff_of_true rfl hskip)
    rw [hskip] at hp
    exact ⟨_, hp⟩
  rw [if_neg hquestion] at h
  by_cases hassign : behind.type = .assign
  · rw [if_pos hassign] at h
    obtain ⟨_, h⟩ := guard_ok.mp h
    obtain ⟨_, _, hnext, h⟩ := Parse.bind_ok.mp h
    obtain rfl := nextToken_ok.mp hnext
    obtain ⟨_, _, hskip, h⟩ := Parse.bind_ok.mp h
    obtain rfl := skipNewlinesAndIndents_ok.mp hskip
    obtain ⟨_, _, hfinished, h⟩ := Parse.bind_ok.mp h
    obtain ⟨hlt, rfl⟩ := errorIfFinished_ok.mp hfinished
    obtain ⟨value, _, hvalue, h⟩ := Parse.bind_ok.mp h
    cases value with
    | none => exact absurd h syntaxError_ok
    | some value =>
      obtain ⟨_, _, hskip, h⟩ := Parse.bind_ok.mp h
      obtain rfl := skipNewlinesAndIndents_ok.mp hskip
      obtain ⟨_, _, hfinished, h⟩ := Parse.bind_ok.mp h
      obtain ⟨_, rfl⟩ := errorIfFinished_ok.mp hfinished
      obtain ⟨_, rfl⟩ := Parse.pure_ok.mp h
      exact ⟨_, .default hname ⟨behind, hbehind, hassign⟩ hlt hvalue⟩
  rw [if_neg hassign] at h
  obtain ⟨_, h⟩ := guard_ok.mp h
  obtain ⟨_, h⟩ := guard_ok.mp h
  obtain ⟨_, rfl⟩ := Parse.pure_ok.mp h
  exact ⟨_, .required hname (fun h => hassign (hunique _ h)) fun h => hquestion (hunique _ h)⟩

/-- What one round reads: the closing parenthesis, or a parameter with what is behind it. -/
theorem parseParam_ok {ps' : ParamState} {done : Bool}
    (h : parseParam siphash tokens parseToken ps i = .ok ((done, ps'), k)) :
    (done = true ∧ TokenAt tokens (skipFrom tokens i) .rparen ∧ k = skipFrom tokens i + 1) ∨
    ∃ p j, ParamAt tokens parseToken (skipFrom tokens i) p j ∧
      TokenAt tokens j (if done then .rparen else .comma) ∧ k = j + 1 := by
  unfold parseParam at h
  obtain ⟨_, _, hskip, h⟩ := Parse.bind_ok.mp h
  obtain rfl := skipNewlinesAndIndents_ok.mp hskip
  obtain ⟨_, _, hfinished, h⟩ := Parse.bind_ok.mp h
  obtain ⟨_, rfl⟩ := errorIfFinished_ok.mp hfinished
  obtain ⟨token, _, hcurrent, h⟩ := Parse.bind_ok.mp h
  obtain ⟨htoken, rfl⟩ := currentToken_ok.mp hcurrent
  by_cases hrparen : token.type = .rparen
  · rw [if_pos hrparen] at h
    obtain ⟨_, _, hnext, h⟩ := Parse.bind_ok.mp h
    obtain rfl := nextToken_ok.mp hnext
    obtain ⟨hpair, rfl⟩ := Parse.pure_ok.mp h
    cases hpair
    exact .inl ⟨rfl, ⟨token, htoken, hrparen⟩, rfl⟩
  rw [if_neg hrparen] at h
  refine .inr ?_
  by_cases hstar : token.type = .star
  · rw [if_pos hstar] at h
    obtain ⟨ps₁, j, hread, h⟩ := Parse.bind_ok.mp h
    have hp : ∃ p, ParamAt tokens parseToken _ p _ := parseStarParam_ok ⟨token, htoken, hstar⟩ hread
    obtain ⟨p, hp⟩ := hp
    obtain ⟨_, _, hnext, h⟩ := Parse.bind_ok.mp h
    obtain rfl := nextToken_ok.mp hnext
    obtain ⟨_, _, hskip, h⟩ := Parse.bind_ok.mp h
    obtain rfl := skipNewlinesAndIndents_ok.mp hskip
    obtain ⟨_, _, hfinished, h⟩ := Parse.bind_ok.mp h
    obtain ⟨_, rfl⟩ := errorIfFinished_ok.mp hfinished
    obtain ⟨endToken, _, hcurrent, h⟩ := Parse.bind_ok.mp h
    obtain ⟨hend, rfl⟩ := currentToken_ok.mp hcurrent
    refine ⟨p, _, hp, ?_⟩
    by_cases hrparen' : endToken.type = .rparen
    · rw [if_pos hrparen'] at h
      obtain ⟨_, _, hnext, h⟩ := Parse.bind_ok.mp h
      obtain rfl := nextToken_ok.mp hnext
      obtain ⟨hpair, rfl⟩ := Parse.pure_ok.mp h
      cases hpair
      exact ⟨⟨endToken, hend, hrparen'⟩, rfl⟩
    · rw [if_neg hrparen'] at h
      obtain ⟨hcomma, h⟩ := guard_ok.mp h
      obtain ⟨_, _, hnext, h⟩ := Parse.bind_ok.mp h
      obtain rfl := nextToken_ok.mp hnext
      obtain ⟨hpair, rfl⟩ := Parse.pure_ok.mp h
      cases hpair
      exact ⟨⟨endToken, hend, not_not.mp hcomma⟩, rfl⟩
  rw [if_neg hstar] at h
  obtain ⟨ps₁, j, hread, h⟩ := Parse.bind_ok.mp h
  unfold parseNamedParam at hread
  obtain ⟨htype, hread⟩ := guard_ok.mp hread
  obtain ⟨_, hread⟩ := guard_ok.mp hread
  obtain ⟨_, hread⟩ := guard_ok.mp hread
  obtain ⟨_, _, hnext, hread⟩ := Parse.bind_ok.mp hread
  obtain rfl := nextToken_ok.mp hnext
  obtain ⟨_, _, hskip, hread⟩ := Parse.bind_ok.mp hread
  obtain rfl := skipNewlinesAndIndents_ok.mp hskip
  obtain ⟨_, _, hfinished, hread⟩ := Parse.bind_ok.mp hread
  obtain ⟨_, rfl⟩ := errorIfFinished_ok.mp hfinished
  obtain ⟨endToken, _, hcurrent, h⟩ := Parse.bind_ok.mp h
  obtain ⟨hend, rfl⟩ := currentToken_ok.mp hcurrent
  have hname : NameAt tokens (skipFrom tokens i) token.value :=
    ⟨token, htoken, not_not.mp htype, rfl⟩
  by_cases hrparen' : endToken.type = .rparen
  · rw [if_pos hrparen'] at h
    obtain ⟨_, _, hnext, h⟩ := Parse.bind_ok.mp h
    obtain rfl := nextToken_ok.mp hnext
    obtain ⟨hpair, rfl⟩ := Parse.pure_ok.mp h
    cases hpair
    have hendAt : TokenAt tokens j .rparen := ⟨endToken, hend, hrparen'⟩
    obtain ⟨p, hp⟩ := parseDefault_ok hname ⟨_, hendAt, rfl⟩ hread
    exact ⟨p, j, hp, hendAt, rfl⟩
  · rw [if_neg hrparen'] at h
    obtain ⟨hcomma, h⟩ := guard_ok.mp h
    obtain ⟨_, _, hnext, h⟩ := Parse.bind_ok.mp h
    obtain rfl := nextToken_ok.mp hnext
    obtain ⟨_, _, hfinished, h⟩ := Parse.bind_ok.mp h
    obtain ⟨_, rfl⟩ := errorIfFinished_ok.mp hfinished
    obtain ⟨hpair, rfl⟩ := Parse.pure_ok.mp h
    cases hpair
    have hendAt : TokenAt tokens j .comma := ⟨endToken, hend, not_not.mp hcomma⟩
    obtain ⟨p, hp⟩ := parseDefault_ok hname ⟨_, hendAt, rfl⟩ hread
    exact ⟨p, j, hp, hendAt, rfl⟩

theorem parseParamList_lt {rounds : ℕ} {ps' : ParamState}
    (h : parseParamList siphash tokens parseToken rounds ps i = .ok (ps', k)) : i < tokens.length := by
  cases rounds with
  | zero => cases h
  | succ rounds =>
    unfold parseParamList at h
    obtain ⟨_, _, hget, h⟩ := Parse.bind_ok.mp h
    obtain ⟨rfl, rfl⟩ := Parse.get_ok.mp hget
    by_contra hlength
    rw [if_pos (Nat.le_of_not_lt hlength)] at h
    cases h

/-- What the parser takes is a list of parameters. -/
theorem parseParamList_ok (hstage : ps.stage ≤ 3) {rounds : ℕ} {ps' : ParamState}
    (h : parseParamList siphash tokens parseToken rounds ps i = .ok (ps', k)) :
    ∃ params, ParamsAt tokens parseToken i params k ∧ ps.addAll siphash params = some ps' := by
  induction rounds generalizing ps i with
  | zero => cases h
  | succ rounds ih =>
    unfold parseParamList at h
    obtain ⟨_, _, hget, h⟩ := Parse.bind_ok.mp h
    obtain ⟨rfl, rfl⟩ := Parse.get_ok.mp hget
    by_cases hlength : tokens.length ≤ i
    · rw [if_pos hlength] at h
      cases h
    rw [if_neg hlength] at h
    obtain ⟨⟨done, ps₁⟩, j, hround, h⟩ := Parse.bind_ok.mp h
    dsimp only at h
    rcases parseParam_ok hround with ⟨rfl, hrparen, rfl⟩ | ⟨p, j', hp, hend, rfl⟩
    · have hclose : (parseParam siphash tokens parseToken ps).Gives i (some (true, ps))
          (skipFrom tokens i + 1) := parseParam_close hrparen
      have heq := (hclose.unique hround).1
      cases heq
      obtain ⟨rfl, rfl⟩ := Parse.pure_ok.mp h
      exact ⟨[], .close hrparen, rfl⟩
    have hadd (hnext : done = false → j' + 1 < tokens.length) : ps.add siphash p = some ps₁ := by
      have hgives : (parseParam siphash tokens parseToken ps).Gives i _ (j' + 1) :=
        parseParam_at hp hstage hend hnext
      have heq := (hgives.unique hround).1
      obtain ⟨ps₂, hps₂, heq⟩ := Option.map_eq_some_iff.mp heq
      cases heq
      exact hps₂
    cases done with
    | true =>
      obtain ⟨rfl, rfl⟩ := Parse.pure_ok.mp h
      refine ⟨[p], .last hp hend, ?_⟩
      rw [ParamState.addAll_cons, hadd nofun]
      rfl
    | false =>
      rw [if_neg Bool.false_ne_true] at h
      have hadd' := hadd fun _ => parseParamList_lt h
      obtain ⟨params, hparams, hall⟩ := ih (ParamState.add_stage hstage hadd') h
      refine ⟨p :: params, .cons hp hend hparams, ?_⟩
      rw [ParamState.addAll_cons, hadd']
      exact hall

end

/-! ## The lists that are taken -/

section

variable {siphash : List UInt8 → UInt64} {ps ps' : ParamState} {params : List Param} {p q : Param}

/-- The stages of a state are in step with its `**kwargs`. -/
def ParamState.Staged (ps : ParamState) : Prop := ps.stage ≤ 3 ∧ (ps.stage = 3 ↔ ps.kwParam ≠ none)

theorem Param.stage_le_three (p : Param) : p.stage ≤ 3 := by
  cases p with
  | required => exact Nat.zero_le 3
  | default => exact (by decide : 1 ≤ 3)
  | optional => exact (by decide : 1 ≤ 3)
  | args => exact (by decide : 2 ≤ 3)
  | kwargs => exact Nat.le_refl 3

/-- An optional parameter has the comma or the parenthesis right behind it. -/
def Param.Adjacent : Param → Prop
  | .optional _ plain => plain = true
  | _ => True

/-- A parameter may come after a state. -/
structure ParamState.Allows (siphash : List UInt8 → UInt64) (ps : ParamState) (q : Param) : Prop where
  not_seen : siphash q.name ∉ ps.seen
  stage_le : ps.stage ≤ q.stage
  stage_lt : 2 ≤ ps.stage → ps.stage < q.stage

/-- A parameter may come after another one. -/
structure Param.Precedes (siphash : List UInt8 → UInt64) (p q : Param) : Prop where
  hash_ne : siphash p.name ≠ siphash q.name ∨ (p.stage = 2 ∧ q.stage = 3)
  stage_le : p.stage ≤ q.stage
  stage_lt : 2 ≤ p.stage → p.stage < q.stage

theorem ParamState.add_eq_some :
    ps.add siphash p = some ps' ↔
      (siphash p.name ∉ ps.seen ∧ ps.Fits p) ∧ ps.insert siphash p = ps' := by
  unfold ParamState.add
  rw [Option.ite_none_right_eq_some, Option.some.injEq]

theorem ParamState.fits_iff (hps : ps.Staged) :
    ps.Fits p ↔ (ps.stage ≤ p.stage ∧ (2 ≤ ps.stage → ps.stage < p.stage)) ∧ p.Adjacent := by
  obtain ⟨hstage, hthree⟩ := hps
  cases p with
  | required name plain =>
    show ps.stage = 0 ↔ (ps.stage ≤ 0 ∧ (2 ≤ ps.stage → ps.stage < 0)) ∧ True
    rw [and_true]
    omega
  | default name value =>
    show ps.stage ≤ 1 ↔ (ps.stage ≤ 1 ∧ (2 ≤ ps.stage → ps.stage < 1)) ∧ True
    rw [and_true]
    omega
  | optional name plain =>
    show ps.stage ≤ 1 ∧ plain = true ↔ (ps.stage ≤ 1 ∧ (2 ≤ ps.stage → ps.stage < 1)) ∧ plain = true
    exact and_congr_left fun _ => by omega
  | args name plain =>
    show ps.stage ≤ 1 ↔ (ps.stage ≤ 2 ∧ (2 ≤ ps.stage → ps.stage < 2)) ∧ True
    rw [and_true]
    omega
  | kwargs name plain =>
    show ps.kwParam = none ↔ (ps.stage ≤ 3 ∧ (2 ≤ ps.stage → ps.stage < 3)) ∧ True
    rw [and_true, ← not_iff_not, ← Ne, ← hthree]
    omega

/-- A parameter is taken when it may come after the state. -/
theorem ParamState.exists_add (hps : ps.Staged) :
    (∃ ps', ps.add siphash p = some ps') ↔ ps.Allows siphash p ∧ p.Adjacent := by
  have hadd : (∃ ps', ps.add siphash p = some ps') ↔ siphash p.name ∉ ps.seen ∧ ps.Fits p := by
    constructor
    · rintro ⟨ps', h⟩
      exact (ParamState.add_eq_some.mp h).1
    · exact fun h => ⟨_, ParamState.add_eq_some.mpr ⟨h, rfl⟩⟩
  rw [hadd, ParamState.fits_iff hps]
  constructor
  · rintro ⟨hseen, ⟨hle, hlt⟩, hadjacent⟩
    exact ⟨⟨hseen, hle, hlt⟩, hadjacent⟩
  · rintro ⟨⟨hseen, hle, hlt⟩, hadjacent⟩
    exact ⟨hseen, ⟨hle, hlt⟩, hadjacent⟩

theorem ParamState.staged_of_add (hps : ps.Staged) (h : ps.add siphash p = some ps') :
    ps'.Staged := by
  obtain ⟨⟨-, hfits⟩, rfl⟩ := ParamState.add_eq_some.mp h
  obtain ⟨hstage, hthree⟩ := hps
  have hnone (h : ps.stage ≤ 1) : ps.kwParam = none := by
    by_contra hsome
    have := hthree.mpr hsome
    omega
  cases p with
  | required => exact ⟨hstage, hthree⟩
  | default => exact ⟨(by decide : 1 ≤ 3), iff_of_false (by nofun) (not_not.mpr (hnone hfits))⟩
  | optional => exact ⟨(by decide : 1 ≤ 3), iff_of_false (by nofun) (not_not.mpr (hnone hfits.1))⟩
  | args => exact ⟨(by decide : 2 ≤ 3), iff_of_false (by nofun) (not_not.mpr (hnone hfits))⟩
  | kwargs => exact ⟨Nat.le_refl 3, iff_of_true rfl nofun⟩

/-- What may come after a parameter that is taken. -/
theorem ParamState.allows_of_add (hps : ps.Staged) (h : ps.add siphash p = some ps') :
    ps'.Allows siphash q ↔ ps.Allows siphash q ∧ p.Precedes siphash q := by
  obtain ⟨⟨-, hfits⟩, rfl⟩ := ParamState.add_eq_some.mp h
  have hstages := ((ParamState.fits_iff hps).mp hfits).1
  have hseen : siphash q.name ∉ siphash p.name :: ps.seen ↔
      siphash q.name ∉ ps.seen ∧ siphash p.name ≠ siphash q.name := by
    rw [List.mem_cons, not_or, and_comm, ne_comm]
  -- A parameter with a place of its own is seen by the ones behind it.
  have hnamed {stage : ℕ} (hp : p.stage < 2) (hle : ps.stage ≤ stage) (hstage : stage = p.stage) :
      (siphash q.name ∉ siphash p.name :: ps.seen ∧ stage ≤ q.stage ∧ (2 ≤ stage → stage < q.stage)) ↔
        ps.Allows siphash q ∧ p.Precedes siphash q := by
    rw [hseen]
    constructor
    · rintro ⟨⟨hnot, hne⟩, hle', -⟩
      exact ⟨⟨hnot, by omega, by omega⟩, .inl hne, by omega, by omega⟩
    · rintro ⟨⟨hnot, -, -⟩, hne | hp', hle', -⟩
      · exact ⟨⟨hnot, hne⟩, by omega, by omega⟩
      · omega
  have hstar {stage : ℕ} (hp : 2 ≤ p.stage) (hstage : stage = p.stage) :
      (siphash q.name ∉ ps.seen ∧ stage ≤ q.stage ∧ (2 ≤ stage → stage < q.stage)) ↔
        ps.Allows siphash q ∧ p.Precedes siphash q := by
    have := q.stage_le_three
    constructor
    · rintro ⟨hnot, hle, hlt⟩
      exact ⟨⟨hnot, by omega, by omega⟩, .inr (by omega), by omega, by omega⟩
    · rintro ⟨⟨hnot, -, -⟩, -, hle, hlt⟩
      exact ⟨hnot, by omega, by omega⟩
  have hiff (ps : ParamState) : ps.Allows siphash q ↔
      (siphash q.name ∉ ps.seen ∧ ps.stage ≤ q.stage ∧ (2 ≤ ps.stage → ps.stage < q.stage)) :=
    ⟨fun h => ⟨h.1, h.2, h.3⟩, fun h => ⟨h.1, h.2.1, h.2.2⟩⟩
  rw [hiff]
  cases p with
  | required => exact hnamed (by decide : 0 < 2) (Nat.le_refl _) (Nat.le_zero.mp hstages.1)
  | default => exact hnamed (by decide : 1 < 2) hstages.1 rfl
  | optional => exact hnamed (by decide : 1 < 2) hstages.1 rfl
  | args => exact hstar (Nat.le_refl 2) rfl
  | kwargs => exact hstar (by decide : 2 ≤ 3) rfl

/-- The lists that are taken behind a state. -/
theorem ParamState.exists_addAll (hps : ps.Staged) :
    (∃ ps', ps.addAll siphash params = some ps') ↔
      params.Pairwise (Param.Precedes siphash) ∧ ∀ q ∈ params, ps.Allows siphash q ∧ q.Adjacent := by
  induction params generalizing ps with
  | nil => exact iff_of_true ⟨ps, rfl⟩ ⟨.nil, nofun⟩
  | cons p params ih =>
    rw [List.pairwise_cons, List.forall_mem_cons]
    constructor
    · rintro ⟨ps', h⟩
      rw [ParamState.addAll_cons, Option.bind_eq_some_iff] at h
      obtain ⟨ps₁, hadd, h⟩ := h
      obtain ⟨hpairwise, hall⟩ := (ih (ParamState.staged_of_add hps hadd)).mp ⟨ps', h⟩
      have hboth (q : Param) (hq : q ∈ params) := (ParamState.allows_of_add hps hadd).mp (hall q hq).1
      exact ⟨⟨fun q hq => (hboth q hq).2, hpairwise⟩, (ParamState.exists_add hps).mp ⟨ps₁, hadd⟩,
        fun q hq => ⟨(hboth q hq).1, (hall q hq).2⟩⟩
    · rintro ⟨⟨hbehind, hpairwise⟩, hp, hall⟩
      obtain ⟨ps₁, hadd⟩ := (ParamState.exists_add hps).mpr hp
      have hrest := (ih (ParamState.staged_of_add hps hadd)).mpr ⟨hpairwise, fun q hq =>
        ⟨(ParamState.allows_of_add hps hadd).mpr ⟨(hall q hq).1, hbehind q hq⟩, (hall q hq).2⟩⟩
      rw [ParamState.addAll_cons, hadd]
      exact hrest

/-- The lists that `parse_param_list` takes: the parameters are in the order of their stages, `*args` and
`**kwargs` are there once, the names are apart but for those two, and no optional parameter has a new
line behind it. -/
def TakenParams (siphash : List UInt8 → UInt64) (params : List Param) : Prop :=
  params.Pairwise (Param.Precedes siphash) ∧ ∀ p ∈ params, p.Adjacent

theorem exists_addAll_init :
    (∃ ps', ParamState.init.addAll siphash params = some ps') ↔ TakenParams siphash params := by
  have hinit : ParamState.init.Staged := ⟨Nat.zero_le 3, iff_of_false nofun (not_not.mpr rfl)⟩
  have hallows (q : Param) : ParamState.init.Allows siphash q :=
    ⟨List.not_mem_nil, Nat.zero_le _, fun h => absurd h (by decide : ¬2 ≤ 0)⟩
  rw [ParamState.exists_addAll hinit]
  exact and_congr_right fun _ =>
    ⟨fun h q hq => (h q hq).2, fun h q hq => ⟨hallows q, h q hq⟩⟩

/-- `*args` and `**kwargs` have one name. -/
def SharedCollector (params : List Param) : Prop :=
  ∃ p ∈ params, ∃ q ∈ params, p.stage = 2 ∧ q.stage = 3 ∧ p.name = q.name

/-- A list in which `*args` and `**kwargs` have one name is not valid. -/
theorem SharedCollector.not_valid (h : SharedCollector params) : ¬ValidParams params := by
  obtain ⟨p, hp, q, hq, hpstage, hqstage, hname⟩ := h
  intro hvalid
  have heq := List.inj_on_of_nodup_map hvalid.distinct hp hq hname
  rw [heq, hqstage] at hpstage
  cases hpstage

/-- A list that is taken is valid unless `*args` and `**kwargs` have one name. -/
theorem TakenParams.valid_iff (h : TakenParams siphash params) :
    ValidParams params ↔ ¬SharedCollector params := by
  obtain ⟨hpairwise, -⟩ := h
  constructor
  · exact fun hvalid hshared => hshared.not_valid hvalid
  · intro hshared
    refine ⟨?_, ?_, ?_, ?_⟩
    · rw [List.Nodup, List.pairwise_map]
      refine hpairwise.imp_of_mem fun hp hq hpq hname => ?_
      rcases hpq.hash_ne with hne | ⟨hpstage, hqstage⟩
      · exact hne (congrArg siphash hname)
      · exact hshared ⟨_, hp, _, hq, hpstage, hqstage, hname⟩
    · refine hpairwise.imp fun hpq hdefault hzero => ?_
      have := hpq.stage_le
      have hone : _ = 1 := hdefault
      omega
    · refine hpairwise.imp fun hpq htwo htwo' => ?_
      have := hpq.stage_lt (by omega)
      omega
    · refine hpairwise.imp fun hpq hthree hthree' => ?_
      have := hpq.stage_lt (by omega)
      omega

end

end Chloride
