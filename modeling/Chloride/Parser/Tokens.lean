import Chloride.Translator.Translated

/-!
# Tokens and the state of the parser

The tokens of `src/lexer/token.h` and what the functions of `src/parser` do with the list of them and
the index they share: `darray_get`, `error_if_finished` and `skip_newlines_and_indents`.
-/

namespace Chloride

/-- `ArTokenType`. -/
inductive TokenType where
  | string | number | identifier | keyword | newLine | indent
  | caret | star | slash | floordiv | modulo | minus | plus | lt | gt | le | ge | eq | ne | notIn | in_
  | and | or
  | assign | caretAssign | starAssign | slashAssign | floordivAssign | moduloAssign | minusAssign
  | plusAssign
  | if_ | elseIf | else_ | while_ | forever | for_ | break_ | continue_ | return_ | let_ | class_
  | import_ | expose | to | until | as_ | from_ | do_ | true_ | false_ | null | delete | not | try_
  | catch_ | throw_
  | lparen | rparen | lbracket | rbracket | lbrace | rbrace
  | dot | comma | colon | question | exclamation | invalid
  | templateStart | templateExprStart | templateEnd | templateText | templateExprEnd
  deriving DecidableEq

/-- `Token`. -/
structure Token where
  type : TokenType
  line : UInt64
  column : UInt64
  length : UInt64
  value : List UInt8
  deriving DecidableEq

/-- How parsing ends without a value: with a syntax error, by `darray_get` out of range, which ends the
process, in what is undefined in C, or not within the steps it was given. -/
inductive ParseStop where
  | error (e : SyntaxError)
  | exit
  | undefined
  | unfinished

/-- What the parser does with the shared index. -/
abbrev Parse := StateT ℕ (Except ParseStop)

/-- `path_specific_create_err` at a token. -/
def syntaxError {α : Type} (token : Token) (message : String) : Parse α :=
  throw (.error ⟨⟨token.line, token.column, token.length⟩, message⟩)

/-- The tokens that separate lines. -/
def TokenType.isBlank : TokenType → Bool
  | .newLine | .indent => true
  | _ => false

variable (tokens : List Token)

/-- `darray_get(tokens, i)`. -/
def darrayGet (i : ℕ) : Parse Token :=
  match tokens[i]? with
  | some token => return token
  | none => throw .exit

/-- `darray_get(tokens, *index)`. -/
def currentToken : Parse Token := do darrayGet tokens (← get)

/-- `(*index)++`. -/
def nextToken : Parse Unit := modify fun index => index + 1

/-- `error_if_finished`. -/
def errorIfFinished : Parse Unit := do
  if tokens.length ≤ (← get) then
    match tokens.getLast? with
    | some token => syntaxError token "more code was expected"
    | none => throw .exit

/-- The first place from one on that is not blank. -/
def skipFrom (i : ℕ) : ℕ := i + ((tokens.drop i).takeWhile fun token => token.type.isBlank).length

/-- Behind blanks there are none to be skipped. -/
theorem skipFrom_skipFrom (i : ℕ) : skipFrom tokens (skipFrom tokens i) = skipFrom tokens i := by
  have hdrop : tokens.drop (skipFrom tokens i) = (tokens.drop i).dropWhile fun token => token.type.isBlank := by
    have hsplit := List.takeWhile_append_dropWhile (p := fun token : Token => token.type.isBlank) (l := tokens.drop i)
    rw [skipFrom, ← List.drop_drop]
    nth_rewrite 2 [← hsplit]
    exact List.drop_left
  have hnone : ((tokens.drop i).dropWhile fun token => token.type.isBlank).takeWhile
      (fun token => token.type.isBlank) = [] := by
    cases hrest : (tokens.drop i).dropWhile fun token => token.type.isBlank with
    | nil => rfl
    | cons token rest =>
      have hblank := List.head_dropWhile_not (fun token : Token => token.type.isBlank) (l := tokens.drop i)
        (by rw [hrest]; exact List.cons_ne_nil _ _)
      simp only [hrest, List.head_cons] at hblank
      rw [List.takeWhile_cons_of_neg (by rw [hblank]; exact Bool.false_ne_true)]
  rw [skipFrom, hdrop, hnone, List.length_nil, Nat.add_zero]

/-- `skip_newlines_and_indents`. -/
def skipNewlinesAndIndents : Parse Unit := modify (skipFrom tokens)

/-- Whether the token behind the current one has a type. -/
def followedBy (type : TokenType) : Parse Bool :=
  return (tokens[(← get) + 1]?).any fun token => token.type = type

/-! ## Results -/

section

variable {tokens} {α β : Type}

theorem Parse.bind_ok {x : Parse α} {f : α → Parse β} {i k : ℕ} {b : β} :
    (x >>= f) i = .ok (b, k) ↔ ∃ a j, x i = .ok (a, j) ∧ f a j = .ok (b, k) := by
  show (x i >>= fun p => f p.1 p.2) = _ ↔ _
  cases x i with
  | error e =>
    constructor
    · nofun
    · rintro ⟨a, j, h, _⟩
      cases h
  | ok p =>
    constructor
    · exact fun h => ⟨p.1, p.2, rfl, h⟩
    · rintro ⟨a, j, h, h'⟩
      cases h
      exact h'

/-- What follows a part with a result. -/
theorem Parse.bind_of_ok {x : Parse α} {f : α → Parse β} {a : α} {i j : ℕ} (h : x i = .ok (a, j)) :
    (x >>= f) i = f a j := by
  show (x i >>= fun p => f p.1 p.2) = _
  rw [h]
  rfl

theorem Parse.pure_ok {a b : α} {i k : ℕ} : (pure a : Parse α) i = .ok (b, k) ↔ a = b ∧ i = k := by
  show (Except.ok (a, i) : Except ParseStop (α × ℕ)) = _ ↔ _
  rw [Except.ok.injEq, Prod.mk.injEq]

theorem Parse.get_ok {i j k : ℕ} : (get : Parse ℕ) i = .ok (j, k) ↔ i = j ∧ i = k := Parse.pure_ok

theorem syntaxError_ok {token : Token} {message : String} {i k : ℕ} {a : α} :
    ¬syntaxError token message i = .ok (a, k) := nofun

/-- What is behind a check. -/
theorem guard_ok {p : Prop} [Decidable p] {token : Token} {message : String} {x : Parse α} {i : ℕ}
    {r : α × ℕ} : (if p then syntaxError token message else x) i = .ok r ↔ ¬p ∧ x i = .ok r := by
  by_cases hp : p
  · rw [if_pos hp]
    exact ⟨fun h => absurd h syntaxError_ok, fun h => absurd hp h.1⟩
  · rw [if_neg hp]
    exact ⟨fun h => ⟨hp, h⟩, fun h => h.2⟩

theorem darrayGet_ok {n i k : ℕ} {token : Token} :
    darrayGet tokens n i = .ok (token, k) ↔ tokens[n]? = some token ∧ i = k := by
  unfold darrayGet
  cases tokens[n]? with
  | none => exact ⟨nofun, nofun⟩
  | some other => rw [Option.some.injEq]; exact Parse.pure_ok

theorem currentToken_ok {i k : ℕ} {token : Token} :
    currentToken tokens i = .ok (token, k) ↔ tokens[i]? = some token ∧ i = k := darrayGet_ok

theorem nextToken_ok {i k : ℕ} {u : Unit} : nextToken i = .ok (u, k) ↔ i + 1 = k := by
  show (Except.ok ((), i + 1) : Except ParseStop (Unit × ℕ)) = _ ↔ _
  rw [Except.ok.injEq, Prod.mk.injEq]
  exact ⟨fun h => h.2, fun h => ⟨rfl, h⟩⟩

theorem skipNewlinesAndIndents_ok {i k : ℕ} {u : Unit} :
    skipNewlinesAndIndents tokens i = .ok (u, k) ↔ skipFrom tokens i = k := by
  show (Except.ok ((), skipFrom tokens i) : Except ParseStop (Unit × ℕ)) = _ ↔ _
  rw [Except.ok.injEq, Prod.mk.injEq]
  exact ⟨fun h => h.2, fun h => ⟨rfl, h⟩⟩

theorem errorIfFinished_ok {i k : ℕ} {u : Unit} :
    errorIfFinished tokens i = .ok (u, k) ↔ i < tokens.length ∧ i = k := by
  unfold errorIfFinished
  rw [Parse.bind_ok]
  constructor
  · rintro ⟨a, j, hget, h⟩
    obtain ⟨rfl, rfl⟩ := Parse.get_ok.mp hget
    by_cases hle : tokens.length ≤ i
    · rw [if_pos hle] at h
      cases hlast : tokens.getLast? with
      | none =>
        rw [hlast] at h
        cases h
      | some token =>
        rw [hlast] at h
        exact absurd h syntaxError_ok
    · rw [if_neg hle] at h
      exact ⟨Nat.lt_of_not_le hle, (Parse.pure_ok.mp h).2⟩
  · rintro ⟨hlt, rfl⟩
    refine ⟨i, i, rfl, ?_⟩
    rw [if_neg (Nat.not_le.mpr hlt)]
    rfl

theorem followedBy_ok {type : TokenType} {i k : ℕ} {b : Bool} :
    followedBy tokens type i = .ok (b, k) ↔
      ((tokens[i + 1]?).any fun token => token.type = type) = b ∧ i = k := Parse.pure_ok

end

end Chloride
