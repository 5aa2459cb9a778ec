import Chloride.Lexer.Rules

/-!
# Templates and parentheses

The lexer keeps a number for each open template, in an array with `template_stack_top`: how many
parentheses are open in the expression of the template, its own among them. `lexes_rightly` shows, for every
source text and every place of it that the lexer gets to, that this is as good as a stack of what is open:
a closing parenthesis ends the expression of a template exactly when what is between them is complete code,
and then the text of the same template goes on.
-/

namespace Chloride

open Munch

/-! ## The lexer -/

def templateStackMax : ℕ := 64

/-- The start states of the lexer. -/
inductive StartState where
  | initial
  | template
  deriving DecidableEq

/-- `LexerState`, with the start state of the scanner. -/
structure LexerState where
  currentLine : ℕ
  currentColumn : ℕ
  templateParenStack : List ℕ
  templateStackTop : ℤ
  start : StartState

/-- What the callers of `lexer` start with. -/
def LexerState.init : LexerState where
  currentLine := 0
  currentColumn := 0
  templateParenStack := List.replicate templateStackMax 0
  templateStackTop := -1
  start := .initial

/-- `template_paren_stack[i]`. There is no value outside of the array. -/
def LexerState.paren (state : LexerState) (i : ℤ) : Option ℕ :=
  if 0 ≤ i then state.templateParenStack[i.toNat]? else none

/-- `template_paren_stack[i] = n`. -/
def LexerState.setParen (state : LexerState) (i : ℤ) (n : ℕ) : Option LexerState :=
  if 0 ≤ i ∧ i < state.templateParenStack.length then
    some { state with templateParenStack := state.templateParenStack.set i.toNat n }
  else none

/-- The rules of both start states. -/
inductive LexRule where
  | code (rule : CodeRule)
  | template (rule : TemplateToken)
  deriving DecidableEq

/-- How an action ends: it returns a token, it goes on, or it ends the process. -/
inductive Emitted where
  | token (type : TokenType)
  | skipped
  | exit
  deriving DecidableEq

/-- The action of `"("`. -/
def lparenAction (state : LexerState) : Option (Emitted × LexerState) :=
  if 0 ≤ state.templateStackTop then do
    let n ← state.paren state.templateStackTop
    if 0 < n then return (.token .lparen, ← state.setParen state.templateStackTop (n + 1))
    else return (.token .lparen, state)
  else return (.token .lparen, state)

/-- The action of `")"`. -/
def rparenAction (state : LexerState) : Option (Emitted × LexerState) :=
  if 0 ≤ state.templateStackTop then do
    let n ← state.paren state.templateStackTop
    if 0 < n then
      let state ← state.setParen state.templateStackTop (n - 1)
      if n - 1 = 0 then return (.token .templateExprEnd, { state with start := .template })
      else return (.token .rparen, state)
    else return (.token .rparen, state)
  else return (.token .rparen, state)

/-- The action of a back quote in code. -/
def templateStartAction (state : LexerState) : Option (Emitted × LexerState) :=
  if templateStackMax ≤ state.templateStackTop + 1 then return (.token .invalid, state)
  else do
    let state := { state with templateStackTop := state.templateStackTop + 1 }
    let state ← state.setParen state.templateStackTop 0
    return (.token .templateStart, { state with start := .template })

/-- The actions, for a text that a rule has matched. An action that reads or writes outside of the array
has no result. -/
def LexRule.action (text : List UInt8) (state : LexerState) : LexRule → Option (Emitted × LexerState)
  | .code .null => return (.exit, state)
  | .code (.token type) => return (.token type, state)
  | .code .lparen => lparenAction state
  | .code .rparen => rparenAction state
  | .code .templateStart => templateStartAction state
  | .code .blanks =>
    if state.currentColumn = 0 then return (.token .indent, state)
    else return (.skipped, { state with currentColumn := state.currentColumn + text.length })
  | .code .comment => return (.skipped, state)
  | .template .exprStart => do
    let state ← state.setParen state.templateStackTop 1
    return (.token .templateExprStart, { state with start := .initial })
  | .template .end_ =>
    return (.token .templateEnd,
      { state with templateStackTop := state.templateStackTop - 1, start := .initial })
  | .template .text => return (.token .templateText, state)

/-- What `lexer` does with the lines and the columns of a token. -/
def LexerState.advance (state : LexerState) (type : TokenType) (text : List UInt8) : LexerState :=
  if type = .newLine then { state with currentLine := state.currentLine + 1, currentColumn := 0 }
  else if 0 < text.count 10 then
    { state with
      currentLine := state.currentLine + text.count 10
      currentColumn := (text.reverse.takeWhile (· ≠ 10)).length }
  else { state with currentColumn := state.currentColumn + text.length }

def LexerState.proceed (state : LexerState) (text : List UInt8) : Emitted → LexerState
  | .token type => state.advance type text
  | _ => state

/-- The error of `lexer`: `Invalid Token` with the text, at its place. -/
structure InvalidToken where
  line : ℕ
  column : ℕ
  length : ℕ
  text : List UInt8

/-- When an action has returned a token, `lexer` ends with an error if it is an invalid one. -/
def LexerState.error (state : LexerState) (text : List UInt8) (emitted : Emitted) : Option InvalidToken :=
  if emitted = .token .invalid then
    some ⟨state.currentLine + 1, state.currentColumn + 1, text.length, text⟩
  else none

/-- The next rule of a start state, the text that it matches, and what is behind it. -/
def LexRule.Reads (state : LexerState) (input : List UInt8) (rule : LexRule) (text rest : List UInt8) : Prop :=
  match state.start, rule with
  | .initial, .code rule => Next codeRules input rule text rest
  | .template, .template rule => Next templateRules input rule text rest
  | _, _ => False

/-- The loop of `lexer` on a content: the rules so far with what they gave, the state and what is left. A
null character and an invalid token end it. -/
inductive Lexes (content : List UInt8) : List (LexRule × Emitted) → LexerState → List UInt8 → Prop where
  | start : Lexes content [] LexerState.init content
  | next {before : List (LexRule × Emitted)} {state state' : LexerState} {input text rest : List UInt8}
      {rule : LexRule} {emitted : Emitted} (hbefore : Lexes content before state input)
      (hreads : rule.Reads state input text rest)
      (haction : rule.action text state = some (emitted, state'))
      (hexit : emitted ≠ .exit) (herror : state'.error text emitted = none) :
      Lexes content (before ++ [(rule, emitted)]) (state'.proceed text emitted) rest

/-! ## What is open -/

mutual

/-- Code in which everything that is opened is closed. -/
inductive CodeWord : List LexRule → Prop where
  | nil : CodeWord []
  | other {rule : CodeRule} {w : List LexRule} (hlparen : rule ≠ .lparen) (hrparen : rule ≠ .rparen)
      (hstart : rule ≠ .templateStart) (hw : CodeWord w) : CodeWord (.code rule :: w)
  | group {u w : List LexRule} (hu : CodeWord u) (hw : CodeWord w) :
      CodeWord (.code .lparen :: (u ++ .code .rparen :: w))
  | template {u w : List LexRule} (hu : TextWord u) (hw : CodeWord w) :
      CodeWord (.code .templateStart :: (u ++ .template .end_ :: w))

/-- Text of a template in which every expression is closed. -/
inductive TextWord : List LexRule → Prop where
  | nil : TextWord []
  | text {w : List LexRule} (hw : TextWord w) : TextWord (.template .text :: w)
  | expression {u w : List LexRule} (hu : CodeWord u) (hw : TextWord w) :
      TextWord (.template .exprStart :: (u ++ .code .rparen :: w))

end

/-- What can be open. -/
inductive Opening where
  | paren
  | expression
  | template
  deriving DecidableEq

/-- The rule that opens it. -/
def Opening.rule : Opening → LexRule
  | .paren => .code .lparen
  | .expression => .template .exprStart
  | .template => .code .templateStart

/-- What is complete behind it. -/
def Opening.Inner : Opening → List LexRule → Prop
  | .template => TextWord
  | _ => CodeWord

/-- What a rule does to the stack of what is open. -/
def openings (s : List Opening) : LexRule → List Opening
  | .code .lparen => .paren :: s
  | .code .templateStart => .template :: s
  | .template .exprStart => .expression :: s
  | .code .rparen => s.tail
  | .template .end_ => s.tail
  | _ => s

def opened (w : List LexRule) : List Opening := w.foldl openings []

/-- In the text of a template. -/
def InText (s : List Opening) : Prop := s.head? = some .template

instance (s : List Opening) : Decidable (InText s) := inferInstanceAs (Decidable (_ = _))

theorem InText.exists_cons {s : List Opening} (h : InText s) : ∃ s', s = .template :: s' :=
  ⟨s.tail, List.eq_cons_of_mem_head? h⟩

/-- An expression is open in a text, and everything else in code. -/
def Placed : List Opening → Prop
  | [] => True
  | .expression :: s => InText s ∧ Placed s
  | _ :: s => ¬InText s ∧ Placed s

/-- The numbers of parentheses of the open templates, of the innermost first. -/
def parens : List Opening → List ℕ
  | [] => []
  | .template :: s => 0 :: parens s
  | _ :: s =>
    match parens s with
    | [] => []
    | n :: ns => (n + 1) :: ns

mutual

/-- What is complete leaves the stack as it was. -/
theorem CodeWord.foldl_eq {w : List LexRule} (s : List Opening) : CodeWord w → w.foldl openings s = s
  | .nil => rfl
  | @CodeWord.other rule _ hlparen hrparen hstart hw => by
    have hrule : openings s (.code rule) = s := by cases rule <;> first | rfl | contradiction
    rw [List.foldl_cons, hrule, hw.foldl_eq]
  | .group hu hw => by
    rw [List.foldl_cons, List.foldl_append, List.foldl_cons, hu.foldl_eq]
    exact hw.foldl_eq s
  | .template hu hw => by
    rw [List.foldl_cons, List.foldl_append, List.foldl_cons, hu.foldl_eq]
    exact hw.foldl_eq s

theorem TextWord.foldl_eq {w : List LexRule} (s : List Opening) : TextWord w → w.foldl openings s = s
  | .nil => rfl
  | .text hw => hw.foldl_eq s
  | .expression hu hw => by
    rw [List.foldl_cons, List.foldl_append, List.foldl_cons, hu.foldl_eq]
    exact hw.foldl_eq s

end

theorem CodeWord.append {u w : List LexRule} : CodeWord u → CodeWord w → CodeWord (u ++ w)
  | .nil, hw => hw
  | .other hlparen hrparen hstart hu, hw => .other hlparen hrparen hstart (hu.append hw)
  | .group hv hu, hw => by
    rw [List.cons_append, List.append_assoc, List.cons_append]
    exact .group hv (hu.append hw)
  | .template hv hu, hw => by
    rw [List.cons_append, List.append_assoc, List.cons_append]
    exact .template hv (hu.append hw)

theorem TextWord.append {u w : List LexRule} : TextWord u → TextWord w → TextWord (u ++ w)
  | .nil, hw => hw
  | .text hu, hw => .text (hu.append hw)
  | .expression hv hu, hw => by
    rw [List.cons_append, List.append_assoc, List.cons_append]
    exact .expression hv (hu.append hw)

/-- The rules up to a place, cut where what is open there has been opened. -/
inductive Nested : List LexRule → List Opening → Prop where
  | top (w : List LexRule) : Nested w []
  | inside {w u : List LexRule} {o : Opening} {s : List Opening} (hw : Nested w s) (hu : o.Inner u) :
      Nested (w ++ o.rule :: u) (o :: s)

variable {w v : List LexRule} {s : List Opening} {o : Opening}

/-- What is complete where it stands. -/
def CompleteIn (s : List Opening) (v : List LexRule) : Prop := if InText s then TextWord v else CodeWord v

/-- What is complete can be added. -/
theorem Nested.append (h : Nested w s) (hv : CompleteIn s v) : Nested (w ++ v) s := by
  cases h with
  | top => exact .top _
  | @inside w u o s hw hu =>
    rw [List.append_assoc, List.cons_append]
    refine .inside hw ?_
    cases o with
    | template => exact TextWord.append hu hv
    | paren => exact CodeWord.append hu hv
    | expression => exact CodeWord.append hu hv

/-- Something is opened. -/
theorem Nested.push (h : Nested w s) (o : Opening) : Nested (w ++ [o.rule]) (o :: s) := by
  refine .inside h ?_
  cases o with
  | template => exact TextWord.nil
  | paren => exact CodeWord.nil
  | expression => exact CodeWord.nil

/-- What was opened last is closed, and all of it belongs to what is open around it. -/
theorem Nested.pop (h : Nested w (o :: s)) {close : LexRule}
    (hclose : ∀ u, o.Inner u → CompleteIn s (o.rule :: (u ++ [close]))) : Nested (w ++ [close]) s := by
  cases h with
  | @inside w u _ _ hw hu =>
    rw [List.append_assoc, List.cons_append]
    exact hw.append (hclose u hu)

theorem Nested.exists_open (h : Nested w (o :: s)) : ∃ v u, w = v ++ o.rule :: u ∧ o.Inner u := by
  cases h with
  | inside hw hu => exact ⟨_, _, rfl, hu⟩

/-- A rule of the start state that the stack says keeps the word cut where it is open. -/
def AllowedIn (s : List Opening) : LexRule → Prop
  | .code _ => ¬InText s
  | .template _ => InText s

theorem completeIn_text (h : InText s) (hv : TextWord v) : CompleteIn s v := by
  rwa [CompleteIn, if_pos h]

theorem completeIn_code (h : ¬InText s) (hv : CodeWord v) : CompleteIn s v := by
  rwa [CompleteIn, if_neg h]

theorem Nested.step (h : Nested w s) (hplaced : Placed s) {rule : LexRule} (hallowed : AllowedIn s rule) :
    Nested (w ++ [rule]) (openings s rule) := by
  have hcode {rule : CodeRule} (hallowed : AllowedIn s (.code rule)) (hlparen : rule ≠ .lparen)
      (hrparen : rule ≠ .rparen) (hstart : rule ≠ .templateStart) : Nested (w ++ [.code rule]) s :=
    h.append (completeIn_code hallowed (.other hlparen hrparen hstart .nil))
  cases rule with
  | code rule =>
    cases rule with
    | lparen => exact h.push .paren
    | templateStart => exact h.push .template
    | rparen =>
      cases s with
      | nil => exact .top _
      | cons o s =>
        cases o with
        | template => exact absurd rfl hallowed
        | paren => exact h.pop fun u hu => completeIn_code hplaced.1 (.group hu .nil)
        | expression => exact h.pop fun u hu => completeIn_text hplaced.1 (.expression hu .nil)
    | null | token | blanks | comment => exact hcode hallowed nofun nofun nofun
  | template rule =>
    cases rule with
    | exprStart => exact h.push .expression
    | text => exact h.append (completeIn_text hallowed (.text .nil))
    | end_ =>
      cases s with
      | nil => exact .top _
      | cons o s =>
        obtain rfl : o = .template := Option.some.inj hallowed
        exact h.pop fun u hu => completeIn_code hplaced.1 (.template hu .nil)

theorem Placed.tail (h : Placed s) : Placed s.tail := by
  cases s with
  | nil => exact h
  | cons o s => cases o <;> exact h.2

theorem Placed.step (hplaced : Placed s) {rule : LexRule} (hallowed : AllowedIn s rule) :
    Placed (openings s rule) := by
  cases rule with
  | code rule =>
    cases rule with
    | lparen | templateStart => exact ⟨hallowed, hplaced⟩
    | rparen => exact hplaced.tail
    | null | token | blanks | comment => exact hplaced
  | template rule =>
    cases rule with
    | exprStart => exact ⟨hallowed, hplaced⟩
    | end_ => exact hplaced.tail
    | text => exact hplaced

/-! ## The array of the lexer -/

/-- The lexer's array and start state say what is open. -/
structure Holds (state : LexerState) (s : List Opening) : Prop where
  length : state.templateParenStack.length = templateStackMax
  top : state.templateStackTop + 1 = (parens s).length
  entries : state.templateParenStack.take (parens s).length = (parens s).reverse
  start : state.start = if InText s then .template else .initial

theorem holds_init : Holds LexerState.init [] where
  length := List.length_replicate
  top := rfl
  entries := rfl
  start := rfl

variable {state state' : LexerState} {n : ℕ} {ns : List ℕ}

theorem Holds.allowedIn (h : Holds state s) {rule : LexRule} {input text rest : List UInt8}
    (hreads : rule.Reads state input text rest) : AllowedIn s rule := by
  have hstart := h.start
  unfold LexRule.Reads at hreads
  cases rule with
  | code rule =>
    intro htext
    rw [if_pos htext] at hstart
    simp [hstart] at hreads
  | template rule =>
    by_contra hcode
    rw [AllowedIn] at hcode
    rw [if_neg hcode] at hstart
    simp [hstart] at hreads

/-- There are no more open templates than there are numbers for. -/
theorem Holds.length_parens_le (h : Holds state s) : (parens s).length ≤ templateStackMax := by
  have hlength := congrArg List.length h.entries
  rw [List.length_take, List.length_reverse, h.length] at hlength
  omega

theorem Holds.top_eq (h : Holds state s) (hs : parens s = n :: ns) : state.templateStackTop = ns.length := by
  have htop := h.top
  rw [hs, List.length_cons] at htop
  omega

/-- The number at the top is the first one. -/
theorem Holds.paren_top (h : Holds state s) (hs : parens s = n :: ns) :
    state.paren state.templateStackTop = some n := by
  have hentries := congrArg (fun l => l[ns.length]?) h.entries
  rw [LexerState.paren, if_pos (by rw [h.top_eq hs]; omega), h.top_eq hs, Int.toNat_natCast]
  simpa [hs, List.getElem?_take_of_lt] using hentries

theorem take_set_succ {l : List ℕ} {i m : ℕ} (hi : i < l.length) :
    (l.set i m).take (i + 1) = l.take i ++ [m] := by
  rw [List.take_add_one, List.getElem?_set_self hi, List.take_set_of_le le_rfl]
  rfl

/-- The array, when a number has been written in front of those of what is open. -/
structure Written (state state' : LexerState) (ns : List ℕ) : Prop where
  length : state'.templateParenStack.length = templateStackMax
  entries : state'.templateParenStack.take ns.length = ns.reverse
  top : state'.templateStackTop = state.templateStackTop
  start : state'.start = state.start

/-- A number can be written at the place of the innermost template, or at the next one. -/
theorem setParen_eq (hlength : state.templateParenStack.length = templateStackMax)
    (hns : ns.length < templateStackMax) (hentries : state.templateParenStack.take ns.length = ns.reverse)
    {i : ℤ} (hi : i = ns.length) (m : ℕ) :
    ∃ state', state.setParen i m = some state' ∧ Written state state' (m :: ns) := by
  subst hi
  refine ⟨_, if_pos ⟨by omega, by omega⟩, ⟨?_, ?_, rfl, rfl⟩⟩
  · rw [List.length_set, hlength]
  · rw [Int.toNat_natCast, List.length_cons, take_set_succ (by omega), hentries, List.reverse_cons]

theorem Holds.setParen_top (h : Holds state s) (hs : parens s = n :: ns) (m : ℕ) :
    ∃ state', state.setParen state.templateStackTop m = some state' ∧ Written state state' (m :: ns) := by
  have hle := h.length_parens_le
  have hentries := congrArg (List.take ns.length) h.entries
  rw [hs, List.length_cons] at hle
  exact setParen_eq h.length hle (by simpa [hs, List.take_take] using hentries) (h.top_eq hs) m

/-- The number of the innermost template has been changed, and what is open with it. -/
theorem Holds.of_written (h : Holds state s) (hs : parens s = n :: ns) {m : ℕ}
    (hwritten : Written state state' (m :: ns)) {s' : List Opening} (hs' : parens s' = m :: ns)
    {start : StartState} (hstart : start = if InText s' then .template else .initial) :
    Holds { state' with start } s' where
  length := hwritten.length
  top := by simpa [hs, hs', hwritten.top] using h.top
  entries := by rw [hs', hwritten.entries]
  start := hstart

/-- The innermost number counts what is open behind the template. -/
theorem parens_of_code (hplaced : Placed s) (hcode : ¬InText s) (hs : parens s = n :: ns) :
    ∃ o s' m, s = o :: s' ∧ parens s' = m :: ns ∧ n = m + 1 ∧ (o = .expression ↔ m = 0) := by
  induction s generalizing n with
  | nil => cases hs
  | cons o s ih =>
    have hparens (hne : o ≠ .template) : ∃ m, parens s = m :: ns ∧ n = m + 1 := by
      cases hs' : parens s with
      | nil => cases o <;> simp [parens, hs'] at hs hne
      | cons m ms =>
        have heq : parens (o :: s) = (m + 1) :: ms := by cases o <;> simp [parens, hs'] at hne ⊢
        rw [heq, List.cons.injEq] at hs
        exact ⟨m, by rw [hs.2], hs.1.symm⟩
    cases o with
    | template => exact absurd rfl hcode
    | expression =>
      obtain ⟨m, hm, hn⟩ := hparens nofun
      obtain ⟨s, rfl⟩ := hplaced.1.exists_cons
      obtain ⟨rfl, -⟩ := List.cons.inj hm
      exact ⟨_, _, _, rfl, hm, hn, iff_of_true rfl rfl⟩
    | paren =>
      obtain ⟨m, hm, hn⟩ := hparens nofun
      obtain ⟨-, -, k, -, -, hk, -⟩ := ih hplaced.2 hplaced.1 hm
      exact ⟨_, _, _, rfl, hm, hn, iff_of_false nofun (by omega)⟩

theorem Holds.start_of_code (h : Holds state s) (hcode : ¬InText s) : state.start = .initial := by
  rw [h.start, if_neg hcode]

/-- What the action of an opening parenthesis gives. -/
theorem lparenAction_eq (h : Holds state s) (hplaced : Placed s) (hcode : ¬InText s) :
    ∃ state', lparenAction state = some (.token .lparen, state') ∧ Holds state' (.paren :: s) := by
  have hstart := h.start_of_code hcode
  cases hs : parens s with
  | nil =>
    have hparens : parens (.paren :: s) = parens s := by simp [parens, hs]
    have htop := h.top
    rw [hs, List.length_nil] at htop
    refine ⟨state, ?_, ⟨h.length, by rw [hparens, h.top], by rw [hparens, h.entries], hstart⟩⟩
    rw [lparenAction, if_neg (by omega)]
    rfl
  | cons n ns =>
    obtain ⟨-, -, m, -, -, hn, -⟩ := parens_of_code hplaced hcode hs
    have hparens : parens (.paren :: s) = (n + 1) :: ns := by simp [parens, hs]
    obtain ⟨state', hset, hwritten⟩ := h.setParen_top hs (n + 1)
    refine ⟨state', ?_, h.of_written hs hwritten hparens (hwritten.start.trans hstart)⟩
    rw [lparenAction, if_pos (by rw [h.top_eq hs]; omega), h.paren_top hs]
    simp only [Option.bind_eq_bind, Option.bind_some]
    rw [if_pos (by omega), hset]
    rfl

/-- What the action of a closing parenthesis gives. -/
theorem rparenAction_eq (h : Holds state s) (hplaced : Placed s) (hcode : ¬InText s) :
    ∃ state', rparenAction state =
        some (.token (if s.head? = some .expression then .templateExprEnd else .rparen), state') ∧
      Holds state' s.tail := by
  have hstart := h.start_of_code hcode
  cases hs : parens s with
  | nil =>
    have htail : parens s.tail = [] ∧ s.head? ≠ some .expression ∧ ¬InText s.tail := by
      cases s with
      | nil => exact ⟨rfl, nofun, nofun⟩
      | cons o s =>
        cases o with
        | template => exact absurd rfl hcode
        | paren => exact ⟨by cases hs' : parens s <;> simp [parens, hs'] at hs ⊢, nofun, hplaced.1⟩
        | expression =>
          obtain ⟨s, rfl⟩ := hplaced.1.exists_cons
          cases hs
    have htop := h.top
    rw [hs, List.length_nil] at htop
    refine ⟨state, ?_, ⟨h.length, ?_, ?_, ?_⟩⟩
    · rw [rparenAction, if_neg (by omega), if_neg htail.2.1]
      rfl
    · rw [htail.1, ← hs, h.top]
    · rw [htail.1, ← hs, h.entries]
    · rw [if_neg htail.2.2, hstart]
  | cons n ns =>
    obtain ⟨o, s', m, rfl, hs', rfl, ho⟩ := parens_of_code hplaced hcode hs
    obtain ⟨state', hset, hwritten⟩ := h.setParen_top hs m
    have haction : rparenAction state =
        if m = 0 then some (.token .templateExprEnd, { state' with start := .template })
        else some (.token .rparen, state') := by
      rw [rparenAction, if_pos (by rw [h.top_eq hs]; omega), h.paren_top hs]
      simp only [Option.bind_eq_bind, Option.bind_some]
      rw [if_pos (by omega), Nat.add_sub_cancel, hset]
      simp only [Option.bind_some]
      split <;> rfl
    rw [haction]
    simp only [List.head?_cons, Option.some.injEq]
    by_cases hexpression : o = .expression
    · subst hexpression
      refine ⟨_, by rw [if_pos (ho.mp rfl), if_pos rfl], h.of_written hs hwritten hs' ?_⟩
      exact (if_pos hplaced.1).symm
    · refine ⟨state', by rw [if_neg (mt ho.mpr hexpression), if_neg hexpression], ?_⟩
      refine h.of_written hs hwritten hs' (hwritten.start.trans ?_)
      cases o with
      | paren => exact hstart.trans (if_neg hplaced.1).symm
      | template => exact absurd rfl hcode
      | expression => exact absurd rfl hexpression

/-- What the action of a back quote in code gives. -/
theorem templateStartAction_eq (h : Holds state s) (hlt : (parens s).length < templateStackMax) :
    ∃ state', templateStartAction state = some (.token .templateStart, state') ∧
      Holds state' (.template :: s) := by
  have htop := h.top
  have hlength : { state with
      templateStackTop := state.templateStackTop + 1 }.templateParenStack.length = templateStackMax := h.length
  obtain ⟨state', hset, hwritten⟩ := setParen_eq hlength hlt h.entries htop 0
  refine ⟨{ state' with start := .template }, ?_, ⟨hwritten.length, ?_, hwritten.entries, rfl⟩⟩
  · rw [templateStartAction, if_neg (by omega)]
    simp only [hset, Option.bind_eq_bind, Option.bind_some]
    rfl
  · rw [hwritten.top, htop]
    rfl

theorem templateStartAction_full (h : Holds state s) (hle : templateStackMax ≤ (parens s).length) :
    templateStartAction state = some (.token .invalid, state) := by
  have htop := h.top
  rw [templateStartAction, if_pos (by omega)]
  rfl

/-- What the action of the start of an expression gives. -/
theorem exprStartAction_eq (h : Holds state s) (htext : InText s) (text : List UInt8) :
    ∃ state', (LexRule.template .exprStart).action text state = some (.token .templateExprStart, state') ∧
      Holds state' (.expression :: s) := by
  obtain ⟨s, rfl⟩ := htext.exists_cons
  obtain ⟨state', hset, hwritten⟩ := h.setParen_top rfl 1
  refine ⟨{ state' with start := .initial }, ?_, h.of_written rfl hwritten rfl rfl⟩
  rw [LexRule.action, hset]
  rfl

/-- What the action of the end of a template gives. -/
theorem endAction_eq (h : Holds state s) (hplaced : Placed s) (htext : InText s) (text : List UInt8) :
    ∃ state', (LexRule.template .end_).action text state = some (.token .templateEnd, state') ∧
      Holds state' s.tail := by
  obtain ⟨s, rfl⟩ := htext.exists_cons
  have htop := h.top
  have hentries := congrArg (List.take (parens s).length) h.entries
  refine ⟨_, rfl, ⟨h.length, ?_, ?_, ?_⟩⟩
  · simpa [parens] using htop
  · simpa [parens, List.take_take] using hentries
  · exact (if_neg hplaced.1).symm

/-- An action has a result, and if the lexer goes on, the array still says what is open. -/
theorem LexRule.action_eq (h : Holds state s) (hplaced : Placed s) {rule : LexRule}
    (hallowed : AllowedIn s rule) (text : List UInt8) :
    ∃ emitted state', rule.action text state = some (emitted, state') ∧
      (emitted ≠ .token .invalid → Holds state' (openings s rule)) := by
  cases rule with
  | code rule =>
    cases rule with
    | lparen =>
      obtain ⟨state', haction, h'⟩ := lparenAction_eq h hplaced hallowed
      exact ⟨_, state', haction, fun _ => h'⟩
    | rparen =>
      obtain ⟨state', haction, h'⟩ := rparenAction_eq h hplaced hallowed
      exact ⟨_, state', haction, fun _ => h'⟩
    | templateStart =>
      by_cases hlt : (parens s).length < templateStackMax
      · obtain ⟨state', haction, h'⟩ := templateStartAction_eq h hlt
        exact ⟨_, state', haction, fun _ => h'⟩
      · exact ⟨_, state, templateStartAction_full h (not_lt.mp hlt), fun hne => absurd rfl hne⟩
    | blanks =>
      by_cases hcolumn : state.currentColumn = 0
      · exact ⟨_, state, if_pos hcolumn, fun _ => h⟩
      · exact ⟨_, _, if_neg hcolumn, fun _ => ⟨h.length, h.top, h.entries, h.start⟩⟩
    | null | token | comment => exact ⟨_, state, rfl, fun _ => h⟩
  | template rule =>
    cases rule with
    | exprStart =>
      obtain ⟨state', haction, h'⟩ := exprStartAction_eq h hallowed text
      exact ⟨_, state', haction, fun _ => h'⟩
    | end_ =>
      obtain ⟨state', haction, h'⟩ := endAction_eq h hplaced hallowed text
      exact ⟨_, state', haction, fun _ => h'⟩
    | text => exact ⟨_, state, rfl, fun _ => h⟩

theorem Holds.proceed (h : Holds state s) (text : List UInt8) (emitted : Emitted) :
    Holds (state.proceed text emitted) s := by
  cases emitted with
  | token type =>
    rw [LexerState.proceed, LexerState.advance]
    split
    · exact ⟨h.length, h.top, h.entries, h.start⟩
    · split <;> exact ⟨h.length, h.top, h.entries, h.start⟩
  | skipped => exact h
  | exit => exact h

theorem ne_invalid_of_error {text : List UInt8} {emitted : Emitted}
    (h : state.error text emitted = none) : emitted ≠ .token .invalid := by
  rintro rfl
  cases h

/-! ## Every place of a source text -/

section

variable {content input text rest : List UInt8} {before : List (LexRule × Emitted)} {rule : LexRule}
  {emitted : Emitted}

/-- What is open at a place that the lexer gets to. -/
structure At (before : List (LexRule × Emitted)) (state : LexerState) (s : List Opening) : Prop where
  opened_eq : opened (before.map Prod.fst) = s
  holds : Holds state s
  placed : Placed s
  nested : Nested (before.map Prod.fst) s
  templates : (before.map Prod.fst).count (.code .templateStart) =
    (before.map Prod.fst).count (.template .end_) + s.count .template

theorem opened_append (w : List LexRule) (rule : LexRule) : opened (w ++ [rule]) = openings (opened w) rule := by
  simp [opened]

/-- The templates that are open have been started, and have not ended. -/
theorem count_openings (s : List Opening) (rule : LexRule) (hallowed : AllowedIn s rule) :
    [rule].count (.code .templateStart) + s.count .template =
      [rule].count (.template .end_) + (openings s rule).count .template := by
  cases rule with
  | code rule =>
    cases rule with
    | rparen =>
      cases s with
      | nil => rfl
      | cons o s =>
        cases o with
        | template => exact absurd rfl hallowed
        | paren | expression => simp [openings]
    | templateStart => simp [openings, Nat.add_comm]
    | lparen | null | token | blanks | comment => simp [openings]
  | template rule =>
    cases rule with
    | end_ =>
      obtain ⟨s, rfl⟩ := InText.exists_cons hallowed
      simp [openings, Nat.add_comm]
    | exprStart | text => simp [openings]

theorem Lexes.exists_at (h : Lexes content before state input) : ∃ s, At before state s := by
  induction h with
  | start => exact ⟨[], ⟨rfl, holds_init, trivial, .top _, rfl⟩⟩
  | @next before state state' input text rest rule emitted _ hreads haction hexit herror ih =>
    obtain ⟨s, hs⟩ := ih
    have hallowed := hs.holds.allowedIn hreads
    obtain ⟨emitted', state'', haction', hholds⟩ := rule.action_eq hs.holds hs.placed hallowed text
    rw [haction, Option.some.injEq, Prod.mk.injEq] at haction'
    obtain ⟨rfl, rfl⟩ := haction'
    refine ⟨openings s rule, ⟨?_, ?_, hs.placed.step hallowed, ?_, ?_⟩⟩
    · rw [List.map_append, List.map_singleton, opened_append, hs.opened_eq]
    · exact (hholds (ne_invalid_of_error herror)).proceed text emitted
    · rw [List.map_append, List.map_singleton]
      exact hs.nested.step hs.placed hallowed
    · have hcount := count_openings s rule hallowed
      have htemplates := hs.templates
      simp only [List.map_append, List.map_cons, List.map_nil, List.count_append]
      omega

theorem length_parens (s : List Opening) : (parens s).length = s.count .template := by
  induction s with
  | nil => rfl
  | cons o s ih =>
    cases o with
    | template => simp [parens, ih]
    | paren | expression =>
      cases hs : parens s with
      | nil => simp [parens, hs, ← ih]
      | cons n ns => simp [parens, hs, ← ih]

/-- There is always a rule for what is left. -/
theorem LexRule.exists_reads (state : LexerState) (hinput : input ≠ []) :
    ∃ rule text rest, LexRule.Reads state input rule text rest := by
  obtain ⟨c, tail, rfl⟩ := List.exists_cons_of_ne_nil hinput
  have hinitial : [c] <+: c :: tail := ⟨tail, rfl⟩
  have hletter : [c] ∈ (noneOf [10] + RegularExpression.char 10).matches' := by
    by_cases hc : c = 10
    · exact mem_add.mpr (Or.inr (by rw [hc]; exact mem_char.mpr rfl))
    · exact mem_add.mpr (Or.inl (mem_noneOf.mpr ⟨c, by simpa using hc, rfl⟩))
  cases hstart : state.start with
  | template =>
    have hmem : (noneOf [10] + RegularExpression.char 10, TemplateToken.text) ∈ templateRules := by
      simp [templateRules]
    obtain ⟨kind, text, rest, hnext⟩ := Next.exists hmem hletter nofun hinitial
    exact ⟨.template kind, text, rest, by simpa only [LexRule.Reads, hstart] using hnext⟩
  | initial =>
    have hrule : ∃ P kind, (P, kind) ∈ codeRules ∧ [c] ∈ P.matches' := by
      rcases mem_add.mp hletter with hother | hline
      · exact ⟨invalidRule, .token .invalid, by simp [codeRules], mem_add.mpr (Or.inl hother)⟩
      · exact ⟨.char 10, .token .newLine, by simp [codeRules], hline⟩
    obtain ⟨P, kind, hmem, hmatch⟩ := hrule
    obtain ⟨kind, text, rest, hnext⟩ := Next.exists hmem hmatch nofun hinitial
    exact ⟨.code kind, text, rest, by simpa only [LexRule.Reads, hstart] using hnext⟩

/-- Behind the start of an expression there is complete code: the next closing parenthesis is the one that
matches the expression's. -/
def ClosesExpression (w : List LexRule) : Prop := ∃ v u, w = v ++ .template .exprStart :: u ∧ CodeWord u

/-- What the lexer does with parentheses, templates and literals, at every place of a source text that it
gets to. -/
structure LexesRightly (content : List UInt8) : Prop where
  /-- There is a rule for what is left. -/
  proceeds : ∀ {before state input}, Lexes content before state input → input ≠ [] →
    ∃ rule text rest, LexRule.Reads state input rule text rest
  /-- No action reads or writes outside of the array. -/
  inBounds : ∀ {before state input rule text rest}, Lexes content before state input →
    LexRule.Reads state input rule text rest → (rule.action text state).isSome
  /-- An opening parenthesis is an ordinary one. -/
  opens : ∀ {before state input text rest emitted state'}, Lexes content before state input →
    LexRule.Reads state input (.code .lparen) text rest →
      LexRule.action text state (.code .lparen) = some (emitted, state') →
        emitted = .token .lparen ∧ state'.start = .initial
  /-- The parenthesis that matches the one of an expression ends it, and the text of the template goes on
  that the expression belongs to. -/
  closes : ∀ {before state input text rest emitted state' v u}, Lexes content before state input →
    LexRule.Reads state input (.code .rparen) text rest →
      LexRule.action text state (.code .rparen) = some (emitted, state') →
        before.map Prod.fst = v ++ .template .exprStart :: u → CodeWord u →
          emitted = .token .templateExprEnd ∧ state'.start = .template ∧
            ∀ {before' stateV inputV}, Lexes content before' stateV inputV → before'.map Prod.fst = v →
              state'.templateStackTop = stateV.templateStackTop
  /-- Every other closing parenthesis is an ordinary one. -/
  other : ∀ {before state input text rest emitted state'}, Lexes content before state input →
    LexRule.Reads state input (.code .rparen) text rest →
      LexRule.action text state (.code .rparen) = some (emitted, state') →
        ¬ClosesExpression (before.map Prod.fst) → emitted = .token .rparen ∧ state'.start = .initial
  /-- Nothing else ends an expression. -/
  only : ∀ {before state input rule text rest state'}, Lexes content before state input →
    LexRule.Reads state input rule text rest →
      rule.action text state = some (.token .templateExprEnd, state') → rule = .code .rparen
  /-- A template starts, unless so many are open already: then there is an error. -/
  starts : ∀ {before state input text rest emitted state'}, Lexes content before state input →
    LexRule.Reads state input (.code .templateStart) text rest →
      LexRule.action text state (.code .templateStart) = some (emitted, state') →
        ((state'.error text emitted).isSome ↔
          (before.map Prod.fst).count (.code .templateStart) =
            (before.map Prod.fst).count (.template .end_) + templateStackMax) ∧
          (state'.error text emitted = none →
            emitted = .token .templateStart ∧ state'.start = .template)
  /-- A literal in code is one token, whatever parentheses are in it. -/
  literal : ∀ {before state quote items rest}, quote ∈ quotes → (∀ i ∈ items, Item.Valid quote i) →
    Lexes content before state (literalText quote items ++ rest) → state.start = .initial →
      LexRule.Reads state (literalText quote items ++ rest) (.code (.token .string))
        (literalText quote items) rest

theorem lexes_rightly (content : List UInt8) : LexesRightly content where
  proceeds _ hinput := LexRule.exists_reads _ hinput
  inBounds {before state input rule text rest} h hreads := by
    obtain ⟨s, hs⟩ := h.exists_at
    obtain ⟨emitted, state', haction, -⟩ :=
      rule.action_eq hs.holds hs.placed (hs.holds.allowedIn hreads) text
    rw [haction]
    rfl
  opens {before state input text rest emitted state'} h hreads haction := by
    obtain ⟨s, hs⟩ := h.exists_at
    obtain ⟨state'', heq, hholds⟩ := lparenAction_eq hs.holds hs.placed (hs.holds.allowedIn hreads)
    rw [LexRule.action, heq, Option.some.injEq, Prod.mk.injEq] at haction
    obtain ⟨rfl, rfl⟩ := haction
    exact ⟨rfl, hholds.start⟩
  closes {before state input text rest emitted state' v u} h hreads haction hbefore hu := by
    obtain ⟨s, hs⟩ := h.exists_at
    -- The code behind the start of the expression leaves the expression open.
    have hopened : s = .expression :: opened v := by
      rw [← hs.opened_eq, hbefore, opened, List.foldl_append, List.foldl_cons]
      exact hu.foldl_eq _
    subst hopened
    obtain ⟨state'', heq, hholds⟩ := rparenAction_eq hs.holds hs.placed (hs.holds.allowedIn hreads)
    rw [LexRule.action, heq, Option.some.injEq, Prod.mk.injEq] at haction
    obtain ⟨rfl, rfl⟩ := haction
    refine ⟨rfl, hholds.start.trans (if_pos hs.placed.1), fun {before' stateV inputV} hV hbefore' => ?_⟩
    obtain ⟨s', hs'⟩ := hV.exists_at
    have htop := hholds.top
    have htop' := hs'.holds.top
    rw [← hs'.opened_eq, hbefore'] at htop'
    rw [List.tail_cons] at htop
    omega
  other {before state input text rest emitted state'} h hreads haction hcloses := by
    obtain ⟨s, hs⟩ := h.exists_at
    have hhead : s.head? ≠ some .expression := by
      intro hhead
      obtain ⟨s, rfl⟩ : ∃ s', s = .expression :: s' := ⟨s.tail, List.eq_cons_of_mem_head? hhead⟩
      exact hcloses hs.nested.exists_open
    obtain ⟨state'', heq, hholds⟩ := rparenAction_eq hs.holds hs.placed (hs.holds.allowedIn hreads)
    rw [LexRule.action, heq, Option.some.injEq, Prod.mk.injEq, if_neg hhead] at haction
    obtain ⟨rfl, rfl⟩ := haction
    refine ⟨rfl, hholds.start.trans (if_neg ?_)⟩
    have hcode := hs.holds.allowedIn hreads
    have hplaced := hs.placed
    cases s with
    | nil => exact nofun
    | cons o s =>
      cases o with
      | template => exact absurd rfl hcode
      | expression => exact absurd rfl hhead
      | paren => exact hplaced.1
  only {before state input rule text rest state'} h hreads haction := by
    obtain ⟨s, hs⟩ := h.exists_at
    have hallowed := hs.holds.allowedIn hreads
    have hne {emitted : Emitted} {state'' : LexerState}
        (heq : rule.action text state = some (emitted, state'')) (h : emitted ≠ .token .templateExprEnd) :
        rule = .code .rparen := by
      rw [haction, Option.some.injEq, Prod.mk.injEq] at heq
      exact absurd heq.1.symm h
    cases rule with
    | code rule =>
      cases rule with
      | rparen => rfl
      | lparen =>
        obtain ⟨state'', heq, -⟩ := lparenAction_eq hs.holds hs.placed hallowed
        exact hne heq nofun
      | templateStart =>
        by_cases hlt : (parens s).length < templateStackMax
        · obtain ⟨state'', heq, -⟩ := templateStartAction_eq hs.holds hlt
          exact hne heq nofun
        · exact hne (templateStartAction_full hs.holds (not_lt.mp hlt)) nofun
      | blanks =>
        by_cases hcolumn : state.currentColumn = 0
        · exact hne (if_pos hcolumn) nofun
        · exact hne (if_neg hcolumn) nofun
      | token type =>
        refine hne rfl ?_
        rintro ⟨⟩
        simp only [LexRule.Reads, hs.holds.start_of_code hallowed] at hreads
        obtain ⟨P, hP, -⟩ := hreads.exists_rule
        have hkinds : CodeRule.token .templateExprEnd ∉ codeRules.map Prod.snd := by decide
        exact hkinds (List.mem_map_of_mem hP)
      | null | comment => exact hne rfl nofun
    | template rule =>
      cases rule with
      | exprStart =>
        obtain ⟨state'', heq, -⟩ := exprStartAction_eq hs.holds hallowed text
        exact hne heq nofun
      | end_ | text => exact hne rfl nofun
  starts {before state input text rest emitted state'} h hreads haction := by
    obtain ⟨s, hs⟩ := h.exists_at
    have hcount := hs.templates
    have hlength := length_parens s
    have hle := hs.holds.length_parens_le
    by_cases hlt : (parens s).length < templateStackMax
    · obtain ⟨state'', heq, hholds⟩ := templateStartAction_eq hs.holds hlt
      rw [LexRule.action, heq, Option.some.injEq, Prod.mk.injEq] at haction
      obtain ⟨rfl, rfl⟩ := haction
      exact ⟨iff_of_false nofun (by omega), fun _ => ⟨rfl, hholds.start⟩⟩
    · rw [LexRule.action, templateStartAction_full hs.holds (not_lt.mp hlt), Option.some.injEq,
        Prod.mk.injEq] at haction
      obtain ⟨rfl, rfl⟩ := haction
      exact ⟨iff_of_true rfl (by omega), nofun⟩
  literal {before state quote items rest} hquote hitems _ hstart := by
    simpa only [LexRule.Reads, hstart] using next_literal hquote hitems rest

end

end Chloride
