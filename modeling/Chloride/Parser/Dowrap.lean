import Chloride.Parser.Tokens

/-!
# Splitting off a block

`parse_dowrap` of `src/parser/dowrap/dowrap.c` up to the call of `parser` on the tokens of the block, which is a
parameter. The loop goes over the tokens once and knows the indentation of the first line of the block, whether it is
inside of a line of the block, and the last token that it took. A line ends at a newline and is indented by the indent
it begins with (`LaidOut`), which the lexer makes of the blanks in column 0 only.

`parseDowrap_spec` says which lines the block is made of, what becomes of them, and where the index stands.
-/

namespace Chloride

/-- The local variables of the loop of `parse_dowrap`. -/
structure DowrapScan where
  indentDepth : UInt64
  hasBodyStarted : Bool
  insideBody : Bool
  dowrapTokens : List Token
  lastNormalToken : ℕ

/-- `repeat_space` -/
def repeatSpace (x : UInt64) : List UInt8 := List.replicate x.toNat 32

/-- What is left of an indent that is deeper than that of the block. -/
def Token.dedented (token : Token) (depth : UInt64) : Token :=
  { token with length := token.length - depth, type := .indent, value := repeatSpace (token.length - depth) }

namespace DowrapScan

/-- A round of the loop; `none` is the one that sets `pass`. -/
def step (s : DowrapScan) (dowrapIndex : ℕ) (token : Token) : Option DowrapScan :=
  match token.type with
  | .newLine => some { s with dowrapTokens := s.dowrapTokens ++ [token], insideBody := false }
  | .indent =>
    if !s.insideBody ∧ !s.hasBodyStarted then some { s with indentDepth := token.length, insideBody := true }
    else if s.indentDepth < token.length then
      some { s with dowrapTokens := s.dowrapTokens ++ [token.dedented s.indentDepth], insideBody := true }
    else if s.indentDepth = token.length then some { s with insideBody := true }
    else some { s with insideBody := false }
  | _ =>
    if !s.insideBody then none
    else some { s with
      lastNormalToken := dowrapIndex
      hasBodyStarted := true
      dowrapTokens := s.dowrapTokens ++ [token] }

/-- The loop, from a token on. -/
def scan : DowrapScan → ℕ → List Token → DowrapScan
  | s, _, [] => s
  | s, dowrapIndex, token :: tokens =>
    match s.step dowrapIndex token with
    | none => s
    | some s => scan s (dowrapIndex + 1) tokens

end DowrapScan

/-- `parse_dowrap` -/
def parseDowrap {α : Type} (parser : List Token → Except ParseStop (List α)) (tokens : List Token) :
    Parse (List α) := do
  nextToken
  let index ← get
  if tokens.length ≤ index then return []
  else
    let token ← darrayGet tokens index
    if token.type ≠ .newLine then syntaxError token "expected body"
    else
      let s := DowrapScan.scan ⟨0, false, false, [], index - 1⟩ (index + 1) (tokens.drop (index + 1))
      set (s.lastNormalToken + 1)
      liftM (parser s.dowrapTokens)

/-! ## Lines -/

/-- The lines of a list of tokens, without the newlines. -/
noncomputable def lines (tokens : List Token) : List (List Token) := tokens.splitOnP fun token => token.type = .newLine

/-- The tokens that are no layout. -/
def words (tokens : List Token) : List Token := tokens.filter fun token => !token.type.isBlank

/-- A line of layout only. -/
def BlankLine (line : List Token) : Prop := words line = []

instance (line : List Token) : Decidable (BlankLine line) := inferInstanceAs (Decidable (_ = _))

theorem blankLine_nil : BlankLine [] := rfl

def indentation : List Token → UInt64
  | [] => 0
  | token :: _ => if token.type = .indent then token.length else 0

/-- A line without so much of its indentation. -/
def dedent (depth : UInt64) : List Token → List Token
  | [] => []
  | token :: line =>
    if token.type = .indent then
      if depth < token.length then token.dedented depth :: line else line
    else token :: line

/-- Only the first token of a line is an indent, and it is one of some length. -/
def LaidOut (tokens : List Token) : Prop :=
  ∀ line ∈ lines tokens, (∀ token ∈ line.tail, token.type ≠ .indent) ∧
    ∀ token ∈ line, token.type = .indent → token.length ≠ 0

/-- The indentation of the first line that is not blank. -/
def firstIndentation (ls : List (List Token)) : UInt64 :=
  ((ls.find? fun line => ¬BlankLine line).map indentation).getD 0

/-- The lines of a block: as many as are blank or indented by so much. -/
def blockLines (depth : UInt64) (ls : List (List Token)) : List (List Token) :=
  ls.takeWhile fun line => BlankLine line ∨ depth ≠ 0 ∧ depth ≤ indentation line

/-- What becomes of the lines of a block: blank ones at the start are empty, and the others have the indentation that is
left. -/
def dedentLines (depth : UInt64) (ls : List (List Token)) : List (List Token) :=
  (ls.takeWhile fun line => BlankLine line).map (fun _ => []) ++
    (ls.dropWhile fun line => BlankLine line).map (dedent depth)

theorem blockLines_cons_of_pos {depth : UInt64} {line : List Token} {ls : List (List Token)}
    (h : BlankLine line ∨ depth ≠ 0 ∧ depth ≤ indentation line) :
    blockLines depth (line :: ls) = line :: blockLines depth ls :=
  List.takeWhile_cons_of_pos (decide_eq_true h)

theorem blockLines_cons_of_neg {depth : UInt64} {line : List Token} {ls : List (List Token)}
    (h : ¬(BlankLine line ∨ depth ≠ 0 ∧ depth ≤ indentation line)) : blockLines depth (line :: ls) = [] :=
  List.takeWhile_cons_of_neg (by simpa using h)

theorem dedentLines_cons_of_pos {depth : UInt64} {line : List Token} {ls : List (List Token)} (h : BlankLine line) :
    dedentLines depth (line :: ls) = [] :: dedentLines depth ls := by
  simp [dedentLines, h]

theorem dedentLines_cons_of_neg {depth : UInt64} {line : List Token} {ls : List (List Token)} (h : ¬BlankLine line) :
    dedentLines depth (line :: ls) = (line :: ls).map (dedent depth) := by
  simp [dedentLines, h]

/-- The first line that is not blank is behind the blank ones. -/
theorem firstIndentation_cons_of_pos {line : List Token} {ls : List (List Token)} (h : BlankLine line) :
    firstIndentation (line :: ls) = firstIndentation ls := by
  rw [firstIndentation, List.find?_cons_of_neg (by simpa using h), firstIndentation]

theorem firstIndentation_cons_of_neg {line : List Token} {ls : List (List Token)} (h : ¬BlankLine line) :
    firstIndentation (line :: ls) = indentation line := by
  rw [firstIndentation, List.find?_cons_of_pos (by simpa using h)]
  rfl

/-! ## One line -/

/-- A line as it comes: without a newline, and with an indent of some length at most at its start. -/
structure Line (line : List Token) : Prop where
  newLine : ∀ token ∈ line, token.type ≠ .newLine
  tail : ∀ token ∈ line.tail, token.type ≠ .indent
  length : ∀ token ∈ line, token.type = .indent → token.length ≠ 0

/-- A line is an indent or none, and words. -/
theorem Line.cases {line : List Token} (h : Line line) :
    (words line = line ∧ indentation line = 0 ∧ ∀ depth, dedent depth line = line) ∨
      ∃ token rest, line = token :: rest ∧ token.type = .indent ∧ token.length ≠ 0 ∧ words line = rest ∧
        words rest = rest := by
  have hwords : ∀ l : List Token, (∀ token ∈ l, token.type ≠ .newLine) → (∀ token ∈ l, token.type ≠ .indent) →
      words l = l := by
    intro l hnewLine hindent
    refine List.filter_eq_self.mpr fun token htoken => ?_
    have h₁ := hnewLine token htoken
    have h₂ := hindent token htoken
    cases htype : token.type <;> first | rfl | exact absurd htype h₁ | exact absurd htype h₂
  cases line with
  | nil => exact Or.inl ⟨rfl, rfl, fun _ => rfl⟩
  | cons token rest =>
    have hrest := hwords rest (fun t ht => h.newLine t (List.mem_cons_of_mem _ ht)) h.tail
    by_cases htype : token.type = .indent
    · refine Or.inr ⟨token, rest, rfl, htype, h.length token List.mem_cons_self htype, ?_, hrest⟩
      rw [words, List.filter_cons_of_neg (by simp [htype, TokenType.isBlank])]
      exact hrest
    · refine Or.inl ⟨hwords _ h.newLine fun t ht => ?_, if_neg htype, fun depth => if_neg htype⟩
      rcases List.mem_cons.mp ht with rfl | ht
      · exact htype
      · exact h.tail t ht

namespace DowrapScan

variable {s : DowrapScan} {i : ℕ} {line : List Token}

/-- A newline ends a line. -/
theorem scan_newLine {token : Token} (htype : token.type = .newLine) (tokens : List Token) :
    s.scan i (token :: tokens) =
      scan { s with dowrapTokens := s.dowrapTokens ++ [token], insideBody := false } (i + 1) tokens := by
  simp only [scan, step, htype]

/-- A word outside of the lines of the block ends it. -/
theorem scan_stop (hinside : s.insideBody = false) {token : Token} (hword : token.type.isBlank = false)
    (tokens : List Token) : s.scan i (token :: tokens) = s := by
  cases htype : token.type <;> simp_all [scan, step, TokenType.isBlank]

/-- A word inside of a line is taken. -/
theorem scan_word (hinside : s.insideBody = true) {token : Token} (hword : token.type.isBlank = false)
    (tokens : List Token) : s.scan i (token :: tokens) = scan { s with
      lastNormalToken := i
      hasBodyStarted := true
      dowrapTokens := s.dowrapTokens ++ [token] } (i + 1) tokens := by
  cases htype : token.type <;> simp_all [scan, step, TokenType.isBlank]

/-- Words inside of a line are taken. -/
theorem scan_words (hinside : s.insideBody = true) {ws : List Token} (hwords : words ws = ws) (hne : ws ≠ [])
    (tokens : List Token) : s.scan i (ws ++ tokens) = scan { s with
      lastNormalToken := i + ws.length - 1
      hasBodyStarted := true
      dowrapTokens := s.dowrapTokens ++ ws } (i + ws.length) tokens := by
  induction ws generalizing s i with
  | nil => exact absurd rfl hne
  | cons token ws ih =>
    have hword : token.type.isBlank = false := by
      have hmem := List.filter_eq_self.mp hwords token List.mem_cons_self
      simpa using hmem
    have hrest : words ws = ws :=
      List.filter_eq_self.mpr fun t ht => List.filter_eq_self.mp hwords t (List.mem_cons_of_mem _ ht)
    rw [List.cons_append, scan_word hinside hword]
    rcases eq_or_ne ws [] with rfl | hne'
    · rfl
    · rw [@ih _ (i + 1) (show DowrapScan.insideBody { s with
          lastNormalToken := i
          hasBodyStarted := true
          dowrapTokens := s.dowrapTokens ++ [token] } = true from hinside) hrest hne', List.length_cons]
      simp only [List.append_assoc, List.singleton_append, Nat.add_right_comm i 1, Nat.add_assoc i]

/-! ### A line of a block that has started -/

/-- The scan behind a line that is taken. -/
def after (s : DowrapScan) (i : ℕ) (line new : List Token) (inside : Bool) : DowrapScan :=
  { s with
    insideBody := inside
    dowrapTokens := s.dowrapTokens ++ new
    lastNormalToken := if BlankLine line then s.lastNormalToken else i + line.length - 1 }

/-- An indent in a block that has started: what is deeper than the block is left, and what is less is outside. -/
theorem scan_indent (hstarted : s.hasBodyStarted = true) {token : Token}
    (htype : token.type = .indent) (tokens : List Token) : s.scan i (token :: tokens) = scan { s with
      insideBody := decide (s.indentDepth ≤ token.length)
      dowrapTokens := s.dowrapTokens ++ dedent s.indentDepth [token] } (i + 1) tokens := by
  have hstep : s.step i token = some { s with
      insideBody := decide (s.indentDepth ≤ token.length)
      dowrapTokens := s.dowrapTokens ++ dedent s.indentDepth [token] } := by
    simp only [step, htype, dedent, if_true, hstarted]
    rcases UInt64.lt_or_le s.indentDepth token.length with hlt | hge
    · simp [hlt, UInt64.le_of_lt hlt]
    · rcases UInt64.lt_or_eq_of_le hge with hlt | heq
      · have hne : s.indentDepth ≠ token.length := (UInt64.lt_iff_le_and_ne.mp hlt).2.symm
        simp [UInt64.not_lt.mpr hge, hne, UInt64.not_le.mpr hlt]
      · simp [heq]
  simp only [scan, hstep]

/-- A line that is blank or as deep as the block is taken. -/
theorem scan_line (hline : Line line) (hinside : s.insideBody = false) (hstarted : s.hasBodyStarted = true)
    (hin : BlankLine line ∨ s.indentDepth ≠ 0 ∧ s.indentDepth ≤ indentation line) :
    ∃ inside, ∀ tokens, s.scan i (line ++ tokens) =
      scan (s.after i line (dedent s.indentDepth line) inside) (i + line.length) tokens := by
  rcases hline.cases with ⟨hwords, hzero, -⟩ | ⟨token, rest, rfl, htype, -, hwords, hrest⟩
  · -- no indent, and so nothing
    have hblank : line = [] := by
      rcases hin with hblank | ⟨hne, hle⟩
      · rw [← hwords]
        exact hblank
      · rw [hzero] at hle
        exact absurd (UInt64.le_zero_iff.mp hle) hne
    subst hblank
    refine ⟨false, fun tokens => ?_⟩
    rw [after, if_pos blankLine_nil, ← hinside]
    simp [dedent]
  · have hindentation : indentation (token :: rest) = token.length := if_pos htype
    have hdedent : dedent s.indentDepth (token :: rest) = dedent s.indentDepth [token] ++ rest := by
      simp only [dedent, if_pos htype]
      split <;> rfl
    refine ⟨decide (s.indentDepth ≤ token.length), fun tokens => ?_⟩
    rw [List.cons_append, scan_indent hstarted htype, hdedent, after]
    by_cases hblank : BlankLine (token :: rest)
    · have hnil : rest = [] := hwords.symm.trans hblank
      subst hnil
      rw [if_pos hblank, List.append_nil]
      rfl
    · have hne : rest ≠ [] := fun hnil => hblank (hwords.trans hnil)
      have hle : s.indentDepth ≤ token.length := hindentation ▸ (hin.resolve_left hblank).2
      rw [if_neg hblank, decide_eq_true hle, scan_words rfl hrest hne, List.length_cons]
      simp only [List.append_assoc, hstarted, Nat.add_right_comm i 1, Nat.add_assoc i]

/-- Any other line ends the block. -/
theorem scan_line_stop (hline : Line line) (hinside : s.insideBody = false) (hstarted : s.hasBodyStarted = true)
    (hout : ¬(BlankLine line ∨ s.indentDepth ≠ 0 ∧ s.indentDepth ≤ indentation line)) (hdepth : s.indentDepth ≠ 0)
    (tokens : List Token) : (s.scan i (line ++ tokens)).dowrapTokens = s.dowrapTokens ∧
      (s.scan i (line ++ tokens)).lastNormalToken = s.lastNormalToken := by
  obtain ⟨hblank, hless⟩ := not_or.mp hout
  have hlt : indentation line < s.indentDepth := UInt64.not_le.mp fun hle => hless ⟨hdepth, hle⟩
  have hword : ∀ {ws : List Token}, words ws = ws → ∀ token ∈ ws, token.type.isBlank = false := fun h token htoken => by
    simpa using List.filter_eq_self.mp h token htoken
  rcases hline.cases with ⟨hwords, -, -⟩ | ⟨token, rest, rfl, htype, -, hwords, hrest⟩
  · obtain ⟨token, ws, rfl⟩ := List.exists_cons_of_ne_nil fun hnil => hblank (hwords.trans hnil)
    rw [List.cons_append, scan_stop hinside (hword hwords token List.mem_cons_self)]
    exact ⟨rfl, rfl⟩
  · obtain ⟨word, ws, rfl⟩ := List.exists_cons_of_ne_nil fun hnil => hblank (hwords.trans hnil)
    rw [indentation, if_pos htype] at hlt
    have hnone : dedent s.indentDepth [token] = [] := by
      rw [dedent, if_pos htype, if_neg (UInt64.not_lt.mpr (UInt64.le_of_lt hlt))]
    rw [List.cons_append, scan_indent hstarted htype, hnone, List.append_nil, decide_eq_false (UInt64.not_le.mpr hlt),
      List.cons_append, scan_stop rfl (hword hrest word List.mem_cons_self)]
    exact ⟨rfl, rfl⟩

/-! ### A line before the block has started -/

/-- A blank line before the block leaves nothing. -/
theorem scan_first_blank (hline : Line line) (hinside : s.insideBody = false) (hstarted : s.hasBodyStarted = false)
    (hblank : BlankLine line) : ∃ depth inside, ∀ tokens, s.scan i (line ++ tokens) =
      scan { s with indentDepth := depth, insideBody := inside } (i + line.length) tokens := by
  rcases hline.cases with ⟨hwords, -, -⟩ | ⟨token, rest, rfl, htype, -, hwords, -⟩
  · have hnil : line = [] := hwords.symm.trans hblank
    subst hnil
    exact ⟨s.indentDepth, s.insideBody, fun tokens => rfl⟩
  · have hnil : rest = [] := hwords.symm.trans hblank
    subst hnil
    refine ⟨token.length, true, fun tokens => ?_⟩
    simp [scan, step, htype, hinside, hstarted]

/-- The first line with words starts the block if it is indented. -/
theorem scan_first (hline : Line line) (hinside : s.insideBody = false) (hstarted : s.hasBodyStarted = false)
    (hblank : ¬BlankLine line) (hdepth : indentation line ≠ 0) (tokens : List Token) :
    s.scan i (line ++ tokens) = scan
      { (s.after i line (dedent (indentation line) line) true) with
        indentDepth := indentation line
        hasBodyStarted := true } (i + line.length) tokens := by
  rcases hline.cases with ⟨-, hzero, -⟩ | ⟨token, rest, rfl, htype, -, hwords, hrest⟩
  · exact absurd hzero hdepth
  · have hne : rest ≠ [] := fun hnil => hblank (hwords.trans hnil)
    have hindentation : indentation (token :: rest) = token.length := if_pos htype
    have hdedent : dedent token.length (token :: rest) = rest := by
      rw [dedent, if_pos htype, if_neg (UInt64.lt_irrefl _)]
    have hstep : s.step i token = some { s with indentDepth := token.length, insideBody := true } := by
      simp [step, htype, hinside, hstarted]
    rw [hindentation, hdedent, after, if_neg hblank, List.cons_append, scan, hstep]
    dsimp only
    rw [scan_words rfl hrest hne, List.length_cons, Nat.add_right_comm i 1, Nat.add_assoc i]

/-- If it is not indented, there is no block. -/
theorem scan_first_stop (hline : Line line) (hinside : s.insideBody = false) (hblank : ¬BlankLine line)
    (hdepth : indentation line = 0) (tokens : List Token) : s.scan i (line ++ tokens) = s := by
  rcases hline.cases with ⟨hwords, -, -⟩ | ⟨token, rest, rfl, htype, hlength, -⟩
  · obtain ⟨token, ws, rfl⟩ := List.exists_cons_of_ne_nil fun hnil => hblank (hwords.trans hnil)
    have hword := List.filter_eq_self.mp hwords token List.mem_cons_self
    rw [List.cons_append, scan_stop hinside (by simpa using hword)]
  · rw [indentation, if_pos htype] at hdepth
    exact absurd hdepth hlength

end DowrapScan

/-! ## All lines -/

theorem words_append (l l' : List Token) : words (l ++ l') = words l ++ words l' := List.filter_append ..

theorem words_cons_newLine {token : Token} (htype : token.type = .newLine) (l : List Token) :
    words (token :: l) = words l := List.filter_cons_of_neg (by simp [htype, TokenType.isBlank])

theorem lines_append {token : Token} (htype : token.type = .newLine) (l rest : List Token) :
    lines (l ++ token :: rest) = lines l ++ lines rest :=
  List.splitOnP_append_cons l rest (decide_eq_true htype)

theorem lines_newLine {line : List Token} (hline : ∀ token ∈ line, token.type ≠ .newLine) {token : Token}
    (htype : token.type = .newLine) (rest : List Token) : lines (line ++ token :: rest) = line :: lines rest :=
  List.splitOnP_append_cons_of_forall_mem (fun t ht => decide_eq_false (hline t ht)) token (decide_eq_true htype) rest

theorem lines_singleton {line : List Token} (hline : ∀ token ∈ line, token.type ≠ .newLine) : lines line = [line] :=
  List.splitOnP_eq_singleton fun token htoken => decide_eq_false (hline token htoken)

/-- Tokens go line by line: there is one line, or one before a newline and the others. -/
theorem lines_induction {P : List Token → Prop} (one : ∀ line, (∀ token ∈ line, token.type ≠ .newLine) → P line)
    (more : ∀ line token rest, (∀ t ∈ line, t.type ≠ .newLine) → token.type = .newLine → P rest →
      P (line ++ token :: rest)) (tokens : List Token) : P tokens := by
  induction hlength : tokens.length using Nat.strong_induction_on generalizing tokens with
  | _ n ih =>
    have hsplit := List.takeWhile_append_dropWhile (p := fun token : Token => token.type ≠ .newLine) (l := tokens)
    have htake : ∀ token ∈ tokens.takeWhile fun token => token.type ≠ .newLine, token.type ≠ .newLine :=
      fun token htoken => by simpa using List.mem_takeWhile_imp htoken
    rcases hdrop : tokens.dropWhile fun token => token.type ≠ .newLine with - | ⟨token, rest⟩
    · rw [hdrop, List.append_nil] at hsplit
      rw [← hsplit]
      exact one _ htake
    · have hhead := List.head_dropWhile_not (fun token : Token => decide (token.type ≠ .newLine)) (l := tokens)
        (by rw [hdrop]; exact List.cons_ne_nil _ _)
      simp only [hdrop, List.head_cons] at hhead
      rw [hdrop] at hsplit
      rw [← hsplit]
      refine more _ _ _ htake (by simpa using hhead) (ih rest.length ?_ rest rfl)
      rw [← hlength, ← hsplit, List.length_append, List.length_cons]
      omega

/-- What the scan from the start of a line on makes of lines of which it takes some. -/
structure Takes (tokens : List Token) (i : ℕ) (s s' : DowrapScan) (block body : List (List Token)) : Prop where
  body : ∃ new, s'.dowrapTokens = s.dowrapTokens ++ new ∧ (lines new = body ∨ lines new = body ++ [[]])
  taken : ∃ taken, taken <+: tokens ∧ words taken = words block.flatten ∧
    (taken = [] ∧ s'.lastNormalToken = s.lastNormalToken ∨
      (∃ token, taken.getLast? = some token ∧ token.type.isBlank = false) ∧
        s'.lastNormalToken + 1 = i + taken.length)

/-- Behind a line that is taken it goes on from the next. -/
theorem Takes.newLine {s s' : DowrapScan} {i : ℕ} {line new : List Token} {token : Token} {rest : List Token}
    {block body : List (List Token)} (htype : token.type = .newLine) (hnew : ∀ t ∈ new, t.type ≠ .newLine)
    (hlast : BlankLine line ∨ ∃ t, line.getLast? = some t ∧ t.type.isBlank = false)
    {t : DowrapScan} (htokens : t.dowrapTokens = s.dowrapTokens ++ new ++ [token])
    (hindex : t.lastNormalToken = if BlankLine line then s.lastNormalToken else i + line.length - 1)
    (h : Takes rest (i + line.length + 1) t s' block body) :
    Takes (line ++ token :: rest) i s s' (line :: block) (new :: body) := by
  obtain ⟨⟨more, hmore, hlines⟩, taken, ⟨behind, htaken⟩, hwords, hend⟩ := h
  constructor
  · refine ⟨new ++ token :: more, ?_, ?_⟩
    · rw [hmore, htokens]
      simp only [List.append_assoc, List.singleton_append]
    · rw [lines_newLine hnew htype]
      rcases hlines with hlines | hlines
      · exact Or.inl (congrArg _ hlines)
      · exact Or.inr (congrArg _ hlines)
  · rw [List.flatten_cons, words_append]
    rcases hend with ⟨rfl, hend⟩ | ⟨hword, hend⟩
    · rw [hend, hindex]
      have hnone : words block.flatten = [] := hwords.symm
      rw [hnone, List.append_nil]
      by_cases hblank : BlankLine line
      · rw [if_pos hblank]
        exact ⟨[], List.nil_prefix, hblank.symm, Or.inl ⟨rfl, rfl⟩⟩
      · have hne : line ≠ [] := fun hnil => hblank (hnil ▸ rfl)
        have hpos := List.length_pos_of_ne_nil hne
        rw [if_neg hblank]
        exact ⟨line, List.prefix_append _ _, rfl, Or.inr ⟨hlast.resolve_left hblank, by omega⟩⟩
    · refine ⟨line ++ token :: taken, ⟨behind, ?_⟩, ?_, Or.inr ⟨?_, ?_⟩⟩
      · rw [← htaken]
        simp only [List.append_assoc, List.cons_append]
      · rw [words_append, words_cons_newLine htype, hwords]
      · obtain ⟨t, ht, hblank⟩ := hword
        refine ⟨t, ?_, hblank⟩
        rw [List.getLast?_append_of_ne_nil _ (List.cons_ne_nil _ _), List.getLast?_cons, ht]
        rfl
      · rw [hend, List.length_append, List.length_cons]
        omega

/-- The last line, if it is taken. -/
theorem Takes.last {s s' : DowrapScan} {i : ℕ} {line new : List Token} (hnew : ∀ t ∈ new, t.type ≠ .newLine)
    (hlast : BlankLine line ∨ ∃ t, line.getLast? = some t ∧ t.type.isBlank = false)
    (htokens : s'.dowrapTokens = s.dowrapTokens ++ new)
    (hindex : s'.lastNormalToken = if BlankLine line then s.lastNormalToken else i + line.length - 1) :
    Takes line i s s' [line] [new] := by
  constructor
  · exact ⟨new, htokens, Or.inl (lines_singleton hnew)⟩
  · rw [List.flatten_singleton, hindex]
    by_cases hblank : BlankLine line
    · rw [if_pos hblank]
      exact ⟨[], List.nil_prefix, hblank.symm, Or.inl ⟨rfl, rfl⟩⟩
    · have hne : line ≠ [] := fun hnil => hblank (hnil ▸ rfl)
      have hpos := List.length_pos_of_ne_nil hne
      rw [if_neg hblank]
      exact ⟨line, List.prefix_rfl, rfl, Or.inr ⟨hlast.resolve_left hblank, by omega⟩⟩

/-- No line is taken. -/
theorem Takes.nothing {tokens : List Token} {s s' : DowrapScan} {i : ℕ} (htokens : s'.dowrapTokens = s.dowrapTokens)
    (hindex : s'.lastNormalToken = s.lastNormalToken) : Takes tokens i s s' [] [] where
  body := ⟨[], by rw [htokens, List.append_nil], Or.inr (lines_singleton fun _ h => nomatch h)⟩
  taken := ⟨[], List.nil_prefix, rfl, Or.inl ⟨rfl, hindex⟩⟩

theorem Line.of_laidOut {tokens line : List Token} (h : LaidOut tokens) (hline : line ∈ lines tokens)
    (hnewLine : ∀ token ∈ line, token.type ≠ .newLine) : Line line :=
  ⟨hnewLine, (h line hline).1, (h line hline).2⟩

/-- The last token of a line that is not blank is a word. -/
theorem Line.getLast? {line : List Token} (h : Line line) :
    BlankLine line ∨ ∃ t, line.getLast? = some t ∧ t.type.isBlank = false := by
  have hlast : ∀ ws : List Token, words ws = ws → ws ≠ [] → ∃ t, ws.getLast? = some t ∧ t.type.isBlank = false := by
    intro ws hwords hne
    refine ⟨ws.getLast hne, List.getLast?_eq_some_getLast hne, ?_⟩
    simpa using List.filter_eq_self.mp hwords _ (List.getLast_mem hne)
  rw [or_iff_not_imp_left]
  intro hblank
  rcases h.cases with ⟨hwords, -⟩ | ⟨token, rest, rfl, -, -, hwords, hrest⟩
  · exact hlast line hwords fun hnil => hblank (hwords.trans hnil)
  · have hne : rest ≠ [] := fun hnil => hblank (hwords.trans hnil)
    obtain ⟨t, ht, hword⟩ := hlast rest hrest hne
    exact ⟨t, by rw [List.getLast?_cons, ht]; rfl, hword⟩

theorem Line.dedent {line : List Token} (h : Line line) (depth : UInt64) :
    ∀ token ∈ dedent depth line, token.type ≠ .newLine := by
  rcases h.cases with ⟨-, -, hsame⟩ | ⟨token, rest, rfl, htype, -⟩
  · rw [hsame]
    exact h.newLine
  · intro t ht
    rw [Chloride.dedent, if_pos htype] at ht
    split at ht
    · rcases List.mem_cons.mp ht with rfl | ht
      · exact TokenType.noConfusion
      · exact h.newLine t (List.mem_cons_of_mem _ ht)
    · exact h.newLine t (List.mem_cons_of_mem _ ht)

/-- In a block that has started, the scan takes the lines that are blank or as deep. -/
theorem DowrapScan.scan_takes (tokens : List Token) : ∀ (s : DowrapScan) (i : ℕ), LaidOut tokens →
    s.insideBody = false → s.hasBodyStarted = true → s.indentDepth ≠ 0 →
      Takes tokens i s (s.scan i tokens) (blockLines s.indentDepth (lines tokens))
        ((blockLines s.indentDepth (lines tokens)).map (dedent s.indentDepth)) := by
  induction tokens using lines_induction with
  | one line hnewLine =>
    intro s i hlaid hinside hstarted hdepth
    have hlines := lines_singleton hnewLine
    have hline := Line.of_laidOut hlaid (hlines ▸ List.mem_singleton_self line) hnewLine
    rw [hlines]
    by_cases hin : BlankLine line ∨ s.indentDepth ≠ 0 ∧ s.indentDepth ≤ indentation line
    · obtain ⟨inside, hscan⟩ := scan_line (i := i) hline hinside hstarted hin
      have hscan := hscan []
      rw [List.append_nil, scan] at hscan
      rw [blockLines_cons_of_pos hin, hscan]
      exact Takes.last (hline.dedent _) hline.getLast? rfl rfl
    · obtain ⟨htokens, hindex⟩ := scan_line_stop (i := i) hline hinside hstarted hin hdepth []
      rw [List.append_nil] at htokens hindex
      rw [blockLines_cons_of_neg hin]
      exact Takes.nothing htokens hindex
  | more line token rest hnewLine htype ih =>
    intro s i hlaid hinside hstarted hdepth
    have hlines := lines_newLine hnewLine htype rest
    have hline := Line.of_laidOut hlaid (hlines ▸ List.mem_cons_self) hnewLine
    have hrest : LaidOut rest := fun l hl => hlaid l (hlines ▸ List.mem_cons_of_mem _ hl)
    rw [hlines]
    by_cases hin : BlankLine line ∨ s.indentDepth ≠ 0 ∧ s.indentDepth ≤ indentation line
    · obtain ⟨inside, hscan⟩ := scan_line (i := i) hline hinside hstarted hin
      rw [blockLines_cons_of_pos hin, hscan, scan_newLine htype]
      exact Takes.newLine htype (hline.dedent _) hline.getLast? rfl rfl (ih _ _ hrest rfl hstarted hdepth)
    · obtain ⟨htokens, hindex⟩ := scan_line_stop (i := i) hline hinside hstarted hin hdepth (token :: rest)
      rw [blockLines_cons_of_neg hin]
      exact Takes.nothing htokens hindex

/-- Before the block, the scan takes the blank lines, and then the block if the first other line is indented. -/
theorem DowrapScan.scan_first_takes (tokens : List Token) : ∀ (s : DowrapScan) (i : ℕ), LaidOut tokens →
    s.insideBody = false → s.hasBodyStarted = false →
      Takes tokens i s (s.scan i tokens) (blockLines (firstIndentation (lines tokens)) (lines tokens))
        (dedentLines (firstIndentation (lines tokens))
          (blockLines (firstIndentation (lines tokens)) (lines tokens))) := by
  induction tokens using lines_induction with
  | one line hnewLine =>
    intro s i hlaid hinside hstarted
    have hlines := lines_singleton hnewLine
    have hline := Line.of_laidOut hlaid (hlines ▸ List.mem_singleton_self line) hnewLine
    rw [hlines]
    by_cases hblank : BlankLine line
    · obtain ⟨depth, inside, hscan⟩ := scan_first_blank (i := i) hline hinside hstarted hblank
      have hscan := hscan []
      rw [List.append_nil, scan] at hscan
      rw [blockLines_cons_of_pos (Or.inl hblank), dedentLines_cons_of_pos hblank, hscan]
      exact Takes.last (fun _ h => nomatch h) hline.getLast? (List.append_nil _).symm (if_pos hblank).symm
    · rw [firstIndentation_cons_of_neg hblank]
      by_cases hdepth : indentation line = 0
      · have hscan := scan_first_stop (i := i) hline hinside hblank hdepth []
        rw [List.append_nil] at hscan
        have hout : ¬(BlankLine line ∨ indentation line ≠ 0 ∧ indentation line ≤ indentation line) :=
          fun hin => (hin.resolve_left hblank).1 hdepth
        rw [blockLines_cons_of_neg hout, hscan]
        exact Takes.nothing rfl rfl
      · have hscan := scan_first (i := i) hline hinside hstarted hblank hdepth []
        rw [List.append_nil, scan] at hscan
        rw [blockLines_cons_of_pos (Or.inr ⟨hdepth, UInt64.le_refl _⟩), dedentLines_cons_of_neg hblank, hscan]
        exact Takes.last (hline.dedent _) hline.getLast? rfl rfl
  | more line token rest hnewLine htype ih =>
    intro s i hlaid hinside hstarted
    have hlines := lines_newLine hnewLine htype rest
    have hline := Line.of_laidOut hlaid (hlines ▸ List.mem_cons_self) hnewLine
    have hrest : LaidOut rest := fun l hl => hlaid l (hlines ▸ List.mem_cons_of_mem _ hl)
    rw [hlines]
    by_cases hblank : BlankLine line
    · obtain ⟨depth, inside, hscan⟩ := scan_first_blank (i := i) hline hinside hstarted hblank
      rw [firstIndentation_cons_of_pos hblank, blockLines_cons_of_pos (Or.inl hblank),
        dedentLines_cons_of_pos hblank, hscan, scan_newLine htype]
      refine Takes.newLine htype (fun _ h => nomatch h) hline.getLast? ?_ ?_
        (ih _ _ hrest rfl (by exact hstarted))
      · exact congrArg (· ++ [token]) (List.append_nil _).symm
      · exact (if_pos hblank).symm
    · rw [firstIndentation_cons_of_neg hblank]
      by_cases hdepth : indentation line = 0
      · have hout : ¬(BlankLine line ∨ indentation line ≠ 0 ∧ indentation line ≤ indentation line) :=
          fun hin => (hin.resolve_left hblank).1 hdepth
        rw [blockLines_cons_of_neg hout, scan_first_stop hline hinside hblank hdepth]
        exact Takes.nothing rfl rfl
      · rw [blockLines_cons_of_pos (Or.inr ⟨hdepth, UInt64.le_refl _⟩), dedentLines_cons_of_neg hblank,
          scan_first hline hinside hstarted hblank hdepth, scan_newLine htype]
        exact Takes.newLine htype (hline.dedent _) hline.getLast? rfl rfl
          (scan_takes rest _ _ hrest rfl rfl hdepth)

/-! ## The result -/

/-- The words of a list are those of its lines. -/
theorem words_lines (tokens : List Token) : words (lines tokens).flatten = words tokens := by
  induction tokens using lines_induction with
  | one line hnewLine => rw [lines_singleton hnewLine, List.flatten_singleton]
  | more line token rest hnewLine htype ih =>
    rw [lines_newLine hnewLine htype, List.flatten_cons, words_append, words_append, words_cons_newLine htype, ih]

theorem words_dedent (depth : UInt64) (line : List Token) : words (dedent depth line) = words line := by
  cases line with
  | nil => rfl
  | cons token line =>
    rw [dedent]
    split
    · rename_i htype
      rw [words, words, List.filter_cons_of_neg (a := token) (by simp [htype, TokenType.isBlank])]
      split
      · exact List.filter_cons_of_neg (by simp [Token.dedented, TokenType.isBlank])
      · rfl
    · rfl

theorem words_dedentLines (depth : UInt64) (ls : List (List Token)) :
    words (dedentLines depth ls).flatten = words ls.flatten := by
  induction ls with
  | nil => rfl
  | cons line ls ih =>
    by_cases hblank : BlankLine line
    · rw [dedentLines_cons_of_pos hblank, List.flatten_cons, List.flatten_cons, words_append, words_append, ih,
        show words line = [] from hblank]
      rfl
    · rw [dedentLines_cons_of_neg hblank]
      clear ih hblank
      induction line :: ls with
      | nil => rfl
      | cons line ls ih =>
        rw [List.map_cons, List.flatten_cons, List.flatten_cons, words_append, words_append, ih, words_dedent]

/-- The lines of a block are laid out for the blocks in them. -/
theorem laidOut_dedent {line : List Token} (hline : (∀ token ∈ line.tail, token.type ≠ .indent) ∧
    ∀ token ∈ line, token.type = .indent → token.length ≠ 0) (depth : UInt64) :
    (∀ token ∈ (dedent depth line).tail, token.type ≠ .indent) ∧
      ∀ token ∈ dedent depth line, token.type = .indent → token.length ≠ 0 := by
  obtain ⟨htail, hlength⟩ := hline
  cases line with
  | nil => exact ⟨htail, hlength⟩
  | cons token line =>
    rw [dedent]
    split
    · split
      · rename_i hdeeper
        refine ⟨htail, fun t ht htype => ?_⟩
        rcases List.mem_cons.mp ht with rfl | ht
        · show token.length - depth ≠ 0
          intro hzero
          have hnat := congrArg UInt64.toNat hzero
          rw [UInt64.toNat_sub_of_le _ _ (UInt64.le_of_lt hdeeper)] at hnat
          have hlt := UInt64.lt_iff_toNat_lt.mp hdeeper
          have hnone : (0 : UInt64).toNat = 0 := rfl
          omega
        · exact hlength t (List.mem_cons_of_mem _ ht) htype
      · refine ⟨fun t ht => htail t (List.mem_of_mem_tail ht), fun t ht => ?_⟩
        exact hlength t (List.mem_cons_of_mem _ ht)
    · exact ⟨htail, hlength⟩

theorem laidOut_dedentLines (depth : UInt64) {ls : List (List Token)}
    (h : ∀ line ∈ ls, (∀ token ∈ line.tail, token.type ≠ .indent) ∧
      ∀ token ∈ line, token.type = .indent → token.length ≠ 0) : ∀ line ∈ dedentLines depth ls,
        (∀ token ∈ line.tail, token.type ≠ .indent) ∧ ∀ token ∈ line, token.type = .indent → token.length ≠ 0 := by
  intro line hline
  rcases List.mem_append.mp hline with hline | hline
  · obtain ⟨-, -, rfl⟩ := List.mem_map.mp hline
    exact ⟨fun _ h => (nomatch h), fun _ h => nomatch h⟩
  · obtain ⟨line', hline', rfl⟩ := List.mem_map.mp hline
    exact laidOut_dedent (h line' ((List.dropWhile_sublist _).subset hline')) depth

/-- The lines of the block behind a newline at `index`. -/
noncomputable def blockAt (tokens : List Token) (index : ℕ) : List (List Token) :=
  blockLines (firstIndentation (lines (tokens.drop (index + 1)))) (lines (tokens.drop (index + 1)))

/-- What `parse_dowrap` makes of the tokens from a newline at `index` on: `body` is for the parser, and `taken` is what
it moves over. -/
structure SplitsOff (tokens : List Token) (index : ℕ) (body taken : List Token) : Prop where
  block : let depth := firstIndentation (lines (tokens.drop (index + 1)))
    lines body = dedentLines depth (blockAt tokens index) ∨
      lines body = dedentLines depth (blockAt tokens index) ++ [[]]
  same : words body = words taken
  start : taken <+: tokens.drop index
  last : taken = [] ∨ ∃ token, taken.getLast? = some token ∧ token.type.isBlank = false
  laidOut : LaidOut body

variable {α : Type} {parser : List Token → Except ParseStop (List α)} {tokens : List Token} {index : ℕ}

/-- The body is empty at the end of the tokens. -/
theorem parseDowrap_end (h : tokens.length ≤ index + 1) : parseDowrap parser tokens index = .ok ([], index + 1) := by
  show (if tokens.length ≤ index + 1 then (pure [] : Parse (List α)) else _) (index + 1) = _
  rw [if_pos h]
  rfl

/-- What the loop is given, and where it leaves the index. -/
theorem parseDowrap_scan {token : Token} (htoken : tokens[index + 1]? = some token) (htype : token.type = .newLine) :
    parseDowrap parser tokens index =
      let s := DowrapScan.scan ⟨0, false, false, [], index⟩ (index + 2) (tokens.drop (index + 2))
      parser s.dowrapTokens >>= fun values => .ok (values, s.lastNormalToken + 1) := by
  have hlt : ¬tokens.length ≤ index + 1 := Nat.not_le.mpr (List.getElem?_eq_some_iff.mp htoken).1
  show (if tokens.length ≤ index + 1 then (pure [] : Parse (List α)) else _) (index + 1) = _
  rw [if_neg hlt, Parse.bind_of_ok (darrayGet_ok.mpr ⟨htoken, rfl⟩), if_neg (not_not.mpr htype)]
  rfl

/-- Behind `do` and a newline, the block is split off and the index stands behind its last word. -/
theorem parseDowrap_spec (parser : List Token → Except ParseStop (List α)) (tokens : List Token) (index : ℕ)
    (hlaid : LaidOut tokens) : (tokens.length ≤ index + 1 → parseDowrap parser tokens index = .ok ([], index + 1)) ∧
      ∀ token, tokens[index + 1]? = some token → token.type = .newLine →
        ∃ body taken, SplitsOff tokens (index + 1) body taken ∧ parseDowrap parser tokens index =
          parser body >>= fun values => .ok (values, index + 1 + taken.length) := by
  refine ⟨parseDowrap_end, fun token htoken htype => ?_⟩
  have hdrop : tokens.drop (index + 1) = token :: tokens.drop (index + 2) := by
    obtain ⟨hlt, rfl⟩ := List.getElem?_eq_some_iff.mp htoken
    exact List.drop_eq_getElem_cons hlt
  -- The lines behind the newline are lines of all the tokens.
  have hbehind : LaidOut (tokens.drop (index + 2)) := by
    intro line hline
    refine hlaid line ?_
    rw [← List.take_append_drop (index + 1) tokens, hdrop, lines_append htype]
    exact List.mem_append_right _ hline
  obtain ⟨⟨body, hbody, hlines⟩, taken, htaken, hwords, hend⟩ :=
    DowrapScan.scan_first_takes (tokens.drop (index + 2)) ⟨0, false, false, [], index⟩ (index + 2) hbehind rfl rfl
  have hsame : words body = words taken := by
    rw [hwords, ← words_dedentLines (firstIndentation (lines (tokens.drop (index + 2)))), ← words_lines body]
    rcases hlines with hlines | hlines
    · rw [hlines]
    · rw [hlines, List.flatten_append, words_append]
      exact List.append_nil _
  have hlaidBody : LaidOut body := by
    have hlaidLines := laidOut_dedentLines (firstIndentation (lines (tokens.drop (index + 2))))
      fun line (hline : line ∈ blockAt tokens (index + 1)) => hbehind line ((List.takeWhile_sublist _).subset hline)
    intro line hline
    rcases hlines with hlines | hlines
    · exact hlaidLines line (hlines ▸ hline)
    · rw [hlines] at hline
      rcases List.mem_append.mp hline with hline | hline
      · exact hlaidLines line hline
      · rw [List.mem_singleton.mp hline]
        exact ⟨fun _ h => (nomatch h), fun _ h => nomatch h⟩
  rw [parseDowrap_scan htoken htype]
  dsimp only
  rw [show _ = body from hbody]
  rcases hend with ⟨rfl, hend⟩ | ⟨⟨last, hlast, hword⟩, hend⟩
  · refine ⟨body, [], ⟨hlines, hsame, List.nil_prefix, Or.inl rfl, hlaidBody⟩, ?_⟩
    rw [hend]
    rfl
  · refine ⟨body, token :: taken, ⟨hlines, ?_, ?_, Or.inr ⟨last, ?_, hword⟩, hlaidBody⟩, ?_⟩
    · rw [hsame, words_cons_newLine htype]
    · rw [hdrop]
      exact List.cons_prefix_cons.mpr ⟨rfl, htaken⟩
    · rw [List.getLast?_cons, hlast]
      rfl
    · have hindex : index + 2 + taken.length = index + 1 + (token :: taken).length := by
        rw [List.length_cons]
        omega
      rw [hend, hindex]

/-- Three tokens on two lines: `do`, and a name that is not indented. -/
def unindented : List Token :=
  [⟨.do_, 1, 1, 2, [100, 111]⟩, ⟨.newLine, 1, 3, 1, [10]⟩, ⟨.identifier, 2, 1, 1, [120]⟩]

theorem laidOut_unindented : LaidOut unindented := by
  have hlines : lines unindented = [[⟨.do_, 1, 1, 2, [100, 111]⟩], [⟨.identifier, 2, 1, 1, [120]⟩]] := by
    rw [show unindented = [⟨.do_, 1, 1, 2, [100, 111]⟩] ++ ⟨.newLine, 1, 3, 1, [10]⟩ ::
      [⟨.identifier, 2, 1, 1, [120]⟩] from rfl, lines_append rfl, lines_singleton (by decide), lines_singleton (by decide)]
    rfl
  rw [LaidOut, hlines]
  decide

/-- A block behind `do` at the end of a line, whose first line is not indented: it takes no token. -/
theorem parseDowrap_spec_unindented : ∃ body taken, SplitsOff unindented 1 body taken ∧
    parseDowrap .ok unindented 0 = .ok (body, 1 + taken.length) :=
  (parseDowrap_spec .ok unindented 0 laidOut_unindented).2 ⟨.newLine, 1, 3, 1, [10]⟩ rfl rfl

/-- The first line that is not indented does not go with the lines that are indented as little. -/
theorem not_forall_block : ¬∀ (tokens : List Token) (index : ℕ) (token : Token), LaidOut tokens →
    tokens[index + 1]? = some token → token.type = .newLine →
      ∃ body next, parseDowrap .ok tokens index = .ok (body, next) ∧
        let ls := lines (tokens.drop (index + 2))
        words body = words (ls.takeWhile fun line => indentation (ls.headD []) ≤ indentation line).flatten := by
  intro h
  obtain ⟨body, next, hparse, hbody⟩ := h unindented 0 _ laidOut_unindented rfl rfl
  have hnone : body = [] := by
    have hrun : parseDowrap .ok unindented 0 = .ok ([], 1) := rfl
    rw [hrun] at hparse
    exact (Prod.mk.inj (Except.ok.inj hparse)).1.symm
  have hlines : lines (unindented.drop 2) = [[⟨.identifier, 2, 1, 1, [120]⟩]] := lines_singleton (by decide)
  rw [hnone, hlines] at hbody
  exact absurd hbody (by decide)

end Chloride
