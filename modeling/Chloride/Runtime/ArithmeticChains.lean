import Chloride.Numerics.Precedence
import Chloride.Parser.Expression
import Chloride.Runtime.Computation

/-!
# Chains of arithmetic

What is computed for number literals with `+`, `-`, `*` and `/` between them. The parser groups them at
the loosest operators (`OperationTree.Groups`), and each operator has a token type of its own, so `/` is
looser than `*` and `+` looser than `-`; the code of `translate_operation` folds the operands of an
operation from the left, with the handler of its operator.
-/

namespace Chloride

/-! ## Trees -/

/-- The operation of a sign. -/
def signOperation : ArithmeticSign → OperationToken
  | .plus => .plus
  | .minus => .minus
  | .star => .star
  | .slash => .slash

theorem signOperation_injective : Function.Injective signOperation := by
  intro a b h
  cases a <;> cases b <;> first | rfl | cases h

/-- The handler of a sign, on numbers. -/
def signHandler : ArithmeticSign → Number → Number → ExceptT ArErr Option Number
  | .plus, a, b => ExceptT.lift (doAddition a b)
  | .minus, a, b => ExceptT.lift (doSubtraction a b)
  | .star, a, b => ExceptT.lift (doMultiplication a b)
  | .slash, a, b => doDivision a b

/-- The trees of numbers and signs. -/
inductive ArithmeticTree where
  | number (number : Mpq)
  | operation (loc : SourceLocation) (sign : ArithmeticSign) (first : ArithmeticTree)
      (rest : List ArithmeticTree)

namespace ArithmeticTree

mutual

/-- The parsed value that a tree is. -/
def value : ArithmeticTree → ParsedValue
  | .number n => .number n
  | .operation loc sign first rest => .operation loc (signOperation sign) first.value (values rest)

def values : List ArithmeticTree → List ParsedValue
  | [] => []
  | tree :: trees => tree.value :: values trees

end

mutual

/-- What the code of a tree computes. -/
def evaluate : ArithmeticTree → ExceptT ArErr Option Number
  | .number n => return newNumberObject n
  | .operation _ sign first rest => do evaluateRest sign (← first.evaluate) rest

/-- The loop of `translate_operation` over the operands behind the first; `a` is in `registerA`. -/
def evaluateRest (sign : ArithmeticSign) : Number → List ArithmeticTree → ExceptT ArErr Option Number
  | a, [] => return a
  | a, tree :: trees => do
    let b ← tree.evaluate
    let c ← signHandler sign a b
    evaluateRest sign c trees

end

mutual

/-- The numbers are in lowest terms. -/
def Lowest : ArithmeticTree → Prop
  | .number n => n.Canonical
  | .operation _ _ first rest => first.Lowest ∧ AllLowest rest

def AllLowest : List ArithmeticTree → Prop
  | [] => True
  | tree :: trees => tree.Lowest ∧ AllLowest trees

end

theorem allLowest_iff (trees : List ArithmeticTree) : AllLowest trees ↔ ∀ tree ∈ trees, tree.Lowest := by
  induction trees with
  | nil => simp [AllLowest]
  | cons tree trees ih => rw [AllLowest, ih, List.forall_mem_cons]

theorem values_eq_map (trees : List ArithmeticTree) : values trees = trees.map value := by
  induction trees with
  | nil => rfl
  | cons tree trees ih => rw [values, ih, List.map_cons]

mutual

/-- A parsed value is the value of one tree at most. -/
theorem value_injective : ∀ tree tree' : ArithmeticTree, tree.value = tree'.value → tree = tree'
  | .number n, .number n', h => by
    rw [value, value, ParsedValue.number.injEq] at h
    rw [h]
  | .number _, .operation .., h => by cases h
  | .operation .., .number _, h => by cases h
  | .operation loc sign first rest, .operation loc' sign' first' rest', h => by
    rw [value, value, ParsedValue.operation.injEq] at h
    obtain ⟨rfl, hsign, hfirst, hrest⟩ := h
    rw [signOperation_injective hsign, value_injective _ _ hfirst, values_injective _ _ hrest]

theorem values_injective : ∀ trees trees' : List ArithmeticTree, values trees = values trees' →
    trees = trees'
  | [], [], _ => rfl
  | [], _ :: _, h => by cases h
  | _ :: _, [], h => by cases h
  | tree :: trees, tree' :: trees', h => by
    obtain ⟨htree, htrees⟩ := List.cons.inj h
    rw [value_injective _ _ htree, values_injective _ _ htrees]

end

end ArithmeticTree

/-! ## The handlers -/

/-- The pairs of numbers for which the handler of a sign neither overflows nor fails. -/
def SignAllowed : ArithmeticSign → ℚ → ℚ → Prop
  | .minus, a, b => ¬SubtractionOverflows (numberOf a) (numberOf b)
  | .slash, a, b => b ≠ 0 ∧ ¬DivisionOverflows (numberOf a) (numberOf b)
  | _, _, _ => True

/-- The handlers compute what the signs say. -/
theorem signHandler_computes (sign : ArithmeticSign) (a b : ℚ) :
    Computes (signHandler sign (numberOf a) (numberOf b)) (SignAllowed sign a b) (sign.apply a b) := by
  cases sign with
  | plus => exact doAddition_computes a b
  | minus => exact doSubtraction_computes a b
  | star => exact doMultiplication_computes a b
  | slash => exact doDivision_computes a b

/-! ## The value of a tree -/

/-- The operands are folded from the left. -/
theorem evaluateRest_computes (sign : ArithmeticSign) {α : Type} {es : List α}
    {tree : α → ArithmeticTree} {p : α → Prop} {q : α → ℚ}
    (h : ∀ e ∈ es, Computes (tree e).evaluate (p e) (q e)) (a : ℚ) :
    Computes (ArithmeticTree.evaluateRest sign (numberOf a) (es.map tree))
      ((∀ e ∈ es, p e) ∧ Chain.FoldSteps sign.apply (SignAllowed sign) a (es.map q))
      ((es.map q).foldl sign.apply a) := by
  induction es generalizing a with
  | nil => exact (Computes.pure a).congr (by simp [Chain.FoldSteps])
  | cons e es ih =>
    rw [List.forall_mem_cons] at h
    have hstep := (signHandler_computes sign a (q e)).bind
      (f := fun c => ArithmeticTree.evaluateRest sign c (es.map tree)) (ih h.2 _)
    have hall := h.1.bind (f := fun b => signHandler sign (numberOf a) b >>= fun c =>
      ArithmeticTree.evaluateRest sign c (es.map tree)) hstep
    rw [List.map_cons, ArithmeticTree.evaluateRest]
    refine hall.congr ?_
    rw [List.forall_mem_cons, List.map_cons, Chain.FoldSteps]
    tauto

/-- What the code of a tree computes is what a chain of numbers is, level by level. -/
def ArithmeticTree.IsFor (tree : ArithmeticTree) (c : Chain ℚ ArithmeticSign) : Prop :=
  Computes tree.evaluate (Chain.LevelSteps ArithmeticSign.apply SignAllowed ArithmeticSign.levels c)
    (Chain.levelValue ArithmeticSign.apply ArithmeticSign.levels c)

/-- The looser signs, and the tighter ones. -/
theorem levels_split (sign : ArithmeticSign) :
    ∃ looser tighter, ArithmeticSign.levels = looser ++ sign :: tighter ∧
      ∀ s ∈ looser, (signOperation sign).code < (signOperation s).code := by
  cases sign with
  | plus => exact ⟨[], [.minus, .slash, .star], rfl, nofun⟩
  | minus => exact ⟨[.plus], [.slash, .star], rfl, by decide⟩
  | slash => exact ⟨[.plus, .minus], [.star], rfl, by decide⟩
  | star => exact ⟨[.plus, .minus, .slash], [], rfl, by decide⟩

/-- An operation at one of the loosest signs. -/
theorem ArithmeticTree.IsFor.operation {c : Chain ℚ ArithmeticSign} {sign : ArithmeticSign}
    {loc : SourceLocation} {α : Type} {d : α} {ds : List α} {numbers : α → Chain ℚ ArithmeticSign}
    {tree : α → ArithmeticTree}
    (hloosest : ∀ s ∈ c.seps, (signOperation s).code ≤ (signOperation sign).code)
    (hcut : c.cut (· = sign) = numbers d :: ds.map numbers)
    (h : ∀ e ∈ d :: ds, (tree e).IsFor (numbers e)) :
    (ArithmeticTree.operation loc sign (tree d) (ds.map tree)).IsFor c := by
  obtain ⟨looser, tighter, hlevels, hlooser⟩ := levels_split sign
  have hskip : ∀ s ∈ looser, s ∉ c.seps := by
    intro s hs hsep
    have := hlooser s hs
    have := hloosest s hsep
    omega
  -- Between the cuts there is neither the sign nor a looser one.
  have hpieces : ∀ e ∈ d :: ds, ∀ s ∈ looser ++ [sign], s ∉ (numbers e).seps := by
    intro e he s hs hsep
    have hmem : numbers e ∈ c.cut (· = sign) := by
      rw [hcut, ← List.map_cons]
      exact List.mem_map_of_mem he
    obtain ⟨hother, hsep'⟩ := Chain.seps_of_mem_cut hmem hsep
    rcases List.mem_append.mp hs with hs | hs
    · exact hskip s hs hsep'
    · exact of_decide_eq_false hother (List.mem_singleton.mp hs)
  have hsplit : ArithmeticSign.levels = (looser ++ [sign]) ++ tighter := by
    rw [hlevels, List.append_assoc, List.singleton_append]
  have htree : ∀ e ∈ d :: ds, Computes (tree e).evaluate
      (Chain.LevelSteps ArithmeticSign.apply SignAllowed tighter (numbers e))
      (Chain.levelValue ArithmeticSign.apply tighter (numbers e)) := by
    intro e he
    have hcomputes := h e he
    unfold IsFor at hcomputes
    rw [hsplit, Chain.levelValue_skip (hpieces e he)] at hcomputes
    exact hcomputes.congr (Chain.levelSteps_skip (hpieces e he))
  have hrest := evaluateRest_computes sign (fun e he => htree e (List.mem_cons_of_mem d he))
    (Chain.levelValue ArithmeticSign.apply tighter (numbers d))
  unfold IsFor
  rw [hlevels, Chain.levelValue_skip hskip, Chain.levelValue_cons hcut, List.map_map, evaluate]
  refine ((htree d List.mem_cons_self).bind (f := fun a => evaluateRest sign a (ds.map tree))
    hrest).congr ?_
  rw [Chain.levelSteps_skip hskip, Chain.levelSteps_cons hcut, List.map_map, List.forall_mem_cons,
    List.forall_mem_map, and_assoc]
  rfl

/-! ## Literals -/

/-- A number literal, with minus signs in front; `parse_number` reads its value. -/
structure NumberLiteral where
  minuses : List Token
  token : Token
  magnitude : ℚ
  minuses_type : ∀ minus ∈ minuses, minus.type = .minus
  token_type : token.type = .number
  reads : mpqSetDecimalStrExp token.value [0] = some (some (Mpq.ofRat magnitude))

/-- A token that is a sign. -/
structure SignToken where
  token : Token
  sign : ArithmeticSign
  token_type : token.type = (signOperation sign).token

/-- The number that a literal stands for. -/
def NumberLiteral.number (literal : NumberLiteral) : ℚ := (-1) ^ literal.minuses.length * literal.magnitude

def NumberLiteral.parsed (literal : NumberLiteral) : ParsedValue := .number (Mpq.ofRat literal.number)

def SignToken.operationAt (sign : SignToken) : OperationAt := ⟨signOperation sign.sign, sign.token.loc⟩

/-- The numbers and the signs of literals. -/
def numbersOf (c : Chain NumberLiteral SignToken) : Chain ℚ ArithmeticSign :=
  c.map NumberLiteral.number SignToken.sign

/-- The values that the parser makes of the literals. -/
def parsedOf (c : Chain NumberLiteral SignToken) : Chain ParsedValue OperationAt :=
  c.map NumberLiteral.parsed SignToken.operationAt

section

variable {c : Chain NumberLiteral SignToken} {sign : ArithmeticSign}

/-- At an operator and at its sign, literals are cut in the same way. -/
theorem cut_numbersOf : (numbersOf c).cut (· = sign) = (c.cut fun s => s.sign = sign).map numbersOf :=
  c.cut_map

theorem cut_parsedOf :
    (parsedOf c).cut (fun o => o.type = signOperation sign) = (c.cut fun s => s.sign = sign).map parsedOf := by
  have hiff : (fun s : SignToken => decide (s.operationAt.type = signOperation sign)) =
      fun s => decide (s.sign = sign) :=
    funext fun s => decide_eq_decide.mpr signOperation_injective.eq_iff
  rw [← hiff]
  exact c.cut_map

/-- A tree of literals that are grouped computes what they are level by level. -/
theorem OperationTree.Groups.exists_isFor {tree : OperationTree} (h : tree.Groups (parsedOf c)) :
    ∃ t : ArithmeticTree, t.value = tree.value ∧ t.Lowest ∧ t.IsFor (numbersOf c) := by
  generalize hc : parsedOf c = parsed at h
  induction h generalizing c with
  | operand value =>
    obtain ⟨first, rest⟩ := c
    cases rest with
    | cons x rest => cases hc
    | nil =>
      cases hc
      have hnone : ∀ o ∈ ArithmeticSign.levels, o ∉ (numbersOf ⟨first, []⟩).seps :=
        fun o _ => List.not_mem_nil
      refine ⟨.number (Mpq.ofRat first.number), rfl, Mpq.canonical_ofRat _, ?_⟩
      have hsteps := @Chain.levelSteps_skip ℚ _ _ ArithmeticSign.apply SignAllowed [] _ _ hnone
      have hvalue := @Chain.levelValue_skip ℚ _ _ ArithmeticSign.apply [] _ _ hnone
      rw [List.append_nil] at hsteps hvalue
      unfold ArithmeticTree.IsFor
      rw [hvalue]
      exact (Computes.pure first.number).congr hsteps.symm
  | @operation o parsed d ds tree hmem hloosest hcut _ ih =>
    subst hc
    unfold parsedOf at hmem hloosest
    rw [Chain.seps_map] at hmem hloosest
    obtain ⟨s, hs, rfl⟩ := List.mem_map.mp hmem
    rw [List.forall_mem_map] at hloosest
    -- The pieces are made of literals.
    obtain ⟨d', ds', hcut'⟩ := List.exists_cons_of_ne_nil (c.cut_ne_nil fun s' => s'.sign = s.sign)
    have hpieces : parsedOf d' = d ∧ ds'.map parsedOf = ds := by
      have hmap := @cut_parsedOf c s.sign
      rw [hcut', List.map_cons] at hmap
      exact List.cons.inj (hmap.symm.trans hcut)
    obtain ⟨rfl, rfl⟩ := hpieces
    have hchild (e : Chain NumberLiteral SignToken) : ∃ t : ArithmeticTree, e ∈ d' :: ds' →
        t.value = (tree (parsedOf e)).value ∧ t.Lowest ∧ t.IsFor (numbersOf e) := by
      by_cases he : e ∈ d' :: ds'
      · have hmap : parsedOf e ∈ parsedOf d' :: ds'.map parsedOf := by
          rw [← List.map_cons]
          exact List.mem_map_of_mem he
        obtain ⟨t, ht⟩ := ih _ hmap rfl
        exact ⟨t, fun _ => ht⟩
      · exact ⟨.number (Mpq.ofRat 0), fun h => absurd h he⟩
    choose t ht using hchild
    refine ⟨.operation s.token.loc s.sign (t d') (ds'.map t), ?_, ?_, ?_⟩
    · have hvalues : ds'.map (fun e => (t e).value) = ds'.map fun e => (tree (parsedOf e)).value :=
        List.map_congr_left fun e he => (ht e (List.mem_cons_of_mem _ he)).1
      rw [ArithmeticTree.value, OperationTree.value, ArithmeticTree.values_eq_map,
        OperationTree.values_eq_map, List.map_map, List.map_map, List.map_map,
        (ht d' List.mem_cons_self).1]
      exact congrArg _ hvalues
    · refine ⟨(ht d' List.mem_cons_self).2.1, (ArithmeticTree.allLowest_iff _).mpr ?_⟩
      rw [List.forall_mem_map]
      exact fun e he => (ht e (List.mem_cons_of_mem _ he)).2.1
    · refine @ArithmeticTree.IsFor.operation _ _ _ _ _ _ numbersOf t ?_ ?_ fun e he => (ht e he).2.2
      · unfold numbersOf
        rw [Chain.seps_map, List.forall_mem_map]
        exact hloosest
      · rw [cut_numbersOf, hcut', List.map_cons]

end

/-! ## Expressions of literals -/

theorem parseNumber_literal (literal : NumberLiteral) :
    parseNumber literal.token = .ok (.number (Mpq.ofRat literal.magnitude)) := by
  unfold parseNumber
  rw [literal.reads]
  rfl

section

variable (forms : OtherForms)

theorem atom_literal (literal : NumberLiteral) :
    forms.atom literal.token = some (.ok (.number (Mpq.ofRat literal.magnitude))) := by
  unfold OtherForms.atom
  rw [literal.token_type, ← parseNumber_literal]

def NumberLiteral.operand (literal : NumberLiteral) : Operand forms where
  minuses := literal.minuses
  primary := .ofAtom (atom_literal forms literal)
  minuses_type := literal.minuses_type

def SignToken.operationSign (sign : SignToken) : OperationSign where
  token := sign.token
  operation := signOperation sign.sign
  token_type := by rw [sign.token_type, OperationToken.asOperation_token]

/-- The expression that literals are. -/
def expressionOf (c : Chain NumberLiteral SignToken) : Expression forms :=
  c.map (NumberLiteral.operand forms) SignToken.operationSign

variable {forms}

theorem Expression.parsed_id (e : Expression forms) :
    e.parsed id = e.map (Operand.parsed id) OperationSign.operationAt := by
  obtain ⟨first, rest⟩ := e
  unfold Expression.parsed
  dsimp only
  induction rest generalizing first with
  | nil => rfl
  | cons x rest ih =>
    obtain ⟨sign, operand⟩ := x
    rw [parsedRest, ih]
    rfl

/-- Every sign negates the number itself. -/
theorem NumberLiteral.parsed_operand (literal : NumberLiteral) :
    (literal.operand forms).parsed id = literal.parsed := by
  have hnegated (n : ℕ) (q : ℚ) : ParsedValue.negated^[n] (.number (Mpq.ofRat q)) =
      .number (Mpq.ofRat ((-1) ^ n * q)) := by
    induction n with
    | zero => rw [pow_zero, one_mul]; rfl
    | succ n ih =>
      have hneg (r : ℚ) : ParsedValue.negated (.number (Mpq.ofRat r)) = .number (Mpq.ofRat (-r)) := rfl
      rw [Function.iterate_succ_apply', ih, hneg, pow_succ]
      congr 2
      ring
  exact hnegated literal.minuses.length literal.magnitude

theorem parsed_expressionOf (c : Chain NumberLiteral SignToken) :
    (expressionOf forms c).parsed id = parsedOf c := by
  have hoperands : (fun literal : NumberLiteral => (literal.operand forms).parsed id) =
      NumberLiteral.parsed := funext NumberLiteral.parsed_operand
  rw [Expression.parsed_id]
  unfold parsedOf expressionOf Chain.map
  rw [List.map_map, ← hoperands]
  rfl

end

/-! ## The source -/

/-- The source of a chain of literals that is not divided by zero, with tokens around it that are none
of it. -/
structure ArithmeticSource where
  before : List Token
  chain : Chain NumberLiteral SignToken
  after : List Token
  after_ends : ∀ next ∈ (after.dropWhile fun token => token.type.isBlank).head?,
    next.type.suffixKind = .none
  divisors_ne_zero : ArithmeticChain.DivisorsNonzero (numbersOf chain)

namespace ArithmeticSource

variable (forms : OtherForms) (source : ArithmeticSource)

def tokens : List Token := source.before ++ ((expressionOf forms source.chain).tokens ++ source.after)

/-- The place behind the chain. -/
def finish : ℕ := source.before.length + (expressionOf forms source.chain).tokens.length

/-- The tree that the parser makes is computed, and gives the conventional value. -/
def Meets : Prop :=
  ∀ inlineFlag, ∃ tree : ArithmeticTree,
    Parses forms (source.tokens forms) inlineFlag source.before.length tree.value (source.finish forms) ∧
      ∃ c : NumberObject, tree.evaluate.run = some (.ok c.1) ∧
        c.1.toRat = ArithmeticChain.conventional (numbersOf source.chain)

/-- At `+`, then `-`, then `/` and then `*`, no divisor is zero and nothing overflows. -/
def StepsAllowed : Prop :=
  Chain.LevelSteps ArithmeticSign.apply SignAllowed ArithmeticSign.levels (numbersOf source.chain)

/-- Reading every `*` behind a `/` in its term as `/` does not change the value. -/
def Unbent : Prop :=
  ArithmeticChain.conventional (ArithmeticChain.bent (numbersOf source.chain)) =
    ArithmeticChain.conventional (numbersOf source.chain)

/-- The parser makes a tree of the source, and that computes the conventional value of what is bent. -/
theorem exists_tree : ∃ tree : ArithmeticTree,
    (∀ inlineFlag, Parses forms (source.tokens forms) inlineFlag source.before.length tree.value
      (source.finish forms)) ∧
    tree.Lowest ∧ Computes tree.evaluate source.StepsAllowed
      (ArithmeticChain.conventional (ArithmeticChain.bent (numbersOf source.chain))) := by
  obtain ⟨operations, hgroups, hconvert⟩ := convertToOperation_chain (parsedOf source.chain)
  obtain ⟨tree, hvalue, hlowest, hcomputes⟩ := hgroups.exists_isFor
  refine ⟨tree, fun inlineFlag => ?_, hlowest, ?_⟩
  · have hstart : (source.tokens forms).drop source.before.length =
        (expressionOf forms source.chain).tokens ++ source.after := List.drop_left' rfl
    have hends : Ends (source.tokens forms) (source.finish forms) :=
      ends_of_after (drop_add hstart) source.after_ends
    refine parseToken_expression _ hstart (fun _ => Behind.of_ends hends) hends ?_
    unfold Expression.value
    rw [parsed_expressionOf, hvalue]
    exact hconvert _ le_rfl
  · rw [← ArithmeticChain.levelValue_eq_conventional]
    exact hcomputes

theorem meets_iff : source.Meets forms ↔ source.StepsAllowed ∧ source.Unbent := by
  obtain ⟨tree, hparses, -, hcomputes⟩ := source.exists_tree forms
  constructor
  · intro h
    obtain ⟨tree', hparses', c, hc, hvalue⟩ := h true
    obtain rfl := ArithmeticTree.value_injective _ _ (hparses'.unique (hparses true))
    obtain ⟨hsteps, hcomputed⟩ := (hcomputes c.1).mp hc
    refine ⟨hsteps, ?_⟩
    rw [hcomputed, numberOf_toRat] at hvalue
    exact hvalue
  · rintro ⟨hsteps, hunbent⟩ inlineFlag
    refine ⟨tree, hparses inlineFlag, ⟨_, numberOf_normal _⟩, (hcomputes _).mpr ⟨hsteps, rfl⟩, ?_⟩
    rw [numberOf_toRat]
    exact hunbent

/-- Literals have their conventional value if and only if that is also the value with `/` for every `*`
behind a `/` in its term, no divisor is zero where they are grouped, and nothing overflows there. -/
theorem arithmetic_chains_iff : source.Meets forms ↔ source.StepsAllowed ∧ source.Unbent :=
  source.meets_iff forms

theorem no_minuses : ∀ minus ∈ ([] : List Token), minus.type = .minus := fun _ h => absurd h List.not_mem_nil

/-- A literal of one token. -/
def literal (token : Token) (magnitude : ℚ) (htype : token.type = .number)
    (hreads : mpqSetDecimalStrExp token.value [0] = some (some (Mpq.ofRat magnitude))) :
    NumberLiteral where
  minuses := []
  token := token
  magnitude := magnitude
  minuses_type := no_minuses
  token_type := htype
  reads := hreads

theorem literal_number {token : Token} {magnitude : ℚ} (htype : token.type = .number)
    (hreads : mpqSetDecimalStrExp token.value [0] = some (some (Mpq.ofRat magnitude))) :
    (literal token magnitude htype hreads).number = magnitude := by
  unfold NumberLiteral.number literal
  rw [List.length_nil, pow_zero, one_mul]

/-- The literals of `8 / 2 * 4`. -/
def eightHalvesTimesFour : Chain NumberLiteral SignToken :=
  ⟨literal ⟨.number, 1, 1, 1, [56]⟩ 8 rfl (by decide +kernel),
    [(⟨⟨.slash, 1, 3, 1, [47]⟩, .slash, rfl⟩,
      literal ⟨.number, 1, 5, 1, [50]⟩ 2 rfl (by decide +kernel)),
     (⟨⟨.star, 1, 7, 1, [42]⟩, .star, rfl⟩,
      literal ⟨.number, 1, 9, 1, [52]⟩ 4 rfl (by decide +kernel))]⟩

theorem numbersOf_eightHalvesTimesFour :
    numbersOf eightHalvesTimesFour = ⟨8, [(.slash, 2), (.star, 4)]⟩ := by
  unfold numbersOf eightHalvesTimesFour Chain.map
  simp only [List.map_cons, List.map_nil, Prod.map, literal_number]

/-- `8 / 2 * 4` is computed as `8 / (2 * 4)`. -/
theorem not_forall_conventional :
    ¬∀ (forms : OtherForms) (source : ArithmeticSource), source.Meets forms := by
  intro h
  let forms : OtherForms := ⟨fun _ => throw .exit, fun _ => throw .exit, fun _ _ => throw .exit,
    fun _ => throw .exit⟩
  let source : ArithmeticSource :=
    { before := []
      chain := eightHalvesTimesFour
      after := []
      after_ends := fun _ h => absurd h (Option.not_mem_none _)
      divisors_ne_zero := by
        rw [numbersOf_eightHalvesTimesFour]
        unfold ArithmeticChain.DivisorsNonzero
        norm_num }
  have hunbent : source.Unbent := (source.meets_iff forms |>.mp (h forms source)).2
  unfold Unbent at hunbent
  rw [show numbersOf source.chain = _ from numbersOf_eightHalvesTimesFour] at hunbent
  have hwrong : (8 : ℚ) / 2 / 4 = 8 / 2 * 4 := hunbent
  norm_num at hwrong

end ArithmeticSource

end Chloride
