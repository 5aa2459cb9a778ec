import Chloride.Runtime.ArithmeticChains
import Chloride.Runtime.OperatorExpressions

/-!
# The code of arithmetic

`ArithmeticTree.evaluate` says what numbers with signs between them come to, by the handlers of the operators alone.
Here it is what the machine computes: a module of such an expression, translated and run, ends with the number that
`evaluate` gives, if the answers in the run are those that number objects give. `arithmetic_computes` says so for the
exact value of a tree, and `source_computes` for a source of literals, through the parser, the translator and the
machine.
-/

namespace Chloride

/-! ## Answers of number objects -/

/-- The instruction of a sign. -/
def signOpcode : ArithmeticSign → BinaryOp
  | .plus => .addition
  | .minus => .subtraction
  | .star => .multiplication
  | .slash => .division

theorem signOperation_opcode (sign : ArithmeticSign) : (signOperation sign).opcode = some (signOpcode sign) := by
  cases sign <;> rfl

/-- An answer to what a computation gives: its number, or an error where it raises one. Nothing is said where it
overflows. -/
def Answers (result : Option (Except ArErr Number)) (answer : Except Value Value) : Prop :=
  (∀ c, result = some (.ok c) → answer = .ok (.number c)) ∧
    ∀ e, result = some (.error e) → ∃ v, answer = .error v

/-- Number objects answer what the handlers compute. -/
structure NumbersAnswer (oracle : Question → Except Value Value) : Prop where
  literal : ∀ n, oracle (.literal n) = .ok (.number n)
  binary : ∀ sign a b, Answers (signHandler sign a b).run (oracle (.binary (signOpcode sign) (.number a) (.number b)))

theorem Answers.pure (c : Number) : Answers (pure c : ExceptT ArErr Option Number).run (.ok (.number c)) := by
  refine ⟨fun c' h => ?_, fun e h => ?_⟩
  · cases h
    rfl
  · cases h

/-- The answers to one computation behind another. -/
theorem Answers.bind {x : ExceptT ArErr Option Number} {f : Number → ExceptT ArErr Option Number}
    {answer : Except Value Value} {g : Value → Except Value Value} (h : Answers x.run answer)
    (hf : ∀ a, Answers (f a).run (g (.number a))) : Answers (x >>= f).run (answer.bind g) := by
  rw [ExceptT.run_bind]
  cases hx : x.run with
  | none => exact ⟨nofun, nofun⟩
  | some result =>
    cases result with
    | ok a =>
      rw [h.1 a hx]
      exact hf a
    | error e =>
      -- an error ends both, so nothing is said of a number
      obtain ⟨v, hv⟩ := h.2 e hx
      rw [hv]
      refine ⟨fun c hc => ?_, fun _ _ => ⟨v, rfl⟩⟩
      cases hc

variable {siphash : List UInt8 → UInt64} {oracle : Question → Except Value Value}

theorem NumbersAnswer.number (h : NumbersAnswer oracle) (q : Mpq) :
    (numberDialogue q).run oracle = .ok (.number (newNumberObject q)) := by
  unfold numberDialogue
  split
  · rfl
  · show Dialogue.run oracle (.ask (.literal (newNumberObject q)) _) = _
    unfold Dialogue.run
    rw [h.literal]
    rfl

/-! ## The dialogue of a tree -/

mutual

/-- With number objects the dialogue of a tree has the value that is computed for it. -/
theorem NumbersAnswer.evaluate (h : NumbersAnswer oracle) : ∀ (tree : ArithmeticTree) (e : OperatorExpression),
    e.value = tree.value → Answers tree.evaluate.run ((e.dialogue siphash).run oracle)
  | .number n, .number q canonical, hvalue => by
    rw [OperatorExpression.value, ArithmeticTree.value, ParsedValue.number.injEq] at hvalue
    subst hvalue
    rw [OperatorExpression.dialogue, h.number, ArithmeticTree.evaluate]
    exact .pure _
  | .operation loc sign first rest, .operation loc' token first' rest', hvalue => by
    rw [OperatorExpression.value, ArithmeticTree.value, ParsedValue.operation.injEq] at hvalue
    obtain ⟨-, rfl, hfirst, hrest⟩ := hvalue
    rw [OperatorExpression.dialogue, operationDialogue, signOperation_opcode, ArithmeticTree.evaluate]
    dsimp only
    rw [Dialogue.run_bind]
    -- the fold asks for each operand and then for the operator, as `evaluateRest` computes them
    exact (h.evaluate first first' hfirst).bind fun a => h.evaluateRest sign rest rest' hrest a

/-- The operands behind the first. -/
theorem NumbersAnswer.evaluateRest (h : NumbersAnswer oracle) (sign : ArithmeticSign) :
    ∀ (trees : List ArithmeticTree) (es : List OperatorExpression),
      OperatorExpression.values es = ArithmeticTree.values trees → ∀ a,
        Answers (ArithmeticTree.evaluateRest sign a trees).run
          ((foldDialogue (signOpcode sign) (.number a) (OperatorExpression.dialogues siphash es)).run oracle)
  | [], [], _, a => by
    rw [OperatorExpression.dialogues, foldDialogue, ArithmeticTree.evaluateRest]
    exact .pure a
  | tree :: trees, e :: es, hvalues, a => by
    rw [OperatorExpression.values, ArithmeticTree.values] at hvalues
    obtain ⟨hvalue, hvalues⟩ := List.cons.inj hvalues
    rw [OperatorExpression.dialogues, foldDialogue, ArithmeticTree.evaluateRest, Dialogue.run_bind]
    refine (h.evaluate tree e hvalue).bind fun b => ?_
    rw [Dialogue.run_bind, Dialogue.run_question]
    exact (h.binary sign a b).bind fun c => h.evaluateRest sign trees es hvalues c

end

/-! ## Exact values -/

namespace ArithmeticTree

mutual

/-- The rational number that a tree is. -/
def toRat : ArithmeticTree → ℚ
  | .number n => n.toRat
  | .operation _ sign first rest => (toRats rest).foldl sign.apply first.toRat

def toRats : List ArithmeticTree → List ℚ
  | [] => []
  | tree :: trees => tree.toRat :: toRats trees

end

mutual

/-- No step of what is computed for a tree overflows or divides by zero. -/
def Allowed : ArithmeticTree → Prop
  | .number _ => True
  | .operation _ sign first rest =>
    first.Allowed ∧ AllAllowed rest ∧ Chain.FoldSteps sign.apply (SignAllowed sign) first.toRat (toRats rest)

def AllAllowed : List ArithmeticTree → Prop
  | [] => True
  | tree :: trees => tree.Allowed ∧ AllAllowed trees

end

mutual

/-- What is computed for a tree of numbers in lowest terms is its exact value. -/
theorem evaluate_computes : ∀ tree : ArithmeticTree, tree.Lowest → Computes tree.evaluate tree.Allowed tree.toRat
  | .number n, hlowest => by
    -- in lowest terms there is one fraction for each number
    have heq : newNumberObject n = numberOf n.toRat :=
      NumberObject.eq_numberOf (c := ⟨_, newNumberObject_normal hlowest⟩) (newNumberObject_toRat n)
    rw [evaluate, Allowed, toRat, heq]
    exact Computes.pure n.toRat
  | .operation loc sign first rest, hlowest => by
    rw [Lowest] at hlowest
    rw [evaluate, Allowed, toRat]
    exact (evaluate_computes first hlowest.1).bind (f := fun a => evaluateRest sign a rest)
      (fold_computes sign rest hlowest.2 first.toRat)

/-- The operands behind the first are folded from the left. -/
theorem fold_computes (sign : ArithmeticSign) : ∀ trees : List ArithmeticTree, AllLowest trees → ∀ a : ℚ,
    Computes (evaluateRest sign (numberOf a) trees)
      (AllAllowed trees ∧ Chain.FoldSteps sign.apply (SignAllowed sign) a (toRats trees))
      ((toRats trees).foldl sign.apply a)
  | [], _, a => by
    rw [evaluateRest, AllAllowed, toRats]
    exact (Computes.pure a).congr (by simp [Chain.FoldSteps])
  | tree :: trees, hlowest, a => by
    rw [AllLowest] at hlowest
    have hstep := (signHandler_computes sign a tree.toRat).bind (f := fun c => evaluateRest sign c trees)
      (fold_computes sign trees hlowest.2 _)
    have hall := (evaluate_computes tree hlowest.1).bind
      (f := fun b => signHandler sign (numberOf a) b >>= fun c => evaluateRest sign c trees) hstep
    rw [evaluateRest, AllAllowed, toRats, Chain.FoldSteps]
    exact hall.congr (by tauto)

end

mutual

/-- A tree of numbers in lowest terms is an expression of operators. -/
theorem exists_expression : ∀ tree : ArithmeticTree, tree.Lowest → ∃ e : OperatorExpression, e.value = tree.value
  | .number n, hlowest => ⟨.number n hlowest, rfl⟩
  | .operation loc sign first rest, hlowest => by
    rw [Lowest] at hlowest
    obtain ⟨e, he⟩ := exists_expression first hlowest.1
    obtain ⟨es, hes⟩ := exists_expressions rest hlowest.2
    refine ⟨.operation loc (signOperation sign) e es, ?_⟩
    rw [OperatorExpression.value, value, he, hes]

theorem exists_expressions : ∀ trees : List ArithmeticTree, AllLowest trees →
    ∃ es : List OperatorExpression, OperatorExpression.values es = values trees
  | [], _ => ⟨[], rfl⟩
  | tree :: trees, hlowest => by
    rw [AllLowest] at hlowest
    obtain ⟨e, he⟩ := exists_expression tree hlowest.1
    obtain ⟨es, hes⟩ := exists_expressions trees hlowest.2
    refine ⟨e :: es, ?_⟩
    rw [OperatorExpression.values, values, he, hes]

end

end ArithmeticTree

/-! ## The machine -/

/-- A module that is one expression of numbers with signs between them, in a machine that starts with it. If the answers
in the run are those of number objects, the module ends with the number that is computed for the expression, or with an
error where that is one. -/
theorem ArithmeticTree.shows {tree : ArithmeticTree} (hlowest : tree.Lowest) {t : Translated}
    (htranslate : translateAll siphash [tree.value] initTranslator = some ((), t)) (hbounded : t.Bounded)
    {module : Module} (hmodule : module.Of t) {modules : List Module} {n : ℕ} (hn : modules[n]? = some module)
    (globals : List (UInt64 × Value)) :
    ∃ m, step (Machine.start modules globals) (.runModule n) = some m ∧
      Runs.Until (Evaluation.step 1)
        (fun s => s.reached.ip < t.bytecode.length ∧
          (s.machine.invocations.length = 1 → ∀ a, ∃ s', s.step 1 (.exec a) = some s'))
        (fun s => ∀ oracle, NumbersAnswer oracle → (∀ exchange ∈ s.exchanges, oracle exchange.1 = exchange.2) →
          (∀ c, tree.evaluate.run = some (.ok c) → s.Shows t.bytecode.length (.ok (.number c))) ∧
          ∀ err, tree.evaluate.run = some (.error err) → ∃ v, s.Shows t.bytecode.length (.error v))
        ⟨m, module.frame (Machine.start modules globals).heap, [], 0⟩ := by
  obtain ⟨e, hvalue⟩ := tree.exists_expression hlowest
  have hall : translateAll siphash (OperatorExpression.values [e]) initTranslator = some ((), t) := by
    rw [OperatorExpression.values, OperatorExpression.values, hvalue]
    exact htranslate
  obtain ⟨m, hstart, hshows⟩ := hmodule.shows hall hbounded hn globals
  refine ⟨m, hstart, hshows.mono (fun _ h => h.2) ?_⟩
  rintro s ⟨-, outcome, hends, houtcome⟩ oracle hnumbers horacle
  -- a module of one expression is that expression
  have hrun : (e.dialogue siphash).run oracle = outcome := by
    have h := hends.run horacle
    rw [OperatorExpression.dialogues, OperatorExpression.dialogues, moduleDialogue] at h
    rwa [show (moduleDialogue · []) = Pure.pure from rfl, Dialogue.bind_pure] at h
  have hanswers := @NumbersAnswer.evaluate siphash oracle hnumbers tree e hvalue
  rw [hrun] at hanswers
  refine ⟨fun c hc => hanswers.1 c hc ▸ houtcome, fun err herr => ?_⟩
  obtain ⟨v, hv⟩ := hanswers.2 err herr
  exact ⟨v, hv ▸ houtcome⟩

/-- A source of number literals with signs between them is parsed to a tree. Where that is translated and run, with the
answers of number objects, the module ends with the conventional value of what is bent, if no divisor is zero where the
literals are grouped and nothing overflows there. -/
theorem source_computes (siphash : List UInt8 → UInt64) (forms : OtherForms) (source : ArithmeticSource) :
    ∃ tree : ArithmeticTree,
      (∀ inlineFlag, Parses forms (source.tokens forms) inlineFlag source.before.length tree.value
        (source.finish forms)) ∧
      ∀ t, translateAll siphash [tree.value] initTranslator = some ((), t) → t.Bounded →
        ∀ module : Module, module.Of t → ∀ (modules : List Module) (n : ℕ), modules[n]? = some module →
          ∀ globals : List (UInt64 × Value),
          ∃ m, step (Machine.start modules globals) (.runModule n) = some m ∧
            Runs.Until (Evaluation.step 1)
              (fun s => s.reached.ip < t.bytecode.length ∧
                (s.machine.invocations.length = 1 → ∀ a, ∃ s', s.step 1 (.exec a) = some s'))
              (fun s => ∀ oracle, NumbersAnswer oracle →
                (∀ exchange ∈ s.exchanges, oracle exchange.1 = exchange.2) → source.StepsAllowed →
                  s.Shows t.bytecode.length
                    (.ok (.number (numberOf (ArithmeticChain.conventional
                      (ArithmeticChain.bent (numbersOf source.chain)))))))
              ⟨m, module.frame (Machine.start modules globals).heap, [], 0⟩ := by
  obtain ⟨tree, hparses, hlowest, hcomputes⟩ := source.exists_tree forms
  refine ⟨tree, hparses, fun t htranslate hbounded module hmodule modules n hn globals => ?_⟩
  obtain ⟨m, hstart, hshows⟩ := ArithmeticTree.shows hlowest htranslate hbounded hmodule hn globals
  refine ⟨m, hstart, hshows.mono (fun _ h => h) fun s hs oracle hnumbers horacle hallowed => ?_⟩
  exact (hs oracle hnumbers horacle).1 _ ((hcomputes _).mpr ⟨hallowed, rfl⟩)

end Chloride
