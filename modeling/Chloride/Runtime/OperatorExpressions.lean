import Chloride.Runtime.OperandCode

/-!
# Expressions of operators

The expressions that are made of literals, names, operators, choices and assignments to names, to any depth. `dialogue`
is what such an expression means: what it asks for and in which order, and its value. `OperatorExpression.converses`
says that the code of its translation, in whatever code it stands, asks exactly that, and that a frame that runs it
comes to the end of the code with the value in register 0 or to the error of an answer. `translateAll_converses` says it
of a module of such expressions that a machine starts with.
-/

namespace Chloride

/-- An expression of operators. -/
inductive OperatorExpression where
  | null
  | boolean (value : Bool)
  | string (string : List UInt8)
  | number (number : Mpq) (canonical : number.Canonical)
  | identifier (identifier : ParsedIdentifier)
  | negation (value : OperatorExpression)
  | toBool (invert : Bool) (value : OperatorExpression)
  | conditional (condition trueBody falseBody : OperatorExpression)
  | assign (loc : SourceLocation) (identifier : ParsedIdentifier) (type : AssignToken) (value : OperatorExpression)
  | operation (loc : SourceLocation) (operation : OperationToken) (first : OperatorExpression)
      (rest : List OperatorExpression)

namespace OperatorExpression

mutual

/-- The parsed value that it is. -/
def value : OperatorExpression → ParsedValue
  | .null => .null
  | .boolean b => .boolean b
  | .string data => .string data
  | .number q _ => .number q
  | .identifier name => .identifier name
  | .negation e => .negation e.value
  | .toBool invert e => .toBool invert e.value
  | .conditional condition trueBody falseBody => .conditional condition.value trueBody.value falseBody.value
  | .assign loc name type e => .assign loc (.identifier name) type e.value
  | .operation loc token first rest => .operation loc token first.value (values rest)

def values : List OperatorExpression → List ParsedValue
  | [] => []
  | e :: es => e.value :: values es

end

variable (siphash : List UInt8 → UInt64)

mutual

/-- What it asks for, and its value. A name is asked for by its hash. -/
def dialogue : OperatorExpression → Dialogue Question Value Value Value
  | .null => pure .null
  | .boolean b => pure (.bool b)
  | .string data => pure (.string data)
  | .number q _ => numberDialogue q
  | .identifier name => .question (.lookup (siphash name.name))
  | .negation e => negationDialogue e.dialogue
  | .toBool invert e => toBoolDialogue invert e.dialogue
  | .conditional condition trueBody falseBody =>
    conditionalDialogue condition.dialogue trueBody.dialogue falseBody.dialogue
  | .assign _ name type e => assignDialogue (siphash name.name) type.opcode e.dialogue
  | .operation _ token first rest => operationDialogue token first.dialogue (dialogues rest)

def dialogues : List OperatorExpression → List (Dialogue Question Value Value Value)
  | [] => []
  | e :: es => e.dialogue :: dialogues es

end

variable {siphash}

mutual

/-- The translator appends the code of its dialogue. -/
theorem compiles : ∀ e : OperatorExpression, Compiles (translateParsed siphash e.value) (e.dialogue siphash)
  | .null => translateNull_compiles
  | .boolean b => translateBoolean_compiles b
  | .string data => translateParsedString_compiles data
  | .number _ canonical => translateParsedNumber_compiles canonical
  | .identifier name => translateParsedIdentifier_compiles name
  | .negation e => translateNegation_compiles e.compiles
  | .toBool invert e => translateToBool_compiles invert e.compiles
  | .conditional condition trueBody falseBody =>
    translateConditional_compiles condition.compiles trueBody.compiles falseBody.compiles
  | .assign loc name type e => translateParsedAssignment_compiles loc name type e.compiles
  | .operation loc token first rest => by
    have hvalue : translateParsed siphash (OperatorExpression.operation loc token first rest).value =
        translateOperation loc token (translateParsed siphash first.value)
          ((values rest).map (translateParsed siphash)) := by
      rw [value]
      unfold translateParsed
      rw [ParsedValue.fold, foldList_eq]
      rfl
    rw [hvalue, dialogue]
    exact translateOperation_compiles loc token first.compiles (compiles_all rest)

theorem compiles_all : ∀ es : List OperatorExpression,
    List.Forall₂ Compiles ((values es).map (translateParsed siphash)) (dialogues siphash es)
  | [] => .nil
  | e :: es => .cons e.compiles (compiles_all es)

end

end OperatorExpression

variable {siphash : List UInt8 → UInt64}

/-! ## Modules -/

/-- The expressions of a module one after the other; the value is that of the last one. -/
def moduleDialogue : Value → List (Dialogue Question Value Value Value) → Dialogue Question Value Value Value
  | v, [] => pure v
  | _, d :: ds => do
    let v ← d
    moduleDialogue v ds

theorem initTranslator_ready : initTranslator.Ready where
  placed _ _ h := by cases h
  register := Nat.one_pos

/-- The loop of `translate`. -/
theorem translate_spec {ms : List (Translate ℕ)} {ds : List (Dialogue Question Value Value Value)}
    (hms : List.Forall₂ Compiles ms ds) {t t' : Translated} {u : Unit} (h : translate ms t = some (u, t'))
    (herr : t.err = none) :
    Onwards t t' ∧ (t'.registersWrapped = false → t.registerAssignment.toNat ≤ t'.registerAssignment.toNat) ∧
      ∃ code, t'.bytecode = t.bytecode ++ code ∧ (t'.Bounded → t.Ready → ∀ c s f v, s.At c f → f.Fits t' →
        f.CodeAt code → f.ip = t.bytecode.length → f.read 0 = some v →
          Converses c t.registerAssignment.toNat t'.bytecode.length (moduleDialogue v ds) s f) := by
  induction hms generalizing t with
  | nil =>
    obtain ⟨-, rfl⟩ := Translate.pure_some.mp h
    exact ⟨.refl t, fun _ => le_rfl, [], (List.append_nil _).symm, fun _ _ c s f v hat _ _ hip hv => .done hat hip hv⟩
  | @cons m d ms ds hm hms ih =>
    unfold translate at h
    obtain ⟨n, t₁, hvalue, h⟩ := Translate.bind_some.mp h
    obtain ⟨-, honwards₁, hassigned₁, code₁, hcode₁, hruns₁⟩ := hm _ _ _ hvalue herr
    have h := isError_goesOn h (honwards₁.err.trans herr)
    rw [if_neg (by decide)] at h
    obtain ⟨honwards, hassigned, code, hcode, hruns⟩ := ih h (honwards₁.err.trans herr)
    rw [hcode₁, List.append_assoc] at hcode
    have hle : t'.registersWrapped = false → t.registerAssignment.toNat ≤ t₁.registerAssignment.toNat :=
      hassigned₁ ∘ honwards.wrapped
    refine ⟨honwards₁.trans honwards, fun hwrapped => (hle hwrapped).trans (hassigned hwrapped), _, hcode, ?_⟩
    intro hbounded hready c s f v hat hfits hcodeAt hip hv
    have hl₁ := congrArg List.length hcode₁
    have hl := congrArg List.length hcode
    simp only [List.length_append] at hl₁ hl
    refine (hruns₁ (hbounded.mono honwards (by omega)) hready c s f hat (hfits.mono honwards) hcodeAt.left hip).bind
      le_rfl (by omega) fun w u g hat hsince hip' hw => ?_
    exact (hruns hbounded (hready.mono honwards₁ (hle hbounded.registers)) c u g w hat (hfits.since hsince)
      (hsince.codeAt hcodeAt (by omega)) (by omega) hw).keeps (hle hbounded.registers)

/-- The place of a module's frame when a machine starts with the module. -/
def Module.framePlace (module : Module) (h : Heap) : FramePlace :=
  ⟨⟨[], none, (module.frame h).stack, .null, false⟩, [], []⟩

/-- What `translate` leaves as a module. -/
structure Module.Of (module : Module) (t : Translated) : Prop where
  registerCount : module.registerCount = t.registerCount.toNat
  bytecode : module.bytecode = t.bytecode
  constants : module.constants = t.constants.data

/-- The frame of a module fits its translation. -/
theorem Module.Of.fits {module : Module} {t : Translated} (hmodule : module.Of t) (h : Heap) : (module.frame h).Fits t := by
  refine ⟨hmodule.constants ▸ List.prefix_rfl, ?_, List.cons_ne_nil _ _⟩
  show _ ≤ (List.replicate module.registerCount Value.null).length
  rw [List.length_replicate, hmodule.registerCount]

/-- A module of expressions in a machine that starts with it. -/
theorem translateAll_converses {es : List OperatorExpression} {t : Translated}
    (htranslate : translateAll siphash (OperatorExpression.values es) initTranslator = some ((), t))
    (hbounded : t.Bounded) {module : Module} (hmodule : module.Of t) {m : Machine} {h : Heap}
    (hm : m.invocations = (module.framePlace h).around (module.frame h) none) :
    Converses (module.framePlace h) 1 t.bytecode.length (moduleDialogue .null (OperatorExpression.dialogues siphash es))
      ⟨m, module.frame h, [], 0⟩ (module.frame h) := by
  obtain ⟨honwards, -, code, hcode, hruns⟩ := translate_spec (OperatorExpression.compiles_all es) htranslate rfl
  have hregisters : 0 < t.registerCount.toNat := hmodule.registerCount ▸ module.registerCount_pos
  have hcodeAt : (module.frame h).CodeAt code := by
    refine ⟨[], ?_⟩
    rw [List.append_nil]
    exact (hmodule.bytecode.trans hcode).symm
  have hv : (module.frame h).read 0 = some .null := by
    refine List.getElem?_replicate_of_lt ?_
    rw [hmodule.registerCount]
    exact hregisters
  exact hruns hbounded initTranslator_ready _ _ _ .null ⟨hm, rfl⟩ (hmodule.fits h) hcodeAt rfl hv

/-! ## Results -/

/-- The frame that runs has a value in register 0 at the end of its code, or an error was raised. -/
def Evaluation.Shows (s : Evaluation) (stop : ℕ) : Except Value Value → Prop
  | .ok v => s.machine.top = some (s.reached, none) ∧ s.reached.ip = stop ∧ s.reached.read 0 = some v
  | .error e => s.machine.top = some (s.reached, some e)

/-- A machine that starts with a module of expressions comes to the end of the module with the value of the dialogue, or
to its error. -/
theorem Module.Of.shows {es : List OperatorExpression} {t : Translated}
    (htranslate : translateAll siphash (OperatorExpression.values es) initTranslator = some ((), t))
    (hbounded : t.Bounded) {module : Module} (hmodule : module.Of t) {modules : List Module} {n : ℕ}
    (hn : modules[n]? = some module) (globals : List (UInt64 × Value)) :
    ∃ m, step (Machine.start modules globals) (.runModule n) = some m ∧
      Runs.Until (Evaluation.step 1)
        (fun s => s.executed ≤ s.reached.ip ∧ s.reached.ip < t.bytecode.length ∧
          (s.machine.invocations.length = 1 → ∀ a, ∃ s', s.step 1 (.exec a) = some s'))
        (fun s => s.executed ≤ t.bytecode.length ∧ ∃ outcome,
          (moduleDialogue .null (OperatorExpression.dialogues siphash es)).Ends s.exchanges outcome ∧
            s.Shows t.bytecode.length outcome)
        ⟨m, module.frame (Machine.start modules globals).heap, [], 0⟩ := by
  -- the call of the module has its frame at the start of the bytecode
  have hstart : step (Machine.start modules globals) (.runModule n) =
      some ⟨modules, (Machine.start modules globals).heap.enterModule,
        (module.framePlace (Machine.start modules globals).heap).around
          (module.frame (Machine.start modules globals).heap) none⟩ := by
    show (modules[n]?.bind _) = _
    rw [hn]
    rfl
  refine ⟨_, hstart, (translateAll_converses htranslate hbounded hmodule rfl).mono ?_ ?_⟩
  · intro s hs
    have hexecuted : s.executed + 0 ≤ 0 + s.reached.ip := hs.executed
    exact ⟨by omega, hs.before, hs.goes⟩
  · rintro s ⟨l, outcome, hends, hs⟩
    have hexecuted : s.executed + 0 ≤ 0 + s.reached.ip := hs.executed
    have hexchanges : s.exchanges = l := hs.exchanges
    have houtcome := hs.outcome
    have htop : ∀ {err}, s.machine.invocations =
        (module.framePlace (Machine.start modules globals).heap).around s.reached err →
          s.machine.top = some (s.reached, err) := by
      intro err hinvs
      unfold Machine.top
      rw [hinvs]
      rfl
    rw [hexchanges]
    cases outcome with
    | ok v =>
      obtain ⟨hinvs, hip, hv⟩ := houtcome
      exact ⟨by omega, _, hends, htop hinvs, hip, hv⟩
    | error e =>
      obtain ⟨hinvs, hip⟩ := houtcome
      exact ⟨by omega, _, hends, htop hinvs⟩

end Chloride
