import Chloride.Translator.ParsedValue
import Chloride.Translator.Translated

/-!
# The translator

The functions of `src/translator`, one definition each, in the order of the statements of the source.
What a function does with the parts of its tree is an action it is given; `translator` lists the
functions for the cases of the `switch` of `translate_parsed`, and `translateParsed` is the recursion.

Each function answers the offset where its code starts, and where the source does not look at the
error after a part, neither does the definition.
-/

namespace Chloride

variable (siphash : List UInt8 → UInt64)

/-! ## Constants and names -/

/-- `translate_parsed_string`. -/
def translateParsedString (string : List UInt8) : Translate ℕ := do
  let stringPos ← arenaPush siphash string
  setRegisters 1
  push (.loadString 0 (u64 string.length) (u64 stringPos) (siphash string))

/-- `translate_parsed_number`. -/
def translateParsedNumber (number : Mpq) (toRegister : UInt8) : Translate ℕ := do
  setRegisters (toRegister + 1)
  match mpqToInt64 number with
  | some i64 => push (.loadNumber toRegister (.int64 i64.toUInt64))
  | none =>
    let numData := mpzExport number.num
    let isNegative : Bool := number.num < 0
    let numeratorPos ← arenaPush siphash numData
    if number.den = 1 then
      push (.loadNumber toRegister (.int (u64 numData.length) (u64 numeratorPos) isNegative))
    else
      let denData := mpzExport number.den
      let denominatorPos ← arenaPush siphash denData
      push (.loadNumber toRegister (.rational (u64 numData.length) (u64 numeratorPos) isNegative
        (u64 denData.length) (u64 denominatorPos)))

/-- `translate_parsed_identifier`. -/
def translateParsedIdentifier (identifier : ParsedIdentifier) : Translate ℕ := do
  let length := u64 identifier.name.length
  let identifierPos ← arenaPush siphash identifier.name
  setRegisters 1
  let start ← push (.sourceLocation identifier.line identifier.column length)
  let _ ← push (.identifier length (u64 identifierPos) (siphash identifier.name))
  return start

/-- The case `AST_NULL`. -/
def translateNull : Translate ℕ := do
  setRegisters 1
  push (.loadNull 0)

/-- The case `AST_BOOLEAN`. -/
def translateBoolean (value : Bool) : Translate ℕ := do
  setRegisters 1
  push (.loadBool value)

/-- The operands of `OP_SOURCE_LOCATION`. -/
def pushSourceLocation (loc : SourceLocation) : Translate ℕ :=
  push (.sourceLocation loc.line loc.column loc.length)

/-! ## Operators -/

/-- The opcode of an operation that is not short-circuit. -/
def OperationToken.opcode : OperationToken → Option BinaryOp
  | and | or => none
  | plus => some .addition
  | minus => some .subtraction
  | star => some .multiplication
  | caret => some .exponentiation
  | slash => some .division
  | floordiv => some .floorDivision
  | modulo => some .modulo
  | eq => some .equal
  | ne => some .notEqual
  | lt => some .lessThan
  | gt => some .greaterThan
  | le => some .lessThanEqual
  | ge => some .greaterThanEqual
  | notIn => some .notIn
  | isIn => some .opIn

/-- The loop of `translateShortCircuit`: the offset of the first operand, and the places of the jumps
unless there was an error. -/
def translateShortCircuitOperands (isOr : Bool) (registerA : UInt8) :
    ℕ → ℕ → List (Translate ℕ) → Translate (ℕ × Option (List ℕ))
  | _, first, [] => return (first, some [])
  | i, first, operand :: rest => do
    let position ← operand
    let first := if i = 0 then position else first
    if ← isError then return (first, none)
    let _ ← push (.copyToRegister 0 registerA)
    let _ ← push (.op .bool)
    if isOr then let _ ← push (.op .not)
    let jump := (← push (.jumpIfFalse 0 0)) + 2
    let (first, jumpToIfFalse) ← translateShortCircuitOperands isOr registerA (i + 1) first rest
    return (first, jumpToIfFalse.map fun jumps => jump :: jumps)

/-- The first half of `translate_operation`: `&&` and `||`. The register it takes is not given
back. -/
def translateShortCircuit (isOr : Bool) (toOperateOn : List (Translate ℕ)) : Translate ℕ := do
  let registerA ← newRegister
  setAssignedRegisters
  let (first, jumpToIfFalse) ← translateShortCircuitOperands isOr registerA 0 0 toOperateOn
  match jumpToIfFalse with
  | none => return first
  | some jumpToIfFalse =>
    setInstructionCodes (← bytecodeSize) jumpToIfFalse
    let _ ← push (.copyToRegister registerA 0)
    let _ ← push (.loadNull registerA)
    return first

/-- The second half of `translate_operation`: the operands are folded from the left. -/
def translateBinary (loc : SourceLocation) (operation : OperationToken) (operand : Translate ℕ)
    (rest : List (Translate ℕ)) : Translate ℕ := do
  let registerA ← newRegister
  let registerB ← newRegister
  setAssignedRegisters
  let first ← operand
  if ← isError then return first
  let _ ← push (.copyToRegister 0 registerA)
  let done ← forEach (fun i operand => do
    let _ ← operand
    if ← isError then return false
    let _ ← push (.copyToRegister 0 registerB)
    let _ ← pushSourceLocation loc
    match operation.opcode with
    | none =>
      raise loc "unknown operation"
      return false
    | some opcode =>
      let _ ← push (.binary opcode registerA registerB
        (if rest.length = i then 0 else registerA))
      return true) 1 rest
  if !done then return first
  let _ ← push (.loadNull registerA)
  let _ ← push (.loadNull registerB)
  freeRegisters 2
  return first

/-- `translate_operation`. -/
def translateOperation (loc : SourceLocation) (operation : OperationToken) (first : Translate ℕ)
    (rest : List (Translate ℕ)) : Translate ℕ :=
  match operation with
  | .and => translateShortCircuit false (first :: rest)
  | .or => translateShortCircuit true (first :: rest)
  | operation => translateBinary loc operation first rest

/-- The case `AST_NEGATION`. -/
def translateNegation (value : Translate ℕ) : Translate ℕ := do
  setRegisters 1
  let output ← value
  let _ ← push (.op .negation)
  return output

/-- The case `AST_TO_BOOL`. -/
def translateToBool (invert : Bool) (value : Translate ℕ) : Translate ℕ := do
  let first ← value
  let _ ← push (.op .bool)
  if invert then let _ ← push (.op .not)
  return first

/-- The case `AST_CONDITIONAL_EXCEPTION`. -/
def translateConditional (condition trueBody falseBody : Translate ℕ) : Translate ℕ := do
  let first ← condition
  let _ ← push (.op .bool)
  let jumpIndex := (← push (.jumpIfFalse 0 0)) + 2
  let _ ← trueBody
  let skipIndex := (← push (.jump 0)) + 1
  setInstructionCode jumpIndex (← falseBody)
  setInstructionCode skipIndex (← bytecodeSize)
  return first

/-! ## Functions and calls -/

/-- `translate_parsed_function`. The body is translated in a buffer of its own; `continue_jump` stays
as it is. -/
def translateParsedFunction (header : FunctionHeader)
    (defaults : Option (List (Name × Translate ℕ))) (body : Translate ℕ) : Translate ℕ := do
  let main ← get
  modify fun t => { t with
    returnJump := ⟨.null, 0, 0⟩
    breakJump := ⟨.null, 0, 0⟩
    scopeDepth := 0
    exceptionHandlerDepth := 0
    registerAssignment := 1
    bytecode := [] }
  setRegisters 1
  let _ ← body
  let bytecode := (← get).bytecode
  let functionBytecodeOffset ← arenaPush siphash bytecode
  modify fun t => { t with
    bytecode := main.bytecode
    registerAssignment := main.registerAssignment
    returnJump := main.returnJump
    breakJump := main.breakJump
    scopeDepth := main.scopeDepth
    exceptionHandlerDepth := main.exceptionHandlerDepth }
  let start ← bytecodeSize
  let offset ← arenaPush siphash header.name
  let _ ← push (.loadFunction (u64 offset) (u64 header.name.length) (u64 functionBytecodeOffset)
    (u64 bytecode.length) (u64 header.parameters.length)
    (u64 ((defaults.map List.length).getD 0)))
  let _ ← forEach (fun i name => do
    let offset ← arenaPush siphash name
    let _ ← push (.setFunctionParameter (u64 i) (u64 offset) (u64 name.length) (siphash name))
    return true) 0 header.parameters
  if let some name := header.vParameter then
    let offset ← arenaPush siphash name
    let _ ← push (.setFunctionPositionalParameter (u64 offset) (u64 name.length) (siphash name))
  if let some name := header.kwParameter then
    let offset ← arenaPush siphash name
    let _ ← push (.setFunctionKeyWordParameter (u64 offset) (u64 name.length) (siphash name))
  if let some defaults := defaults then
    let funcRegister ← newRegister
    setAssignedRegisters
    let _ ← push (.copyToRegister 0 funcRegister)
    let _ ← forEach (fun i parameter => do
      let _ ← parameter.2
      let offset ← arenaPush siphash parameter.1
      let _ ← push (.setFunctionDefaultParameter funcRegister (u64 i) (u64 offset)
        (u64 parameter.1.length) (siphash parameter.1))
      return true) 0 defaults
    let _ ← push (.copyToRegister funcRegister 0)
    freeRegisters 1
  return start

/-- `translated->break_jump.positions = NULL; translated->return_jump.positions = NULL`. -/
def clearJumps : Translate Unit :=
  modify fun t => { t with
    breakJump := { t.breakJump with positions := .null }
    returnJump := { t.returnJump with positions := .null } }

/-- Set `return_jump` and `break_jump` back. -/
def restoreJumps (old : Translated) : Translate Unit :=
  modify fun t => { t with returnJump := old.returnJump, breakJump := old.breakJump }

/-- `translate_parsed_call`. -/
def translateParsedCall (line column : UInt64) (toCall : Translate ℕ) (args : List (Translate ℕ))
    (vArg : Option (Translate ℕ)) (kwargs : List (Name × Translate ℕ))
    (kwArg : Option (Translate ℕ)) : Translate ℕ := do
  setRegisters 1
  let first ← toCall
  if ← isError then return first
  let _ ← push (.initCall (u64 args.length))
  let _ ← push (.op .newScope)
  enterScope
  let old ← get
  clearJumps
  let done ← forEach (fun i arg => do
    let _ ← arg
    if ← isError then return false
    let _ ← push (.insertArg (u64 i))
    return true) 0 args
  if !done then
    modify fun t => { t with returnJump := old.returnJump }
    return first
  if let some vArg := vArg then
    let _ ← vArg
    let _ ← push (.op .unpackArgs)
  let done ← forEach (fun _ arg => do
    let _ ← arg.2
    if ← isError then return false
    let identifierPos ← arenaPush siphash arg.1
    setRegisters 1
    let _ ← push (.setKeyWordArg (u64 arg.1.length) (u64 identifierPos) (siphash arg.1))
    return true) 0 kwargs
  if !done then
    modify fun t => { t with returnJump := old.returnJump }
    return first
  if let some kwArg := kwArg then
    let _ ← kwArg
    let _ ← push (.op .unpackKeyWordArgs)
  restoreJumps old
  let _ ← push (.op .popScope)
  leaveScope
  let _ ← push (.sourceLocation line column 1)
  let _ ← push (.op .call)
  return first

/-- `translate_access`. -/
def translateAccess (loc : SourceLocation) (toAccess access : Translate ℕ) : Translate ℕ := do
  setRegisters 1
  let first ← toAccess
  if ← isError then return 0
  let _ ← push (.op .loadGetattributeMethod)
  let _ ← push (.initCall 1)
  let _ ← access
  if ← isError then return 0
  let _ ← push (.insertArg 0)
  let _ ← pushSourceLocation loc
  let _ ← push (.op .call)
  return first

/-- The loop over the subscripts of an item, in `translate_item_access`, `translate_parsed_delete`
and `translate_parsed_assignment`. -/
def translateSubscripts (subscripts : List (List (Option (Translate ℕ)))) : Translate Bool := do
  if subscripts.length ≠ 1 then
    let _ ← push (.op .loadCreateTuple)
    let _ ← push (.initCall (u64 subscripts.length))
  let done ← forEach (fun i subscript => do
    if subscript.length ≠ 1 then
      let _ ← push (.op .loadSliceClass)
      let _ ← push (.initCall (u64 subscript.length))
    let done ← forEach (fun j item => do
      match item with
      | some item =>
        let _ ← item
        if ← isError then return false
      | none =>
        let _ ← push (.loadNull 0)
      if subscript.length ≠ 1 then
        let _ ← push (.insertArg (u64 j))
      return true) 0 subscript
    if !done then return false
    if subscript.length ≠ 1 then
      let _ ← push (.op .call)
    if subscripts.length ≠ 1 then
      let _ ← push (.insertArg (u64 i))
    return true) 0 subscripts
  if !done then return false
  if subscripts.length ≠ 1 then
    let _ ← push (.op .call)
  let _ ← push (.insertArg 0)
  return true

/-- `translate_item_access`. -/
def translateItemAccess (loc : SourceLocation) (toAccess : Translate ℕ)
    (subscripts : List (List (Option (Translate ℕ)))) : Translate ℕ := do
  setRegisters 1
  let first ← toAccess
  if ← isError then return 0
  let _ ← push (.op .loadGetitemMethod)
  let _ ← push (.initCall 1)
  if !(← translateSubscripts subscripts) then return 0
  let _ ← pushSourceLocation loc
  let _ ← push (.op .call)
  return first

/-- `translate_parsed_delete`. -/
def translateParsedDelete (loc : SourceLocation) : AssignableOf (Translate ℕ) → Translate ℕ
  | .identifier identifier => do
    let length := u64 identifier.name.length
    let identifierPos ← arenaPush siphash identifier.name
    setRegisters 1
    let first ← push (.sourceLocation identifier.line identifier.column length)
    let _ ← push (.deleteIdentifier length (u64 identifierPos) (siphash identifier.name))
    return first
  | .access toAccess access => do
    let first ← toAccess
    if ← isError then return 0
    let _ ← pushSourceLocation loc
    let _ ← push (.op .loadDelattrMethod)
    let _ ← push (.initCall 1)
    let _ ← access
    if ← isError then return 0
    let _ ← push (.insertArg 0)
    let _ ← push (.op .call)
    return first
  | .itemAccess toAccess subscripts => do
    let first ← toAccess
    if ← isError then return 0
    let _ ← pushSourceLocation loc
    let _ ← push (.op .loadDelitemMethod)
    let _ ← push (.initCall 1)
    if !(← translateSubscripts subscripts) then return 0
    let _ ← push (.op .call)
    return first

/-- The case `AST_RANGE`. -/
def translateRange (loc : SourceLocation) (start stop : Translate ℕ) (inclusive : Bool) :
    Translate ℕ := do
  let first ← push (.op .loadRangeClass)
  let _ ← push (.initCall 2)
  let _ ← start
  if ← isError then return first
  let _ ← push (.insertArg 0)
  let _ ← stop
  if ← isError then return first
  let _ ← push (.insertArg 1)
  let _ ← pushSourceLocation loc
  let _ ← push (.op .call)
  if inclusive then let _ ← push (.op .makeRangeInclusive)
  return first

/-- The case `AST_ARRAY`. -/
def translateArray (items : List (Translate ℕ)) : Translate ℕ := do
  let first ← push (.op .loadCreateArray)
  let _ ← push (.initCall (u64 items.length))
  let done ← forEach (fun i item => do
    let _ ← item
    if ← isError then return false
    let _ ← push (.insertArg (u64 i))
    return true) 0 items
  if !done then return first
  let _ ← push (.op .call)
  return first

/-- The case `AST_DICTIONARY`. -/
def translateDictionary (entries : List (Translate ℕ × Translate ℕ)) : Translate ℕ := do
  let first ← push (.op .createDictionary)
  let dictionaryRegister ← newRegister
  let _ ← push (.copyToRegister 0 dictionaryRegister)
  let _ ← push (.op .loadSetitemMethod)
  let setitemRegister ← newRegister
  setAssignedRegisters
  let _ ← push (.copyToRegister 0 setitemRegister)
  let done ← forEach (fun i entry => do
    if i ≠ 0 then
      let _ ← push (.copyToRegister setitemRegister 0)
    let _ ← push (.initCall 2)
    let _ ← entry.1
    if ← isError then return false
    let _ ← push (.insertArg 0)
    let _ ← entry.2
    if ← isError then return false
    let _ ← push (.insertArg 1)
    let _ ← push (.op .call)
    return true) 0 entries
  if !done then return first
  let _ ← push (.copyToRegister dictionaryRegister 0)
  let _ ← push (.loadNull dictionaryRegister)
  let _ ← push (.loadNull setitemRegister)
  freeRegisters 2
  return first

/-- The templater of a template, `none` if there was an error. -/
def translateTemplater : Option (Translate ℕ) → Translate (Option ℕ)
  | some templater => do
    let first ← templater
    if ← isError then return none
    let _ ← push (.op .loadTemplateMethod)
    return some first
  | none => do return some (← push (.op .loadTemplate))

/-- `translate_parsed_template`. -/
def translateParsedTemplate (templater : Option (Translate ℕ))
    (values : List (List UInt8 ⊕ Translate ℕ)) : Translate ℕ := do
  setRegisters 1
  match ← translateTemplater templater with
  | none => return 0
  | some first =>
    let _ ← push (.initCall 1)
    let _ ← push (.op .newScope)
    enterScope
    let _ ← push (.op .loadCreateTuple)
    let _ ← push (.initCall (u64 values.length))
    let done ← forEach (fun i item => do
      let _ ← push (.op .loadCreateTuple)
      let _ ← push (.initCall 2)
      let _ ← push (.loadBool item.isLeft)
      let _ ← push (.insertArg 0)
      match item with
      | .inr value =>
        let _ ← value
        if ← isError then return false
      | .inl string =>
        let stringPos ← arenaPush siphash string
        let _ ← push (.loadString 0 (u64 string.length) (u64 stringPos) (siphash string))
      let _ ← push (.insertArg 1)
      let _ ← push (.op .call)
      let _ ← push (.insertArg (u64 i))
      return true) 0 values
    if !done then return 0
    let _ ← push (.op .call)
    let _ ← push (.insertArg 0)
    let _ ← push (.op .call)
    let _ ← push (.op .popScope)
    leaveScope
    return first

/-! ## Assignments -/

/-- `add_assignment_operation`: the opcode of a compound assignment. -/
def AssignToken.opcode : AssignToken → Option BinaryOp
  | assign => none
  | plusAssign => some .addition
  | minusAssign => some .subtraction
  | starAssign => some .multiplication
  | caretAssign => some .exponentiation
  | slashAssign => some .division
  | floordivAssign => some .floorDivision
  | moduloAssign => some .modulo

/-- What `translate_parsed_assignment` does with an attribute and with an item: the method that sets
and the one that gets are loaded with the given instructions, and `access` translates the attribute or
the subscripts up to their `OP_INSERT_ARG`. It tells whether there was no error. -/
def translateAssignTo (loc : SourceLocation) (opcode : Option BinaryOp) (setMethod getMethod : Op)
    (toAccess : Translate ℕ) (access : Translate Bool) : Translate Bool := do
  let registerA ← newRegister
  setAssignedRegisters
  let _ ← push (.copyToRegister 0 registerA)
  let _ ← toAccess
  if ← isError then return false
  match opcode with
  | none =>
    let _ ← pushSourceLocation loc
    let _ ← push (.op setMethod)
    let _ ← push (.initCall 2)
    if !(← access) then return false
    let _ ← push (.copyToRegister registerA 0)
  | some opcode =>
    let toAccessRegister ← newRegister
    let _ ← push (.copyToRegister 0 toAccessRegister)
    let _ ← pushSourceLocation loc
    let _ ← push (.op setMethod)
    let _ ← push (.initCall 2)
    if !(← access) then return false
    let accessRegister ← newRegister
    setAssignedRegisters
    let _ ← push (.copyToRegister 0 accessRegister)
    let _ ← push (.copyToRegister toAccessRegister 0)
    let _ ← pushSourceLocation loc
    let _ ← push (.op getMethod)
    let _ ← push (.initCall 1)
    let _ ← push (.copyToRegister accessRegister 0)
    let _ ← push (.insertArg 0)
    let _ ← push (.op .call)
    let _ ← push (.binary opcode 0 registerA 0)
    freeRegisters 2
  let _ ← push (.insertArg 1)
  let _ ← push (.op .call)
  freeRegisters 1
  return true

/-- `translate_parsed_assignment`. -/
def translateParsedAssignment (loc : SourceLocation) (target : AssignableOf (Translate ℕ))
    (type : AssignToken) (value : Translate ℕ) : Translate ℕ := do
  setRegisters 1
  let old ← get
  clearJumps
  let first ← value
  if ← isError then return 0
  match target with
  | .identifier identifier =>
    let length := u64 identifier.name.length
    let identifierPos ← arenaPush siphash identifier.name
    let hash := siphash identifier.name
    if let some opcode := type.opcode then
      let registerOperationTo ← newRegister
      setAssignedRegisters
      let _ ← push (.copyToRegister 0 registerOperationTo)
      let _ ← pushSourceLocation loc
      let _ ← push (.identifier length (u64 identifierPos) hash)
      let _ ← push (.binary opcode 0 registerOperationTo 0)
      freeRegisters 1
    let _ ← push (.assign length (u64 identifierPos) hash 0)
    restoreJumps old
    return first
  | .access toAccess access =>
    let done ← translateAssignTo loc type.opcode .loadSetattrMethod .loadGetattributeMethod toAccess do
      let _ ← access
      if ← isError then return false
      let _ ← push (.insertArg 0)
      return true
    if !done then return 0
    restoreJumps old
    return first
  | .itemAccess toAccess subscripts =>
    let done ← translateAssignTo loc type.opcode .loadSetitemMethod .loadGetitemMethod toAccess
      (translateSubscripts subscripts)
    if !done then return 0
    restoreJumps old
    return first

/-! ## Declarations -/

/-- The opcode a destructure binds names with. -/
inductive BindOpcode where
  | declare
  | assign
  deriving DecidableEq

/-- The instruction that binds a name. -/
def BindOpcode.instr : BindOpcode → UInt64 → UInt64 → UInt64 → UInt8 → Instr
  | declare => .declare
  | assign => .assign

/-- What is done with a destructure, of the register of the value and the opcode. -/
abbrev TranslateDestructure := UInt8 → BindOpcode → Translate Unit

/-- `translate_destructure` without a destructure. -/
def translateDestructure (destructure : Option TranslateDestructure) : TranslateDestructure :=
  match destructure with
  | none => fun _ _ => return
  | some destructure => destructure

/-- The case `DESTRUCTURE_IDENTIFIER`. -/
def translateDestructureIdentifier (identifier : ParsedIdentifier) : TranslateDestructure :=
  fun valueRegister opcode => do
    let length := u64 identifier.name.length
    let _ ← push (.sourceLocation identifier.line identifier.column length)
    let identifierPos ← arenaPush siphash identifier.name
    let _ ← push (opcode.instr length (u64 identifierPos) (siphash identifier.name) valueRegister)

/-- The code that raises the error in a register again if it is not an instance of a class, which the
given action loads. It answers where the operand of the jump over the raise is. -/
def translateIsInstance (errRegister : UInt8) (loadClass : Translate Bool) :
    Translate (Option ℕ) := do
  let _ ← push (.copyToRegister 0 errRegister)
  let _ ← push (.op .loadIsInstanceFunction)
  let _ ← push (.initCall 2)
  let _ ← push (.copyToRegister errRegister 0)
  let _ ← push (.insertArg 0)
  if !(← loadClass) then return none
  let _ ← push (.insertArg 1)
  let _ ← push (.op .call)
  let _ ← push (.op .not)
  let isExceptionType := (← push (.jumpIfFalse 0 0)) + 2
  let _ ← push (.copyToRegister errRegister 0)
  let _ ← push (.op .quietThrow)
  return some isExceptionType

/-- The load of `StopIteration`. -/
def loadStopIteration : Translate Bool := do
  let _ ← push (.op .loadStopiterationClass)
  return true

/-- The case `DESTRUCTURE_INDEX`. -/
def translateDestructureIndex (items : List (Option TranslateDestructure))
    (rest : Option TranslateDestructure) : TranslateDestructure :=
  fun valueRegister opcode => do
    if items.length ≠ 0 then
      let iteratorOrErrorRegister ← newRegister
      let nextRegister ← newRegister
      let counterRegister ← newRegister
      if valueRegister ≠ 0 then
        let _ ← push (.copyToRegister valueRegister 0)
      setAssignedRegisters
      let _ ← push (.op .loadIterMethod)
      let _ ← push (.initCall 0)
      let _ ← push (.op .call)
      let _ ← push (.copyToRegister 0 iteratorOrErrorRegister)
      let _ ← push (.op .loadNextMethod)
      if 1 < items.length ∨ rest.isSome then
        let _ ← push (.copyToRegister 0 nextRegister)
      enterHandler
      let jumpIndex := (← push (.exceptionCatcherPush 0)) + 1
      let _ ← forEach (fun i item => do
        let _ ← push (.loadNumber counterRegister (.int64 (u64 i)))
        if i ≠ 0 then
          let _ ← push (.copyToRegister nextRegister 0)
        let _ ← push (.initCall 0)
        let _ ← push (.op .call)
        translateDestructure item 0 opcode
        return true) 0 items
      if rest.isSome then
        let _ ← push (.op .loadCreateArray)
        let _ ← push (.initCall 0)
        -- The handler of `OP_UNPACK_ITERATOR` pops one register; a second one is pushed here.
        let _ ← push (.unpackIterator iteratorOrErrorRegister)
        let _ ← pushInstructionByte nextRegister
        let _ ← push (.op .call)
        translateDestructure rest 0 opcode
      leaveHandler
      let _ ← push (.op .exceptionCatcherPop)
      let skipExceptionHandlerPos := (← push (.jump 0)) + 1
      setInstructionCode jumpIndex (← bytecodeSize)
      match ← translateIsInstance iteratorOrErrorRegister loadStopIteration with
      | none => return
      | some isStopIteration =>
        setInstructionCode isStopIteration (← bytecodeSize)
        let _ ← push (.destructureError (u64 items.length) counterRegister)
        setInstructionCode skipExceptionHandlerPos (← bytecodeSize)
        freeRegisters 3

/-- The key of an item in `DESTRUCTURE_KEY`: a name stands for itself. It tells whether there was no
error. -/
def translateKey (key : ParsedValue × Translate ℕ) : Translate Bool :=
  match key.1 with
  | .identifier identifier => do
    let keyStringPos ← arenaPush siphash identifier.name
    setRegisters 1
    let _ ← push (.loadString 0 (u64 identifier.name.length) (u64 keyStringPos)
      (siphash identifier.name))
    return true
  | _ => do
    let _ ← key.2
    return !(← isError)

/-- The first loop of `DESTRUCTURE_KEY`: the registers of the keys, if they are kept, or `none` after
an error. -/
def translateKeyItems (dictionaryRegister : UInt8) (keepKeys : Bool) (opcode : BindOpcode) :
    List ((ParsedValue × Translate ℕ) × Option TranslateDestructure) →
    Translate (Option (List UInt8))
  | [] => return some []
  | (key, destructure) :: items => do
    let _ ← push (.copyToRegister dictionaryRegister 0)
    let _ ← push (.op .loadGetitemMethod)
    let _ ← push (.initCall 1)
    if !(← translateKey siphash key) then return none
    let keyRegisters ← (if keepKeys then do
        let keyRegister ← newRegister
        setAssignedRegisters
        let _ ← push (.copyToRegister 0 keyRegister)
        let _ ← push (.copyToRegister keyRegister 0)
        return [keyRegister]
      else return [])
    let _ ← push (.insertArg 0)
    let _ ← push (.op .call)
    translateDestructure destructure 0 opcode
    if ← isError then return none
    let rest ← translateKeyItems dictionaryRegister keepKeys opcode items
    return rest.map fun rest => keyRegisters ++ rest

/-- The case `DESTRUCTURE_KEY`. -/
def translateDestructureKey (items : List ((ParsedValue × Translate ℕ) × Option TranslateDestructure))
    (rest : Option TranslateDestructure) : TranslateDestructure :=
  fun valueRegister opcode => do
    if items.length ≠ 0 ∨ rest.isSome then
      let dictionaryRegister ← newRegister
      setAssignedRegisters
      let _ ← push (.copyToRegister valueRegister dictionaryRegister)
      match ← translateKeyItems siphash dictionaryRegister rest.isSome opcode items with
      | none => return
      | some keyRegisters =>
        if rest.isSome then
          let restRegister ← newRegister
          setAssignedRegisters
          let _ ← push (.op .loadDictionaryClass)
          let _ ← push (.initCall 1)
          let _ ← push (.copyToRegister dictionaryRegister 0)
          let _ ← push (.insertArg 0)
          let _ ← push (.op .call)
          let _ ← push (.copyToRegister 0 restRegister)
          let _ ← forEach (fun _ keyRegister => do
            let _ ← push (.copyToRegister restRegister 0)
            let _ ← push (.op .loadDelitemMethod)
            let _ ← push (.initCall 1)
            let _ ← push (.copyToRegister keyRegister 0)
            let _ ← push (.insertArg 0)
            let _ ← push (.op .call)
            return true) 0 keyRegisters
          translateDestructure rest restRegister opcode
          freeRegisters 1
          freeRegisters (UInt8.ofNat keyRegisters.length)
          -- After an error in the rest, the register of the dictionary is not given back.
          if ← isError then return
        freeRegisters 1

/-- The loop of `translate_parsed_declaration`. -/
def translateDeclarations : ℕ → ℕ → List (Translate ℕ × Option TranslateDestructure) → Translate ℕ
  | _, first, [] => return first
  | i, first, (value, destructure) :: rest => do
    let old ← get
    clearJumps
    let temp ← value
    if ← isError then return first
    let first := if i = 0 then temp else first
    translateDestructure destructure 0 .declare
    restoreJumps old
    translateDeclarations (i + 1) first rest

/-- `translate_parsed_declaration`. -/
def translateParsedDeclaration (first : Translate ℕ × Option TranslateDestructure)
    (rest : List (Translate ℕ × Option TranslateDestructure)) : Translate ℕ := do
  setRegisters 1
  translateDeclarations 0 0 (first :: rest)

/-- Declare a name with the value of a register. -/
def pushDeclare (name : Name) (pos : ℕ) (fromRegister : UInt8) : Translate ℕ :=
  push (.declare (u64 name.length) (u64 pos) (siphash name) fromRegister)

/-- The bytes of `this`. -/
def thisName : Name := [116, 104, 105, 115]

/-- The bytes of `super`. -/
def superName : Name := [115, 117, 112, 101, 114]

/-- `translate_parsed_class`. -/
def translateParsedClass (name : Name) (line column : UInt64) (parent : Option (Translate ℕ))
    (body : Translate ℕ) : Translate ℕ := do
  let parentRegister ← newRegister
  setAssignedRegisters
  let identifierPos ← arenaPush siphash name
  let initObjectNamePos ← arenaPush siphash thisName
  let classParentPos ← arenaPush siphash superName
  let first ← (match parent with
    | some parent => parent
    | none => push (.op .loadBaseClass))
  if ← isError then return 0
  let _ ← push (.copyToRegister 0 parentRegister)
  let _ ← push (.sourceLocation line column (u64 name.length))
  let _ ← push (.createClass (u64 name.length) (u64 identifierPos))
  let _ ← pushDeclare siphash name identifierPos 0
  let _ ← push (.op .newScope)
  enterScope
  let _ ← pushDeclare siphash superName classParentPos parentRegister
  let _ ← push (.loadNull parentRegister)
  let _ ← pushDeclare siphash thisName initObjectNamePos 0
  let _ ← body
  if ← isError then return 0
  let _ ← push (.op .popScope)
  let _ ← push (.loadNull 0)
  freeRegisters 1
  leaveScope
  return first

/-- `translate_parsed_import`. The register that keeps the module is not counted. -/
def translateParsedImport (loc : SourceLocation) (file : Translate ℕ) (as_ : Option Name)
    (expose : Expose) : Translate ℕ := do
  let first ← file
  if ← isError then return 0
  let _ ← pushSourceLocation loc
  let _ ← push (.op .opImport)
  if let some name := as_ then
    let asPos ← arenaPush siphash name
    let _ ← pushDeclare siphash name asPos 0
  match expose with
  | .none => return first
  | .all =>
    let _ ← push (.op .exposeAll)
    return first
  | .names names =>
    let registerA ← (if 1 < names.length then do
        let registerA ← newRegister
        let _ ← push (.copyToRegister 0 registerA)
        return registerA
      else return 0)
    let _ ← forEach (fun i expose => do
      if i ≠ 0 then
        let _ ← push (.copyToRegister registerA 0)
      let pos ← arenaPush siphash expose.identifier
      let _ ← push (.expose (u64 expose.identifier.length) (u64 pos) (siphash expose.identifier))
      match expose.as_ with
      | some name =>
        let pos ← arenaPush siphash name
        let _ ← pushDeclare siphash name pos 0
      | none =>
        let _ ← pushDeclare siphash expose.identifier pos 0
      return true) 0 names
    if 1 < names.length then
      freeRegisters 1
    return first

/-! ## Statements -/

/-- The case `AST_THROW`. -/
def translateThrow (loc : SourceLocation) (value : Translate ℕ) : Translate ℕ := do
  let first ← value
  let _ ← pushSourceLocation loc
  let _ ← push (.op .throw)
  return first

/-- The loops that leave scopes and handlers down to a target. -/
def pushUnwinding (scopeDepth exceptionHandlerDepth : ℕ) : Translate Unit := do
  let t ← get
  pushTimes (.op .popScope) (depthDifference t.scopeDepth scopeDepth)
  pushTimes (.op .exceptionCatcherPop)
    (depthDifference t.exceptionHandlerDepth exceptionHandlerDepth)

/-- `darray_push` on an array of positions. -/
def Positions.push (positions : Positions) (position : ℕ) : Option Positions :=
  match positions with
  | .live positions => some (.live (positions ++ [position]))
  | .null | .dangling => none

/-- `translate_parsed_break`. -/
def translateParsedBreak (loc : SourceLocation) : Translate ℕ := do
  let breakJump := (← get).breakJump
  if breakJump.positions = .null then
    raise loc "nowhere to break to"
    return 0
  let first ← bytecodeSize
  pushUnwinding breakJump.scopeDepth breakJump.exceptionHandlerDepth
  let breakUp := (← push (.jump 0)) + 1
  let positions ← breakJump.positions.push breakUp
  modify fun t => { t with breakJump := { t.breakJump with positions := positions } }
  return first

/-- `translate_parsed_continue`. -/
def translateParsedContinue (loc : SourceLocation) : Translate ℕ := do
  let continueJump := (← get).continueJump
  match continueJump.pos with
  | none =>
    raise loc "nowhere to continue to"
    return 0
  | some pos =>
    let first ← bytecodeSize
    pushUnwinding continueJump.scopeDepth continueJump.exceptionHandlerDepth
    let _ ← push (.jump (u64 pos))
    return first

/-- `translate_parsed_return`. -/
def translateParsedReturn (loc : SourceLocation) (value : Translate ℕ) : Translate ℕ := do
  if (← get).returnJump.positions = .null then
    raise loc "nowhere to return to"
    return 0
  let first ← value
  let returnJump := (← get).returnJump
  pushUnwinding returnJump.scopeDepth returnJump.exceptionHandlerDepth
  let returnUp := (← push (.jump 0)) + 1
  let positions ← returnJump.positions.push returnUp
  modify fun t => { t with returnJump := { t.returnJump with positions := positions } }
  return first

/-- `translate`: the error of a statement ends the list. -/
def translate : List (Translate ℕ) → Translate Unit
  | [] => return
  | value :: values => do
    let _ ← value
    if ← isError then return
    translate values

/-- `translate_parsed_dowrap`. The error that was there before is lost. -/
def translateParsedDowrap (body : List (Translate ℕ)) : Translate ℕ := do
  setRegisters 1
  let first ← bytecodeSize
  if body.length ≠ 0 then
    let oldReturnJump := (← get).returnJump
    if oldReturnJump.positions = .null then
      modify fun t => { t with
        returnJump := ⟨.live [], t.exceptionHandlerDepth, t.scopeDepth⟩ }
    enterScope
    let _ ← push (.op .newScope)
    modify fun t => { t with err := none }
    translate body
    if ← isError then
      if oldReturnJump.positions = .null then
        modify fun t => { t with returnJump := { t.returnJump with positions := .dangling } }
      return first
    let _ ← push (.loadNull 0)
    let _ ← push (.op .popScope)
    if oldReturnJump.positions = .null then
      setInstructionCodes (← bytecodeSize) (← (← get).returnJump.positions.get)
      modify fun t => { t with returnJump := oldReturnJump }
    leaveScope
    return first
  else
    let _ ← push (.loadNull 0)
    return first

/-- The loop of `translate_parsed_if`: the places of the jumps to the end unless there was an
error. -/
def translateConditionals : List (Option (Translate ℕ) × Translate ℕ) → Translate (Option (List ℕ))
  | [] => return some []
  | (condition, content) :: rest => do
    let _ ← push (.op .newScope)
    enterScope
    match condition with
    | some condition =>
      let _ ← condition
      if ← isError then return none
      let _ ← push (.op .bool)
      let lastJumpIndex := (← push (.jumpIfFalse 0 0)) + 2
      let _ ← content
      if ← isError then return none
      let _ ← push (.op .popScope)
      let jumpAfterBody := (← push (.jump 0)) + 1
      setInstructionCode lastJumpIndex (← bytecodeSize)
      let _ ← push (.op .popScope)
      leaveScope
      return (← translateConditionals rest).map fun jumps => jumpAfterBody :: jumps
    | none =>
      let _ ← content
      let _ ← push (.op .popScope)
      let jumpAfterBody := (← push (.jump 0)) + 1
      leaveScope
      return (← translateConditionals rest).map fun jumps => jumpAfterBody :: jumps

/-- `translate_parsed_if`. -/
def translateParsedIf (conditionals : List (Option (Translate ℕ) × Translate ℕ)) :
    Translate ℕ := do
  let first ← bytecodeSize
  setRegisters 1
  match ← translateConditionals conditionals with
  | none => return 0
  | some jumpAfterBodyPositions =>
    setInstructionCodes (← bytecodeSize) jumpAfterBodyPositions
    let _ ← push (.loadNull 0)
    return first

/-- `break_jump` for a loop that starts here. -/
def newBreakJump : Translate Unit :=
  modify fun t => { t with breakJump := ⟨.live [], t.exceptionHandlerDepth, t.scopeDepth⟩ }

/-- The array of breaks is gone with the function that is left. -/
def dropBreakJump : Translate Unit :=
  modify fun t => { t with breakJump := { t.breakJump with positions := .dangling } }

/-- Set the breaks of a loop to the end of the code so far. -/
def setBreaks : Translate Unit := do
  setInstructionCodes (← bytecodeSize) (← (← get).breakJump.positions.get)

/-- `continue_jump` for a loop that starts at a position. -/
def newContinueJump (pos : ℕ) : Translate Unit :=
  modify fun t => { t with continueJump := ⟨some pos, t.exceptionHandlerDepth, t.scopeDepth⟩ }

/-- `translate_parsed_while`. -/
def translateParsedWhile (condition content : Translate ℕ) : Translate ℕ := do
  setRegisters 1
  let oldBreakJump := (← get).breakJump
  newBreakJump
  let first ← push (.op .newScope)
  enterScope
  let startOfLoop ← condition
  if ← isError then
    dropBreakJump
    return 0
  let oldContinueJump := (← get).continueJump
  newContinueJump startOfLoop
  let _ ← push (.op .bool)
  let jumpIndex := (← push (.jumpIfFalse 0 0)) + 2
  let _ ← content
  let _ ← push (.op .emptyScope)
  let _ ← push (.jump (u64 startOfLoop))
  setInstructionCode jumpIndex (← bytecodeSize)
  let _ ← push (.op .popScope)
  setBreaks
  modify fun t => { t with breakJump := oldBreakJump }
  let _ ← push (.loadNull 0)
  modify fun t => { t with continueJump := oldContinueJump }
  leaveScope
  return first

/-- `translate_parsed_for`. Its catcher is not counted in `exception_handler_depth`. -/
def translateParsedFor (value : Option TranslateDestructure) (iterator content : Translate ℕ) :
    Translate ℕ := do
  let iteratorAndErrRegister ← newRegister
  let iteratorNextRegister ← newRegister
  setAssignedRegisters
  let oldBreakJump := (← get).breakJump
  newBreakJump
  let first ← push (.exceptionCatcherPush 0)
  let jumpIndex := first + 1
  let _ ← push (.op .newScope)
  enterScope
  let _ ← iterator
  if ← isError then
    dropBreakJump
    return 0
  let _ ← push (.op .loadIterMethod)
  let _ ← push (.initCall 0)
  let _ ← push (.op .call)
  let _ ← push (.copyToRegister 0 iteratorAndErrRegister)
  let _ ← push (.op .loadNextMethod)
  let _ ← push (.copyToRegister 0 iteratorNextRegister)
  let startOfLoop ← push (.op .emptyScope)
  let _ ← push (.forLoopJump iteratorAndErrRegister iteratorNextRegister)
  let oldContinueJump := (← get).continueJump
  newContinueJump startOfLoop
  translateDestructure value 0 .declare
  if ← isError then
    dropBreakJump
    return 0
  let _ ← content
  let _ ← push (.jump (u64 startOfLoop))
  setBreaks
  modify fun t => { t with breakJump := oldBreakJump }
  let breakSkip := (← push (.jump 0)) + 1
  setInstructionCode jumpIndex (← bytecodeSize)
  match ← translateIsInstance iteratorAndErrRegister loadStopIteration with
  | none => return 0
  | some isExceptionType =>
    setInstructionCode isExceptionType (← bytecodeSize)
    setInstructionCode breakSkip (← push (.loadNull 0))
    modify fun t => { t with continueJump := oldContinueJump }
    leaveScope
    freeRegisters 2
    return first

/-- The load of the class of exceptions that a `try` catches. -/
def loadExceptionType : Option (Translate ℕ) → Translate Bool
  | some exceptionType => do
    let _ ← exceptionType
    return !(← isError)
  | none => do
    let _ ← push (.op .loadExceptionClass)
    return true

/-- `translate_parsed_try`. -/
def translateParsedTry (tryBody : Translate ℕ) (exceptionType : Option (Translate ℕ))
    (exceptionName : Option Name) (catchBody : Translate ℕ) : Translate ℕ := do
  let errRegister ← newRegister
  setAssignedRegisters
  enterHandler
  let first ← push (.exceptionCatcherPush 0)
  let exceptionJumpPos := first + 1
  enterScope
  let _ ← push (.op .newScope)
  let _ ← tryBody
  if ← isError then return 0
  leaveScope
  let _ ← push (.op .popScope)
  leaveHandler
  let _ ← push (.op .exceptionCatcherPop)
  let donePos := (← push (.jump 0)) + 1
  enterScope
  setInstructionCode exceptionJumpPos (← push (.op .newScope))
  match ← translateIsInstance errRegister (loadExceptionType exceptionType) with
  | none => return 0
  | some isExceptionType =>
    setInstructionCode isExceptionType (← bytecodeSize)
    if let some name := exceptionName then
      let _ ← push (.copyToRegister errRegister 0)
      let identifierPos ← arenaPush siphash name
      let _ ← pushDeclare siphash name identifierPos 0
    let _ ← catchBody
    if ← isError then return 0
    leaveScope
    let _ ← push (.op .popScope)
    setInstructionCode donePos (← bytecodeSize)
    freeRegisters 1
    return first

/-! ## The recursion -/

/-- The cases of `translate_parsed` and of `translate_destructure`. -/
def translator : ParsedAlgebra (Translate ℕ) TranslateDestructure where
  string := translateParsedString siphash
  assign := translateParsedAssignment siphash
  identifier := translateParsedIdentifier siphash
  class_ := translateParsedClass siphash
  conditional := translateConditional
  number number := translateParsedNumber siphash number 0
  if_ := translateParsedIf
  access := translateAccess
  itemAccess := translateItemAccess
  call := translateParsedCall siphash
  declaration := translateParsedDeclaration
  null := translateNull
  boolean := translateBoolean
  dowrap := translateParsedDowrap
  operation := translateOperation
  array := translateArray
  dictionary := translateDictionary
  function := translateParsedFunction siphash
  return_ := translateParsedReturn
  delete := translateParsedDelete siphash
  throw := translateThrow
  continue_ := translateParsedContinue
  break_ := translateParsedBreak
  while_ := translateParsedWhile
  template := translateParsedTemplate siphash
  for_ := translateParsedFor
  toBool := translateToBool
  negation := translateNegation
  import_ := translateParsedImport siphash
  range := translateRange
  try_ := translateParsedTry siphash
  identifierDestructure := translateDestructureIdentifier siphash
  indexDestructure := translateDestructureIndex
  keyDestructure := translateDestructureKey siphash

/-- `translate_parsed`. -/
def translateParsed (value : ParsedValue) : Translate ℕ := value.fold (translator siphash)

/-- `translate` on the values of a module. -/
def translateAll (ast : List ParsedValue) : Translate Unit :=
  translate (ast.map (translateParsed siphash))

end Chloride
