import Chloride.Containers.HashTable
import Chloride.Bytecode.Instr

/-!
# The state of the translator

`Translated` and `ArErr` of `src/arobject.h` and the operations on them in
`src/translator/translator.c`. The translator writes code into `bytecode`, with operands of jumps that
are set later, and names, strings, numbers and the code of functions into `constants`.

The arrays that collect the places of breaks and returns are local variables of the functions that
translate loops and blocks. `Positions` says what such a pointer leads to: such a function that is left
early leaves a pointer to an array that is gone. An `exit` of the process and what is undefined in C
are `none`.
-/

namespace Chloride

/-- The arena of constants: its bytes, and the offsets of the data it was given, by hash. -/
structure ConstantArena where
  data : List UInt8
  offsets : List (UInt64 × ℕ)
  deriving DecidableEq

/-- `struct continue_jump`; no position is `-1`. -/
structure ContinueJump where
  pos : Option ℕ
  exceptionHandlerDepth : ℕ
  scopeDepth : ℕ
  deriving DecidableEq

/-- What a pointer to an array of positions leads to. -/
inductive Positions where
  | null
  | live (positions : List ℕ)
  | dangling
  deriving DecidableEq

/-- `struct break_or_return_jump`. -/
structure BreakOrReturnJump where
  positions : Positions
  exceptionHandlerDepth : ℕ
  scopeDepth : ℕ
  deriving DecidableEq

/-- A syntax error of the translator: where it is and what it says. -/
structure SyntaxError where
  loc : SourceLocation
  message : String
  deriving DecidableEq

/-- `Translated`, with the error that is passed along. -/
structure Translated where
  registerCount : UInt8
  registerAssignment : UInt8
  scopeDepth : ℕ
  exceptionHandlerDepth : ℕ
  continueJump : ContinueJump
  returnJump : BreakOrReturnJump
  breakJump : BreakOrReturnJump
  bytecode : List UInt8
  constants : ConstantArena
  err : Option SyntaxError
  /-- The register operands that were pushed, which the source does not keep. -/
  registerOperands : List UInt8
  /-- Whether `registerAssignment` ran over, which the source does not notice. -/
  registersWrapped : Bool
  deriving DecidableEq

/-- `init_translator`. -/
def initTranslator : Translated where
  registerCount := 1
  registerAssignment := 1
  scopeDepth := 0
  exceptionHandlerDepth := 0
  continueJump := ⟨none, 0, 0⟩
  returnJump := ⟨.null, 0, 0⟩
  breakJump := ⟨.null, 0, 0⟩
  bytecode := []
  constants := ⟨[], []⟩
  err := none
  registerOperands := []
  registersWrapped := false

/-- What the translator does with its state. -/
abbrev Translate := StateT Translated Option

/-- A size or an offset as an operand. -/
abbrev u64 (n : ℕ) : UInt64 := UInt64.ofNat n

/-- `arena_push`: data whose hash was pushed before is not pushed again if it is the same. -/
def ConstantArena.push (hash : List UInt8 → UInt64) (arena : ConstantArena) (data : List UInt8) :
    ℕ × ConstantArena :=
  let add := (arena.data.length,
    { data := arena.data ++ data, offsets := put arena.offsets (hash data) arena.data.length })
  match find arena.offsets (hash data) with
  | some offset => if (arena.data.drop offset).take data.length = data then (offset, arena) else add
  | none => add

/-- `arena_push` on the constants. -/
def arenaPush (hash : List UInt8 → UInt64) (data : List UInt8) : Translate ℕ := do
  let (offset, constants) := (← get).constants.push hash data
  modify fun t => { t with constants := constants }
  return offset

/-- The end of the code so far. -/
def bytecodeSize : Translate ℕ := return (← get).bytecode.length

/-- `push_instruction_byte` for a register. -/
def pushInstructionByte (register : UInt8) : Translate ℕ := do
  let offset ← bytecodeSize
  modify fun t => { t with
    bytecode := t.bytecode ++ [register]
    registerOperands := t.registerOperands ++ [register] }
  return offset

/-- `push_instruction_byte` for the opcode and the pushes for its operands. -/
def push (i : Instr) : Translate ℕ := do
  let offset ← bytecodeSize
  modify fun t => { t with
    bytecode := t.bytecode ++ i.encode
    registerOperands := t.registerOperands ++ i.registers }
  return offset

/-- Set the eight bytes at an index. -/
def setBytes (bytes : List UInt8) (index : ℕ) (code : UInt64) : List UInt8 :=
  bytes.take index ++ uint64ToBytes code ++ bytes.drop (index + 8)

/-- `set_instruction_code`. -/
def setInstructionCode (index code : ℕ) : Translate Unit := do
  if index + 8 ≤ (← get).bytecode.length then
    modify fun t => { t with bytecode := setBytes t.bytecode index (u64 code) }
  else failure

/-- `set_instruction_code` at all the positions of an array. -/
def setInstructionCodes (code : ℕ) : List ℕ → Translate Unit
  | [] => return
  | index :: indices => do
    setInstructionCode index code
    setInstructionCodes code indices

/-- The positions of an array that is there. -/
def Positions.get : Positions → Translate (List ℕ)
  | .live positions => return positions
  | .null | .dangling => failure

/-- `set_registers`. -/
def setRegisters (count : UInt8) : Translate Unit :=
  modify fun t => if t.registerCount < count then { t with registerCount := count } else t

/-- `translated->registerAssignment++`. -/
def newRegister : Translate UInt8 := do
  let register := (← get).registerAssignment
  modify fun t => { t with
    registerAssignment := t.registerAssignment + 1
    registersWrapped := t.registersWrapped || t.registerAssignment = 255 }
  return register

/-- `set_registers(translated, translated->registerAssignment)`. -/
def setAssignedRegisters : Translate Unit := do setRegisters (← get).registerAssignment

/-- `translated->registerAssignment -= n`. -/
def freeRegisters (n : UInt8) : Translate Unit :=
  modify fun t => { t with
    registerAssignment := t.registerAssignment - n
    registersWrapped := t.registersWrapped || t.registerAssignment < n }

/-- `translated->scope_depth++`. -/
def enterScope : Translate Unit := modify fun t => { t with scopeDepth := t.scopeDepth + 1 }

/-- `translated->scope_depth--`. -/
def leaveScope : Translate Unit := modify fun t => { t with scopeDepth := t.scopeDepth - 1 }

/-- `translated->exception_handler_depth++`. -/
def enterHandler : Translate Unit :=
  modify fun t => { t with exceptionHandlerDepth := t.exceptionHandlerDepth + 1 }

/-- `translated->exception_handler_depth--`. -/
def leaveHandler : Translate Unit :=
  modify fun t => { t with exceptionHandlerDepth := t.exceptionHandlerDepth - 1 }

/-- The difference of two depths, which are unsigned 64-bit numbers. -/
def depthDifference (depth targetDepth : ℕ) : ℕ :=
  if targetDepth ≤ depth then depth - targetDepth else 2 ^ 64 - (targetDepth - depth)

/-- Push an instruction a number of times. -/
def pushTimes (i : Instr) : ℕ → Translate Unit
  | 0 => return
  | n + 1 => do
    let _ ← push i
    pushTimes i n

/-- `is_error`. -/
def isError : Translate Bool := return (← get).err.isSome

/-- `*err = path_specific_create_err(..)`. -/
def raise (loc : SourceLocation) (message : String) : Translate Unit :=
  modify fun t => { t with err := some ⟨loc, message⟩ }

/-- A `for` loop over an array; the body answers `false` where it returns from the function around
the loop. -/
def forEach {α : Type*} (body : ℕ → α → Translate Bool) : ℕ → List α → Translate Bool
  | _, [] => return true
  | i, x :: xs => do
    if ← body i x then forEach body (i + 1) xs else return false

end Chloride
