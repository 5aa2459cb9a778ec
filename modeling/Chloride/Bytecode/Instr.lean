import Mathlib

/-!
# Instructions

The instruction set of `src/translator/translator.h`, with the operands that the handlers of
`src/runtime/runtime.c` pop, in the order they pop them: one byte with `POP_BYTE`, eight bytes with
`POP_U64`. `encode` lays an instruction out in bytes and `decode` reads one as the handlers do.
Decoding what was encoded gives the instruction back and leaves the bytes behind it
(`decode_encode`), on every path through a handler: the number literals have three layouts, chosen by
their flag bytes.
-/

namespace Chloride

/-- The operations whose handlers pop no operands. -/
inductive Op where
  | bool | newScope | emptyScope | popScope | call | loadGetattributeMethod | not | negation
  | loadSetattrMethod | loadDelattrMethod | createDictionary | loadGetitemMethod
  | loadSetitemMethod | loadDelitemMethod | loadBaseClass | opImport | exposeAll | loadCreateArray
  | loadIterMethod | loadNextMethod | loadRangeClass | loadTemplateMethod | loadCreateTuple
  | loadTemplate | makeRangeInclusive | throw | exceptionCatcherPop | loadIsInstanceFunction
  | loadExceptionClass | loadStopiterationClass | loadSliceClass | quietThrow | unpackKeyWordArgs
  | unpackArgs | loadDictionaryClass
  deriving DecidableEq, Repr

/-- The operations that take two registers and write a third. -/
inductive BinaryOp where
  | addition | subtraction | multiplication | exponentiation | division | floorDivision | modulo
  | equal | notEqual | lessThan | lessThanEqual | greaterThan | greaterThanEqual | opIn | notIn
  deriving DecidableEq, Repr

/-- The operands of `OP_LOAD_NUMBER` behind the register: a 64-bit integer, or the places of a
numerator and a denominator in the constants. -/
inductive NumberOperand where
  | int64 (num : UInt64)
  | int (numSize numPos : UInt64) (isNegative : Bool)
  | rational (numSize numPos : UInt64) (isNegative : Bool) (denSize denPos : UInt64)
  deriving DecidableEq, Repr

/-- The instructions. A name in the constants is its length, its offset and its hash. -/
inductive Instr where
  | op (o : Op)
  | binary (o : BinaryOp) (registerA registerB registerC : UInt8)
  | loadString (toRegister : UInt8) (length offset hash : UInt64)
  | declare (length offset hash : UInt64) (fromRegister : UInt8)
  | assign (length offset hash : UInt64) (fromRegister : UInt8)
  | loadNull (toRegister : UInt8)
  | loadFunction (offset length bytecodeOffset bytecodeLength numberOfParameters
      numberOfDefaultParameters : UInt64)
  | setFunctionParameter (index offset length hash : UInt64)
  | setFunctionPositionalParameter (offset length hash : UInt64)
  | setFunctionKeyWordParameter (offset length hash : UInt64)
  | setFunctionDefaultParameter (funcRegister : UInt8) (index offset length hash : UInt64)
  | identifier (length offset hash : UInt64)
  | deleteIdentifier (length offset hash : UInt64)
  | jumpIfFalse (fromRegister : UInt8) (target : UInt64)
  | jump (target : UInt64)
  | initCall (length : UInt64)
  | insertArg (index : UInt64)
  | setKeyWordArg (length offset hash : UInt64)
  | sourceLocation (line column length : UInt64)
  | loadBool (value : Bool)
  | loadNumber (toRegister : UInt8) (number : NumberOperand)
  | copyToRegister (fromRegister toRegister : UInt8)
  | createClass (length offset : UInt64)
  | expose (length offset hash : UInt64)
  | forLoopJump (iterator iteratorNext : UInt8)
  | exceptionCatcherPush (jumpTo : UInt64)
  | destructureError (expected : UInt64) (gotRegister : UInt8)
  | unpackIterator (next : UInt8)
  deriving DecidableEq, Repr

/-- `struct SourceLocation`, the operands of `OP_SOURCE_LOCATION`. -/
structure SourceLocation where
  line : UInt64
  column : UInt64
  length : UInt64
  deriving DecidableEq

/-- The registers that an instruction names. -/
def Instr.registers : Instr → List UInt8
  | binary _ registerA registerB registerC => [registerA, registerB, registerC]
  | loadString toRegister .. => [toRegister]
  | declare _ _ _ fromRegister => [fromRegister]
  | assign _ _ _ fromRegister => [fromRegister]
  | loadNull toRegister => [toRegister]
  | setFunctionDefaultParameter funcRegister .. => [funcRegister]
  | jumpIfFalse fromRegister _ => [fromRegister]
  | loadNumber toRegister _ => [toRegister]
  | copyToRegister fromRegister toRegister => [fromRegister, toRegister]
  | forLoopJump iterator iteratorNext => [iterator, iteratorNext]
  | destructureError _ gotRegister => [gotRegister]
  | unpackIterator next => [next]
  | _ => []

/-! ## Encoding -/

/-- The opcodes of `OperationType`. -/
def Op.opcode : Op → UInt8
  | bool => 11
  | newScope => 14
  | emptyScope => 15
  | popScope => 16
  | call => 20
  | loadGetattributeMethod => 28
  | not => 40
  | negation => 43
  | loadSetattrMethod => 44
  | loadDelattrMethod => 45
  | createDictionary => 46
  | loadGetitemMethod => 47
  | loadSetitemMethod => 48
  | loadDelitemMethod => 49
  | loadBaseClass => 51
  | opImport => 52
  | exposeAll => 53
  | loadCreateArray => 55
  | loadIterMethod => 56
  | loadNextMethod => 57
  | loadRangeClass => 58
  | loadTemplateMethod => 60
  | loadCreateTuple => 61
  | loadTemplate => 62
  | makeRangeInclusive => 63
  | throw => 64
  | exceptionCatcherPop => 66
  | loadIsInstanceFunction => 67
  | loadExceptionClass => 68
  | loadStopiterationClass => 69
  | loadSliceClass => 70
  | quietThrow => 71
  | unpackKeyWordArgs => 72
  | unpackArgs => 73
  | loadDictionaryClass => 76

/-- The opcodes of `OperationType`. -/
def BinaryOp.opcode : BinaryOp → UInt8
  | addition => 26
  | subtraction => 27
  | multiplication => 29
  | exponentiation => 30
  | division => 31
  | floorDivision => 32
  | modulo => 33
  | equal => 34
  | notEqual => 35
  | lessThan => 36
  | lessThanEqual => 37
  | greaterThan => 38
  | greaterThanEqual => 39
  | opIn => 41
  | notIn => 42

/-- `uint64_to_bytes`: the eight bytes of a number, the least significant first. -/
def uint64ToBytes (value : UInt64) : List UInt8 :=
  (List.range 8).map fun i => UInt8.ofNat (value.toNat >>> (i * 8))

/-- The byte of a flag. -/
def boolByte (b : Bool) : UInt8 := if b then 1 else 0

/-- The operands of a number literal behind the register. -/
def NumberOperand.encode : NumberOperand → List UInt8
  | int64 num => 1 :: uint64ToBytes num
  | int numSize numPos isNegative =>
    0 :: (uint64ToBytes numSize ++ uint64ToBytes numPos ++ [1, boolByte isNegative])
  | rational numSize numPos isNegative denSize denPos =>
    0 :: (uint64ToBytes numSize ++ uint64ToBytes numPos ++ [0, boolByte isNegative] ++
      uint64ToBytes denSize ++ uint64ToBytes denPos)

/-- The bytes of an instruction. -/
def Instr.encode : Instr → List UInt8
  | op o => [o.opcode]
  | binary o a b c => [o.opcode, a, b, c]
  | loadString reg length offset hash =>
    1 :: reg :: (uint64ToBytes length ++ uint64ToBytes offset ++ uint64ToBytes hash)
  | declare length offset hash reg =>
    2 :: (uint64ToBytes length ++ uint64ToBytes offset ++ uint64ToBytes hash ++ [reg])
  | loadNull reg => [3, reg]
  | loadFunction offset length bytecodeOffset bytecodeLength parameters defaults =>
    4 :: (uint64ToBytes offset ++ uint64ToBytes length ++ uint64ToBytes bytecodeOffset ++
      uint64ToBytes bytecodeLength ++ uint64ToBytes parameters ++ uint64ToBytes defaults)
  | setFunctionParameter index offset length hash =>
    5 :: (uint64ToBytes index ++ uint64ToBytes offset ++ uint64ToBytes length ++
      uint64ToBytes hash)
  | setFunctionPositionalParameter offset length hash =>
    6 :: (uint64ToBytes offset ++ uint64ToBytes length ++ uint64ToBytes hash)
  | setFunctionKeyWordParameter offset length hash =>
    7 :: (uint64ToBytes offset ++ uint64ToBytes length ++ uint64ToBytes hash)
  | setFunctionDefaultParameter reg index offset length hash =>
    8 :: reg :: (uint64ToBytes index ++ uint64ToBytes offset ++ uint64ToBytes length ++
      uint64ToBytes hash)
  | identifier length offset hash =>
    9 :: (uint64ToBytes length ++ uint64ToBytes offset ++ uint64ToBytes hash)
  | deleteIdentifier length offset hash =>
    10 :: (uint64ToBytes length ++ uint64ToBytes offset ++ uint64ToBytes hash)
  | jumpIfFalse reg target => 12 :: reg :: uint64ToBytes target
  | jump target => 13 :: uint64ToBytes target
  | initCall length => 17 :: uint64ToBytes length
  | insertArg index => 18 :: uint64ToBytes index
  | setKeyWordArg length offset hash =>
    19 :: (uint64ToBytes length ++ uint64ToBytes offset ++ uint64ToBytes hash)
  | sourceLocation line column length =>
    21 :: (uint64ToBytes line ++ uint64ToBytes column ++ uint64ToBytes length)
  | loadBool value => [22, boolByte value]
  | loadNumber reg number => 23 :: reg :: number.encode
  | assign length offset hash reg =>
    24 :: (uint64ToBytes length ++ uint64ToBytes offset ++ uint64ToBytes hash ++ [reg])
  | copyToRegister fromReg toReg => [25, fromReg, toReg]
  | createClass length offset => 50 :: (uint64ToBytes length ++ uint64ToBytes offset)
  | expose length offset hash =>
    54 :: (uint64ToBytes length ++ uint64ToBytes offset ++ uint64ToBytes hash)
  | forLoopJump iterator next => [59, iterator, next]
  | exceptionCatcherPush target => 65 :: uint64ToBytes target
  | destructureError expected reg => 74 :: (uint64ToBytes expected ++ [reg])
  | unpackIterator next => [75, next]

/-! ## Decoding -/

/-- `POP_BYTE`. -/
def popByte : List UInt8 → Option (UInt8 × List UInt8)
  | [] => none
  | b :: bs => some (b, bs)

/-- `POP_U64`, on a machine that stores the least significant byte first. -/
def popU64 : List UInt8 → Option (UInt64 × List UInt8)
  | b₀ :: b₁ :: b₂ :: b₃ :: b₄ :: b₅ :: b₆ :: b₇ :: bs =>
    some (UInt64.ofNat (b₀.toNat + 2^8 * b₁.toNat + 2^16 * b₂.toNat + 2^24 * b₃.toNat +
      2^32 * b₄.toNat + 2^40 * b₅.toNat + 2^48 * b₆.toNat + 2^56 * b₇.toNat), bs)
  | _ => none

/-- The operation without operands that has the opcode. -/
def Op.ofOpcode : ℕ → Option Op
  | 11 => some bool
  | 14 => some newScope
  | 15 => some emptyScope
  | 16 => some popScope
  | 20 => some call
  | 28 => some loadGetattributeMethod
  | 40 => some not
  | 43 => some negation
  | 44 => some loadSetattrMethod
  | 45 => some loadDelattrMethod
  | 46 => some createDictionary
  | 47 => some loadGetitemMethod
  | 48 => some loadSetitemMethod
  | 49 => some loadDelitemMethod
  | 51 => some loadBaseClass
  | 52 => some opImport
  | 53 => some exposeAll
  | 55 => some loadCreateArray
  | 56 => some loadIterMethod
  | 57 => some loadNextMethod
  | 58 => some loadRangeClass
  | 60 => some loadTemplateMethod
  | 61 => some loadCreateTuple
  | 62 => some loadTemplate
  | 63 => some makeRangeInclusive
  | 64 => some throw
  | 66 => some exceptionCatcherPop
  | 67 => some loadIsInstanceFunction
  | 68 => some loadExceptionClass
  | 69 => some loadStopiterationClass
  | 70 => some loadSliceClass
  | 71 => some quietThrow
  | 72 => some unpackKeyWordArgs
  | 73 => some unpackArgs
  | 76 => some loadDictionaryClass
  | _ => none

/-- The operation on registers that has the opcode. -/
def BinaryOp.ofOpcode : ℕ → Option BinaryOp
  | 26 => some addition
  | 27 => some subtraction
  | 29 => some multiplication
  | 30 => some exponentiation
  | 31 => some division
  | 32 => some floorDivision
  | 33 => some modulo
  | 34 => some equal
  | 35 => some notEqual
  | 36 => some lessThan
  | 37 => some lessThanEqual
  | 38 => some greaterThan
  | 39 => some greaterThanEqual
  | 41 => some opIn
  | 42 => some notIn
  | _ => none

/-- The operands of `DO_LOAD_NUMBER` behind the register. -/
def NumberOperand.decode (bs : List UInt8) : Option (NumberOperand × List UInt8) := do
  let (isInt64, bs) ← popByte bs
  if isInt64 ≠ 0 then
    let (num, bs) ← popU64 bs
    return (.int64 num, bs)
  let (numSize, bs) ← popU64 bs
  let (numPos, bs) ← popU64 bs
  let (isInt, bs) ← popByte bs
  let (isNegative, bs) ← popByte bs
  if isInt ≠ 0 then
    return (.int numSize numPos (isNegative ≠ 0), bs)
  let (denSize, bs) ← popU64 bs
  let (denPos, bs) ← popU64 bs
  return (.rational numSize numPos (isNegative ≠ 0) denSize denPos, bs)

/-- A name in the constants. -/
def popName (bs : List UInt8) : Option ((UInt64 × UInt64 × UInt64) × List UInt8) := do
  let (a, bs) ← popU64 bs
  let (b, bs) ← popU64 bs
  let (c, bs) ← popU64 bs
  return ((a, b, c), bs)

/-- The operands of the opcodes that are in neither of the two tables. -/
def decodeOperands (opcode : ℕ) (bs : List UInt8) : Option (Instr × List UInt8) :=
  match opcode with
  | 1 => do
    let (reg, bs) ← popByte bs
    let ((length, offset, hash), bs) ← popName bs
    return (.loadString reg length offset hash, bs)
  | 2 => do
    let ((length, offset, hash), bs) ← popName bs
    let (reg, bs) ← popByte bs
    return (.declare length offset hash reg, bs)
  | 3 => do
    let (reg, bs) ← popByte bs
    return (.loadNull reg, bs)
  | 4 => do
    let ((offset, length, bytecodeOffset), bs) ← popName bs
    let ((bytecodeLength, parameters, defaults), bs) ← popName bs
    return (.loadFunction offset length bytecodeOffset bytecodeLength parameters defaults, bs)
  | 5 => do
    let (index, bs) ← popU64 bs
    let ((offset, length, hash), bs) ← popName bs
    return (.setFunctionParameter index offset length hash, bs)
  | 6 => do
    let ((offset, length, hash), bs) ← popName bs
    return (.setFunctionPositionalParameter offset length hash, bs)
  | 7 => do
    let ((offset, length, hash), bs) ← popName bs
    return (.setFunctionKeyWordParameter offset length hash, bs)
  | 8 => do
    let (reg, bs) ← popByte bs
    let (index, bs) ← popU64 bs
    let ((offset, length, hash), bs) ← popName bs
    return (.setFunctionDefaultParameter reg index offset length hash, bs)
  | 9 => do
    let ((length, offset, hash), bs) ← popName bs
    return (.identifier length offset hash, bs)
  | 10 => do
    let ((length, offset, hash), bs) ← popName bs
    return (.deleteIdentifier length offset hash, bs)
  | 12 => do
    let (reg, bs) ← popByte bs
    let (target, bs) ← popU64 bs
    return (.jumpIfFalse reg target, bs)
  | 13 => do
    let (target, bs) ← popU64 bs
    return (.jump target, bs)
  | 17 => do
    let (length, bs) ← popU64 bs
    return (.initCall length, bs)
  | 18 => do
    let (index, bs) ← popU64 bs
    return (.insertArg index, bs)
  | 19 => do
    let ((length, offset, hash), bs) ← popName bs
    return (.setKeyWordArg length offset hash, bs)
  | 21 => do
    let ((line, column, length), bs) ← popName bs
    return (.sourceLocation line column length, bs)
  | 22 => do
    let (value, bs) ← popByte bs
    return (.loadBool (value ≠ 0), bs)
  | 23 => do
    let (reg, bs) ← popByte bs
    let (number, bs) ← NumberOperand.decode bs
    return (.loadNumber reg number, bs)
  | 24 => do
    let ((length, offset, hash), bs) ← popName bs
    let (reg, bs) ← popByte bs
    return (.assign length offset hash reg, bs)
  | 25 => do
    let (fromReg, bs) ← popByte bs
    let (toReg, bs) ← popByte bs
    return (.copyToRegister fromReg toReg, bs)
  | 50 => do
    let (length, bs) ← popU64 bs
    let (offset, bs) ← popU64 bs
    return (.createClass length offset, bs)
  | 54 => do
    let ((length, offset, hash), bs) ← popName bs
    return (.expose length offset hash, bs)
  | 59 => do
    let (iterator, bs) ← popByte bs
    let (next, bs) ← popByte bs
    return (.forLoopJump iterator next, bs)
  | 65 => do
    let (target, bs) ← popU64 bs
    return (.exceptionCatcherPush target, bs)
  | 74 => do
    let (expected, bs) ← popU64 bs
    let (reg, bs) ← popByte bs
    return (.destructureError expected reg, bs)
  | 75 => do
    let (next, bs) ← popByte bs
    return (.unpackIterator next, bs)
  | _ => none

/-- One turn of the dispatch loop: the opcode and the operands its handler pops. There is no handler
for other bytes. -/
def decode (bs : List UInt8) : Option (Instr × List UInt8) := do
  let (opcode, bs) ← popByte bs
  match Op.ofOpcode opcode.toNat with
  | some o => return (.op o, bs)
  | none =>
    match BinaryOp.ofOpcode opcode.toNat with
    | some o => do
      let (a, bs) ← popByte bs
      let (b, bs) ← popByte bs
      let (c, bs) ← popByte bs
      return (.binary o a b c, bs)
    | none => decodeOperands opcode.toNat bs

/-! ## The round trip -/

@[simp]
theorem popByte_cons (b : UInt8) (bs : List UInt8) : popByte (b :: bs) = some (b, bs) := rfl

@[simp]
theorem length_uint64ToBytes (value : UInt64) : (uint64ToBytes value).length = 8 := rfl

/-- A number is read back from its bytes. -/
@[simp]
theorem popU64_uint64ToBytes (value : UInt64) (bs : List UInt8) :
    popU64 (uint64ToBytes value ++ bs) = some (value, bs) := by
  have hbytes : uint64ToBytes value ++ bs =
      UInt8.ofNat (value.toNat >>> 0) :: UInt8.ofNat (value.toNat >>> 8) ::
      UInt8.ofNat (value.toNat >>> 16) :: UInt8.ofNat (value.toNat >>> 24) ::
      UInt8.ofNat (value.toNat >>> 32) :: UInt8.ofNat (value.toNat >>> 40) ::
      UInt8.ofNat (value.toNat >>> 48) :: UInt8.ofNat (value.toNat >>> 56) :: bs := rfl
  have hlt : value.toNat < 2^64 := value.toNat_lt
  rw [hbytes, popU64]
  simp only [Option.some.injEq, Prod.mk.injEq, and_true]
  rw [← UInt64.toNat_inj, UInt64.toNat_ofNat']
  simp only [UInt8.toNat_ofNat', Nat.shiftRight_eq_div_pow]
  omega

@[simp]
theorem popName_uint64ToBytes (a b c : UInt64) (bs : List UInt8) :
    popName (uint64ToBytes a ++ (uint64ToBytes b ++ (uint64ToBytes c ++ bs))) =
      some ((a, b, c), bs) := by
  simp [popName]

@[simp]
theorem boolByte_ne_zero (b : Bool) : (boolByte b ≠ 0) ↔ b = true := by
  cases b <;> decide

/-- The operands of a number literal are read back. -/
theorem NumberOperand.decode_encode (n : NumberOperand) (bs : List UInt8) :
    NumberOperand.decode (n.encode ++ bs) = some (n, bs) := by
  cases n with
  | int64 num => simp [NumberOperand.decode, NumberOperand.encode]
  | int numSize numPos isNegative =>
    cases isNegative <;> simp [NumberOperand.decode, NumberOperand.encode, boolByte]
  | rational numSize numPos isNegative denSize denPos =>
    cases isNegative <;> simp [NumberOperand.decode, NumberOperand.encode, boolByte]

theorem Op.ofOpcode_opcode (o : Op) : Op.ofOpcode o.opcode.toNat = some o := by
  cases o <;> rfl

theorem BinaryOp.ofOpcode_opcode (o : BinaryOp) :
    Op.ofOpcode o.opcode.toNat = none ∧ BinaryOp.ofOpcode o.opcode.toNat = some o := by
  cases o <;> exact ⟨rfl, rfl⟩

/-- An opcode outside the two tables is followed by the operands of its own handler. -/
theorem decode_cons {opcode : UInt8} (h : Op.ofOpcode opcode.toNat = none)
    (h' : BinaryOp.ofOpcode opcode.toNat = none) (bs : List UInt8) :
    decode (opcode :: bs) = decodeOperands opcode.toNat bs := by
  simp [decode, h, h']

/-- A handler pops exactly the operands of its instruction. -/
theorem decode_encode (i : Instr) (bs : List UInt8) : decode (i.encode ++ bs) = some (i, bs) := by
  cases i with
  | op o => simp [decode, Instr.encode, Op.ofOpcode_opcode]
  | binary o a b c =>
    obtain ⟨hop, hbinary⟩ := BinaryOp.ofOpcode_opcode o
    simp [decode, Instr.encode, hop, hbinary]
  | loadNumber reg number =>
    refine (decode_cons rfl rfl _).trans ?_
    simp [decodeOperands, NumberOperand.decode_encode]
  | loadBool value =>
    refine (decode_cons rfl rfl _).trans ?_
    cases value <;> rfl
  | _ =>
    refine (decode_cons rfl rfl _).trans ?_
    simp [decodeOperands]

theorem Instr.encode_ne_nil (i : Instr) : i.encode ≠ [] := by
  cases i <;> simp [Instr.encode]

end Chloride
