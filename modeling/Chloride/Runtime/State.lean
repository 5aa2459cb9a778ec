import Chloride.Containers.HashTable
import Chloride.Objects.Number
import Chloride.Bytecode.Instr

/-!
# The state of the virtual machine

The structures of `src/runtime/runtime.h`, as far as the dispatch loop uses them. What a pointer of
the source points to is kept in a `Heap` and named by its place there. A scope and a call instance
never change their `prev` and `previous`, so a pointer to one is the list of the places it leads to,
the nearest first; what the scopes and call instances hold is in the heap.

Objects are values: the numbers, strings and constants the loop looks into, and places for
functions and for everything else. What the operations on other objects answer is not part of the
machine; it comes in with each step.
-/

namespace Chloride

/-- An `ArgonObject *`. -/
inductive Value where
  | null
  | bool (b : Bool)
  | number (n : Number)
  | string (data : List UInt8)
  | function (id : ℕ)
  | object (id : ℕ)
  deriving DecidableEq

/-- The part of a `Translated` that the frames running its code read. -/
structure Module where
  /-- The number of registers each of its frames has. -/
  registerCount : ℕ
  /-- `init_translator` starts with one register, and `set_registers` only raises the number. -/
  registerCount_pos : 0 < registerCount
  /-- The bytes of the top-level code. -/
  bytecode : List UInt8
  /-- The bytes of the constant arena. -/
  constants : List UInt8

instance : DecidableEq Module := fun m m' =>
  decidable_of_iff (m.registerCount = m'.registerCount ∧ m.bytecode = m'.bytecode ∧ m.constants = m'.constants)
    (by cases m; cases m'; simp)

/-- `struct argon_function_struct`: the module whose code it is, its code, and the scope it was made
in. -/
structure FunctionObject where
  module : Module
  bytecode : List UInt8
  stack : List ℕ
  deriving DecidableEq

/-- `struct call_instance`; `site` is the offset of the `OP_INIT_CALL` that opened it, which the
source does not keep. -/
structure CallInstance where
  site : ℕ
  toCall : Value
  args : List Value
  kwargs : List (UInt64 × Value)
  deriving DecidableEq

/-- `struct ErrorCatch`. -/
structure ErrorCatch where
  jumpTo : ℕ
  stack : List ℕ
  stackFrame : ℕ
  callInstance : List ℕ
  deriving DecidableEq

/-- `struct StackFrame` with its `RuntimeState`. `ip` is the instruction pointer of the loop while
the frame runs, and `head` while it waits; `id` is the address of the frame. The catchers are listed
from the last. -/
structure Frame where
  id : ℕ
  module : Module
  bytecode : List UInt8
  registers : List Value
  ip : ℕ
  callInstance : List ℕ
  catchErrors : List ErrorCatch
  loadNumberCache : ℕ
  cDepth : ℕ
  stack : List ℕ
  sourceLocation : SourceLocation
  deriving DecidableEq

/-- What the pointers of the frames point to. A scope is its names' hashes with their values, a
number cache its keys with the numbers. -/
structure Heap where
  scopes : List (List (UInt64 × Value))
  calls : List CallInstance
  functions : List FunctionObject
  caches : List (List (UInt64 × Number))
  frames : ℕ
  deriving DecidableEq

/-- The answer of the operations on objects that a handler calls: the object they give, the error
they raise, the exception object if the handler itself creates one, and what calls made on the way
leave in register 0. -/
structure Answer where
  value : Value
  err : Option Value
  exception : Value
  register0 : Option Value
  items : List Value
  entries : List (UInt64 × Value)
  deriving DecidableEq

/-! ## Numbers in the constants -/

/-- `arena_get`, with the length of the data that is read. -/
def Module.arenaGet (m : Module) (offset length : UInt64) : Option (List UInt8) :=
  if offset.toNat + length.toNat ≤ m.constants.length then
    some ((m.constants.drop offset.toNat).take length.toNat)
  else none

/-- `mpz_import` of one-byte words, the most significant first. -/
def mpzImport (data : List UInt8) : ℕ := data.foldl (fun n b => 256 * n + b.toNat) 0

/-- `new_number_object`: an integer that fits 64 bits is stored as one. -/
def newNumberObject (q : Mpq) : Number :=
  match mpqToInt64 q with
  | some n => .i64 n
  | none => .mpq q

/-- The number that the operands of `OP_LOAD_NUMBER` stand for in a module, read from its own
constants. -/
def Module.numberAt (m : Module) : NumberOperand → Option Number
  | .int64 num => some (.i64 num.toInt64)
  | .int numSize numPos isNegative => do
    let num ← m.arenaGet numPos numSize
    let num : ℤ := mpzImport num
    return newNumberObject ⟨if isNegative then -num else num, 1, by decide⟩
  | .rational numSize numPos isNegative denSize denPos => do
    let num ← m.arenaGet numPos numSize
    let den ← m.arenaGet denPos denSize
    let num : ℤ := mpzImport num
    if h : 0 < mpzImport den then
      return newNumberObject ⟨if isNegative then -num else num, mpzImport den, h⟩
    else none

/-- `hash_u64`. -/
def hashU64 (h x : UInt64) : UInt64 :=
  h ^^^ (mix64 x + 0x9e3779b97f4a7c15 + (h <<< (6 : UInt64)) + (h >>> (2 : UInt64)))

/-- `make_id`. -/
def makeId (numSize numPos : UInt64) (isInt isNegative : Bool) (denSize denPos : UInt64) :
    UInt64 :=
  let h := hashU64 0 numSize
  let h := hashU64 h numPos
  let h := hashU64 h (boolByte isInt).toUInt64
  let h := hashU64 h (boolByte isNegative).toUInt64
  if isInt then h else hashU64 (hashU64 h denSize) denPos

/-- The key of a number literal in the cache; a 64-bit integer has none. -/
def NumberOperand.cacheKey : NumberOperand → Option UInt64
  | .int64 _ => none
  | .int numSize numPos isNegative => some (makeId numSize numPos true isNegative 0 0)
  | .rational numSize numPos isNegative denSize denPos =>
    some (makeId numSize numPos false isNegative denSize denPos)

/-! ## The parts of a state -/

/-- The register array: reading outside of it is undefined. -/
def Frame.read (f : Frame) (register : UInt8) : Option Value := f.registers[register.toNat]?

/-- Writing a register; outside of the array it is undefined. -/
def Frame.write (f : Frame) (register : UInt8) (v : Value) : Option Frame :=
  if register.toNat < f.registers.length then
    some { f with registers := f.registers.set register.toNat v }
  else none

theorem Frame.read_write {f f' : Frame} {register : UInt8} {v : Value}
    (h : f.write register v = some f') : f'.read register = some v := by
  unfold Frame.write at h
  split at h
  case isTrue hlt =>
    cases h
    exact List.getElem?_set_self hlt
  case isFalse => cases h

/-- A register that there is can be written. -/
theorem Frame.exists_write {f : Frame} {register : UInt8} (v : Value)
    (h : register.toNat < f.registers.length) :
    ∃ f', f.write register v = some f' ∧ f'.registers.length = f.registers.length :=
  ⟨_, if_pos h, List.length_set⟩

/-- What a scope holds. -/
def Heap.scope (h : Heap) (id : ℕ) : List (UInt64 × Value) := h.scopes.getD id []

/-- Change what a scope holds. -/
def Heap.setScope (h : Heap) (id : ℕ) (vars : List (UInt64 × Value)) : Heap :=
  { h with scopes := h.scopes.set id vars }

/-- The first scope of a chain that has a name. -/
def Heap.resolve (h : Heap) (stack : List ℕ) (hash : UInt64) : Option (ℕ × Value) :=
  stack.findSome? fun id => (find (h.scope id) hash).map fun v => (id, v)

end Chloride
