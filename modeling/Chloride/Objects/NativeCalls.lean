import Chloride.Objects.ArrayCallbacks
import Chloride.Objects.Attributes
import Chloride.Objects.Dictionary

/-!
# Native code that calls the program

What `argon_call` of `src/runtime/call/call.c` does to a native operation, and the operations that use it in
the middle of their work: `map`, `filter`, `sort` and `__contains__` of `src/runtime/objects/array/array.c`,
`hash_object` of `src/runtime/objects/object.c` in the methods of a dictionary, and the operator functions of
`src/runtime/runtime.c`. An error that a call raises is left in `err` beside the value of the call, which is
what the register of the frame holds then. Every call is recorded, and `Outcome.Stops` is what is asked of an
operation in which a call raises an error.
-/

namespace Chloride

namespace NativeCalls

variable {World Rest α : Type}

/-! ## Calls -/

/-- A function of the program. `run_call` refuses some numbers of arguments, or any if calls are nested too
deeply, and leaves the register as it is then. -/
structure UserFunction (World α : Type) where
  refuses : ℕ → Option ArErr
  register : World → α
  run : World → List α → Reply World α

/-- What can be called. -/
inductive Method (World α : Type) where
  | function (f : UserFunction World α)
  | native (call : Callee World α)

/-- `argon_call`. While an error is pending, `runtime` runs no instruction of a function, and the register of
the new frame is null. -/
def Method.call (null : α) : Method World α → Callee World α
  | .native call => call
  | .function f => fun w err args =>
    match f.refuses args.length, err with
    | some e, _ => ⟨f.register w, some e, w⟩
    | none, some e => ⟨null, some e, w⟩
    | none, none => f.run w args

/-- Whether instructions of the program are run by a call. -/
def Method.runs : Method World α → Option ArErr → List α → Bool
  | .native _, _, _ => false
  | .function f, err, args => (f.refuses args.length).isNone && err.isNone

/-- A call: whether it runs instructions of the program, the errors that are pending before and after, and
the worlds before and after. -/
structure CallRecord (World : Type) where
  runs : Bool
  pending : Option ArErr
  raised : Option ArErr
  before : World
  after : World

/-- The error in `err`: raised by a call, or made by the operation itself. -/
inductive Fault where
  | thrown (e : ArErr)
  | made (e : ArErr)
  deriving DecidableEq

def Fault.error : Fault → ArErr
  | .thrown e => e
  | .made e => e

/-- The error in `err` after a call. -/
def Fault.after (err : Option Fault) (raised : Option ArErr) : Option Fault :=
  if raised = err.map Fault.error then err else raised.map Fault.thrown

/-- The world, the error in `err`, and the calls so far. -/
structure NativeState (World : Type) where
  world : World
  err : Option Fault
  calls : List (CallRecord World)

/-- Native code, which ends without an answer where it reads through a null pointer or does not end. -/
abbrev NativeM (World : Type) := OptionT (StateM (NativeState World))

/-- The objects and classes that native code asks for, and a null pointer. -/
structure Interpreter (World α : Type) where
  null : α
  argonNull : α
  argonTrue : α
  argonFalse : α
  number : α → Option Number
  string : α → Option String
  address : α → UInt64
  method : BuiltInFields → World → α → Option (Method World α)
  className : World → α → Option String

/-- `api->is_error` -/
def isError : NativeM World Bool := do
  let s ← get
  return s.err.isSome

/-- `*err = create_err(..)` -/
def createErr (e : ArErr) : NativeM World Unit := modify fun s => { s with err := some (.made e) }

/-- `Object of type '%.*s' is missing .. method` -/
def missingError (name method : String) : ArErr :=
  ⟨"RuntimeError", "Object of type '" ++ name ++ "' is missing " ++ method ++ " method"⟩

namespace Interpreter

variable [DecidableEq α] (rt : Interpreter World α)

/-- `get_builtin_field_for_class(get_builtin_field(object, __class__), field, object)` -/
def methodOf (field : BuiltInFields) (w : World) (object : α) : Option (Method World α) :=
  if object = rt.null then none else rt.method field w object

/-- The name of the class of an object. -/
def classNameOf (w : World) (object : α) : Option String :=
  if object = rt.null then none else rt.className w object

/-- `argon_call` in native code. -/
def argonCall (m : Method World α) (args : List α) : NativeM World α := do
  let s ← get
  let pending := s.err.map Fault.error
  let r := m.call rt.null s.world pending args
  set ({
    world := r.world
    err := Fault.after s.err r.err
    calls := s.calls ++ [⟨m.runs pending args, pending, r.err, s.world, r.world⟩] } : NativeState World)
  return r.value

/-- An object has no such method; the error has the name of its class. -/
def missingMethod (method : String) (object : α) : NativeM World α := do
  let s ← get
  let name ← (rt.classNameOf s.world object).getM
  createErr (missingError name method)
  return rt.argonNull

/-- `.. expects .., got %` -/
def wrongArgc (expects : String) (argc : ℕ) : NativeM World α := do
  createErr ⟨"RuntimeError", expects ++ ", got " ++ toString argc⟩
  return rt.argonNull

end Interpreter

/-! ## What is asked of an operation -/

/-- What became of an operation: whether it returned, the error it reports, the world it leaves and its
calls. -/
structure Outcome (World : Type) where
  returned : Bool
  err : Option Fault
  world : World
  calls : List (CallRecord World)

/-- Between a world and another, nothing but the calls has changed anything. -/
def Follows : World → List (CallRecord World) → World → Prop
  | w, [], w' => w = w'
  | w, c :: calls, w' => c.before = w ∧ Follows c.after calls w'

/-- A call raises an error, with none pending. -/
structure Raises (calls earlier : List (CallRecord World)) (c : CallRecord World)
    (later : List (CallRecord World)) (e : ArErr) : Prop where
  split : calls = earlier ++ c :: later
  pending : c.pending = none
  raised : c.raised = some e

/-- No call runs anything or puts another error in the place of the first. -/
def Quiet (e : ArErr) (later : List (CallRecord World)) : Prop :=
  ∀ d ∈ later, d.runs = false ∧ d.raised = some e

/-- Once a call raises an error, nothing of the program is run, that error is the one that is reported, and
the world is as the calls left it. -/
def Outcome.Stops (start : World) (o : Outcome World) : Prop :=
  ∀ earlier c later e, Raises o.calls earlier c later e →
    Quiet e later ∧ o.returned = true ∧ o.err = some (.thrown e) ∧ Follows start o.calls o.world

/-- An operation runs, with no error pending. -/
def outcome (m : NativeM World α) (w : World) : Outcome World :=
  let r := m.run.run ⟨w, none, []⟩
  ⟨r.1.isSome, r.2.err, r.2.world, r.2.calls⟩

/-! ## Methods of arrays -/

/-- A world of an array with the calls so far. -/
abbrev LoggedWorld (Rest α : Type) := ArrayWorld (Rest × List (CallRecord (ArrayWorld Rest α))) α

def forget (w : LoggedWorld Rest α) : ArrayWorld Rest α := ⟨w.array, w.block, w.rest.1⟩

/-- A world, with no calls yet. -/
def logged (w : ArrayWorld Rest α) : LoggedWorld Rest α := ⟨w.array, w.block, w.rest, []⟩

/-- The world that a call leaves, and the record of the call. -/
def afterCall (w : LoggedWorld Rest α) (runs : Bool) (pending raised : Option ArErr)
    (after : ArrayWorld Rest α) : LoggedWorld Rest α :=
  ⟨after.array, after.block, after.rest, w.rest.2 ++ [⟨runs, pending, raised, forget w, after⟩]⟩

/-- A method that is given to a method of an array, which it may change as it likes, but not break. -/
structure ArrayCallback (Rest α : Type) (null : α) where
  method : Method (ArrayWorld Rest α) α
  wellFormed : ∀ w err args, w.WellFormed → (method.call null w err args).world.WellFormed

/-- The calls of a callback are recorded. -/
def ArrayCallback.logged {null : α} (callback : ArrayCallback Rest α null) :
    Callback (Rest × List (CallRecord (ArrayWorld Rest α))) α where
  call w err args :=
    let r := callback.method.call null (forget w) err args
    ⟨r.value, r.err, afterCall w (callback.method.runs err args) err r.err r.world⟩
  wellFormed w err args h := callback.wellFormed (forget w) err args h

/-- What is asked of the program about a value is recorded. -/
def loggedTruthiness (t : ArrayCallbacks.Truthiness Rest α) :
    ArrayCallbacks.Truthiness (Rest × List (CallRecord (ArrayWorld Rest α))) α where
  call w value :=
    let r := t.call (forget w) value
    ⟨r.value, r.err, afterCall w true none r.err r.world⟩
  wellFormed w value h := t.wellFormed (forget w) value h

/-- `ARRAY_TYPE_map` and `ARRAY_TYPE_filter`: every error is one that a call left. -/
def methodOutcome (r : Option Unit × ArrayCallbacks.MethodState
    (Rest × List (CallRecord (ArrayWorld Rest α))) α) : Outcome (ArrayWorld Rest α) :=
  ⟨r.1.isSome, r.2.err.map .thrown, forget r.2.world, r.2.world.rest.2⟩

/-- The error of a sort: the comparator's, if the last call left one, and that of `argon_to_i64`
otherwise. -/
def sortFault (calls : List (CallRecord World)) (err : Option ArErr) : Option Fault :=
  if (calls.getLast?.bind CallRecord.raised).isSome then err.map .thrown else err.map .made

/-- `ARRAY_TYPE_sort` -/
def sortOutcome (r : Option Unit × Sorting.SortState (LoggedWorld Rest α) α) :
    Outcome (ArrayWorld Rest α) :=
  ⟨r.1.isSome, sortFault r.2.world.rest.2 r.2.err, forget r.2.world, r.2.world.rest.2⟩

section Contains

variable [DecidableEq α] (rt : Interpreter (ArrayWorld Rest α) α)

/-- The loop of `ARRAY_TYPE___contains__` from an item on, for so many rounds. -/
def containsFrom (object__equal__ : Method (ArrayWorld Rest α) α) :
    ℕ → ℕ → NativeM (ArrayWorld Rest α) α
  | 0, i => do
    let s ← get
    if i < s.world.array.size.toNat then failure else return rt.argonFalse
  | fuel + 1, i => do
    let s ← get
    if i < s.world.array.size.toNat then
      let item ← (s.world.array.get (UInt64.ofNat i)).getM
      let result ← rt.argonCall object__equal__ [item]
      let raised ← isError
      if raised then return rt.argonNull
      else if result = rt.argonTrue then return result
      else containsFrom object__equal__ fuel (i + 1)
    else return rt.argonFalse

/-- `ARRAY_TYPE___contains__` -/
def arrayContains (fuel : ℕ) : List α → NativeM (ArrayWorld Rest α) α
  | [_, object] => do
    let s ← get
    match rt.methodOf .__equal__ s.world object with
    | none => rt.missingMethod "__equal__" object
    | some object__equal__ => containsFrom rt object__equal__ fuel 0
  | argv => rt.wrongArgc "__contains__ expects 2 arguments" argv.length

end Contains

/-! ## Operators -/

/-- A function of an operator: what it is called in its error, the method it calls, and what the method is
called in its error. -/
structure BuiltinOperator where
  called : String
  field : BuiltInFields
  method : String
  deriving DecidableEq

/-- `ARGON_ADDITION_FUNCTION` -/
def additionFunction : BuiltinOperator := ⟨"add", .__add__, "__add__"⟩

/-- `ARGON_SUBTRACTION_FUNCTION` -/
def subtractionFunction : BuiltinOperator := ⟨"subtract", .__subtract__, "__subtract__"⟩

/-- `ARGON_MULTIPLY_FUNCTION` -/
def multiplyFunction : BuiltinOperator := ⟨"multiply", .__multiply__, "__multiply__"⟩

/-- `ARGON_EXPONENT_FUNCTION`, which has the name and the method of the one before it. -/
def exponentFunction : BuiltinOperator := ⟨"multiply", .__multiply__, "__multiply__"⟩

/-- `ARGON_DIVIDE_FUNCTION` -/
def divideFunction : BuiltinOperator := ⟨"divide", .__division__, "__divide__"⟩

/-- `ARGON_FLOOR_DIVIDE_FUNCTION` -/
def floorDivideFunction : BuiltinOperator := ⟨"floor_divide", .__floor_division__, "__floor_divide__"⟩

/-- `ARGON_MODULO_FUNCTION` -/
def moduloFunction : BuiltinOperator := ⟨"modulo", .__modulo__, "__modulo__"⟩

/-- `ARGON_EQUAL_FUNCTION` -/
def equalFunction : BuiltinOperator := ⟨"equal", .__equal__, "__equal__"⟩

/-- `ARGON_NOT_EQUAL_FUNCTION` -/
def notEqualFunction : BuiltinOperator := ⟨"not_equal", .__not_equal__, "__not_equal__"⟩

/-- `ARGON_LESS_THAN_FUNCTION` -/
def lessThanFunction : BuiltinOperator := ⟨"less_than", .__less_than__, "__less_than__"⟩

/-- `ARGON_GREATER_THAN_FUNCTION` -/
def greaterThanFunction : BuiltinOperator := ⟨"greater_than", .__greater_than__, "__greater_than__"⟩

/-- `ARGON_LESS_THAN_EQUAL_FUNCTION` -/
def lessThanEqualFunction : BuiltinOperator :=
  ⟨"less_than_equal", .__less_than_equal__, "__less_than_equal__"⟩

/-- `ARGON_GREATER_THAN_EQUAL_FUNCTION` -/
def greaterThanEqualFunction : BuiltinOperator :=
  ⟨"greater_than_equal", .__greater_than_equal__, "__greater_than_equal__"⟩

/-- The functions of the operators. -/
inductive IsOperator : BuiltinOperator → Prop where
  | addition : IsOperator additionFunction
  | subtraction : IsOperator subtractionFunction
  | multiply : IsOperator multiplyFunction
  | exponent : IsOperator exponentFunction
  | divide : IsOperator divideFunction
  | floorDivide : IsOperator floorDivideFunction
  | modulo : IsOperator moduloFunction
  | equal : IsOperator equalFunction
  | notEqual : IsOperator notEqualFunction
  | lessThan : IsOperator lessThanFunction
  | greaterThan : IsOperator greaterThanFunction
  | lessThanEqual : IsOperator lessThanEqualFunction
  | greaterThanEqual : IsOperator greaterThanEqualFunction

section Operators

variable [DecidableEq α] (rt : Interpreter World α) (op : BuiltinOperator)

/-- The loop of an operator's function. -/
def operateFrom : α → List α → NativeM World α
  | output, [] => return output
  | output, arg :: argv => do
    let s ← get
    match rt.methodOf op.field s.world output with
    | none => rt.missingMethod op.method output
    | some m =>
      let output ← rt.argonCall m [arg]
      operateFrom output argv

/-- The function of an operator. -/
def operate : List α → NativeM World α
  | [] => rt.wrongArgc (op.called ++ " expects at least 1 argument") 0
  | output :: argv => operateFrom rt op output argv

end Operators

/-! ## Dictionaries -/

/-- The dictionary that a method is called on, as it is at some time, and everything else. -/
structure DictionaryWorld (Rest α : Type) where
  items : HashmapGC α α
  rest : Rest

section Dictionaries

variable [DecidableEq α]

/-- The error of a hash that is no 64-bit integer. -/
def hashError : ArErr := ⟨"RuntimeError", "hash result needs to be a 64 bit integer."⟩

/-- `hash_object` -/
def hashObject (rt : Interpreter World α) (object : α) : NativeM World UInt64 := do
  let s ← get
  match rt.methodOf .__hash__ s.world object with
  | none => return rt.address object
  | some hash_function =>
    let hash_result ← rt.argonCall hash_function []
    if hash_result = rt.null then failure
    else
      match rt.number hash_result with
      | some (.i64 n) => return n.toUInt64
      | _ =>
        createErr hashError
        return 0

/-- `argon_object_to_null_terminated_string` -/
def nullTerminatedString (rt : Interpreter World α) (object : α) : NativeM World String := do
  let s ← get
  match rt.methodOf .__repr__ s.world object with
  | none => return "<object>"
  | some string_convert_method =>
    let string_object ← rt.argonCall string_convert_method []
    let raised ← isError
    if raised then return ""
    else if string_object = rt.null then failure
    else return (rt.string string_object).getD "<object>"

variable (rt : Interpreter (DictionaryWorld Rest α) α)

/-- The beginning of each method: the hash of the key, and what is done with it if there is no error. -/
def withHash (key : α) (work : UInt64 → NativeM (DictionaryWorld Rest α) α) :
    NativeM (DictionaryWorld Rest α) α := do
  let hash ← hashObject rt key
  let raised ← isError
  if raised then return rt.argonNull else work hash

/-- `Dictionary has no item %s` -/
def dictionaryNoItem (key : α) : NativeM (DictionaryWorld Rest α) α := do
  let object_str ← nullTerminatedString rt key
  let raised ← isError
  if raised then return rt.argonNull
  else
    createErr ⟨"AttributeError", "Dictionary has no item " ++ object_str⟩
    return rt.argonNull

/-- `ARGON_DICTIONARY_TYPE___contains__` -/
def dictionaryContains : List α → NativeM (DictionaryWorld Rest α) α
  | [_, key] => withHash rt key fun hash => do
    let s ← get
    return if (s.world.items.lookup hash).isSome then rt.argonTrue else rt.argonFalse
  | argv => rt.wrongArgc "__contains__ expects 2 arguments" argv.length

/-- `ARGON_DICTIONARY_TYPE___getitem__` -/
def dictionaryGetitem : List α → NativeM (DictionaryWorld Rest α) α
  | [_, key] => withHash rt key fun hash => do
    let s ← get
    match s.world.items.lookup hash with
    | none => dictionaryNoItem rt key
    | some result => return result
  | argv => rt.wrongArgc "__getitem__ expects 2 arguments" argv.length

/-- `ARGON_DICTIONARY_TYPE___setitem__` -/
def dictionarySetitem : List α → NativeM (DictionaryWorld Rest α) α
  | [_, key, value] => withHash rt key fun hash => do
    let s ← get
    let items ← (s.world.items.insert hash key value 0).getM
    set { s with world := { s.world with items := items } }
    return value
  | argv => rt.wrongArgc "__setitem__ expects 3 arguments" argv.length

/-- `ARGON_DICTIONARY_TYPE___delitem__` -/
def dictionaryDelitem : List α → NativeM (DictionaryWorld Rest α) α
  | [_, key] => withHash rt key fun hash => do
    let s ← get
    let (removed, items) := s.world.items.remove hash
    set { s with world := { s.world with items := items } }
    if removed then return rt.argonNull else dictionaryNoItem rt key
  | argv => rt.wrongArgc "__delitem__ expects 2 arguments" argv.length

/-- `ARGON_DICTIONARY_TYPE_value_get` -/
def dictionaryValueGet : List α → NativeM (DictionaryWorld Rest α) α
  | [_, key] => withHash rt key fun hash => do
    let s ← get
    return (s.world.items.lookup hash).getD rt.argonNull
  | [_, key, default] => withHash rt key fun hash => do
    let s ← get
    return (s.world.items.lookup hash).getD default
  | argv => rt.wrongArgc "value_get expects 2 or 3 arguments" argv.length

/-- The methods of a dictionary that hash a key. -/
inductive DictionaryMethod where
  | __contains__
  | __getitem__
  | __setitem__
  | __delitem__
  | value_get
  deriving DecidableEq

def DictionaryMethod.run : DictionaryMethod → List α → NativeM (DictionaryWorld Rest α) α
  | .__contains__ => dictionaryContains rt
  | .__getitem__ => dictionaryGetitem rt
  | .__setitem__ => dictionarySetitem rt
  | .__delitem__ => dictionaryDelitem rt
  | .value_get => dictionaryValueGet rt

end Dictionaries

end NativeCalls

end Chloride
