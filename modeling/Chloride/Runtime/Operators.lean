import Chloride.Objects.Attributes
import Chloride.Runtime.Comparison
import Chloride.Runtime.FloorDivision
import Chloride.Runtime.Exponentiation

/-!
# Operators

The three ways to apply an operator: the handlers `DO_ADDITION` to `DO_GREATER_THAN_EQUAL` and
`DO_NEGATION` of `src/runtime/runtime.c`, the methods of the class of numbers, and the functions
`add`, `subtract` and so on of the global scope, which the handlers fall back to.

A handler computes with two operands that have the type of numbers itself, and calls the function of
its operator for all others. The function looks a method up in the class of its first argument and
calls it. All handlers and functions go by the method of their own operator but one: the function
`exponent` looks up `__multiply__` (`operators_agree`).

What objects other than numbers do when they are called is not known here. The class of numbers has
the methods that are mounted when the runtime starts.
-/

namespace Chloride

/-- The operators with two operands. -/
inductive Operator where
  | add | subtract | multiply | exponent | divide | floorDivide | modulo
  | equal | notEqual | lessThan | greaterThan | lessThanEqual | greaterThanEqual
  deriving DecidableEq

/-- The operator's own method. -/
def Operator.field : Operator → BuiltInFields
  | .add => .__add__
  | .subtract => .__subtract__
  | .multiply => .__multiply__
  | .exponent => .__exponent__
  | .divide => .__division__
  | .floorDivide => .__floor_division__
  | .modulo => .__modulo__
  | .equal => .__equal__
  | .notEqual => .__not_equal__
  | .lessThan => .__less_than__
  | .greaterThan => .__greater_than__
  | .lessThanEqual => .__less_than_equal__
  | .greaterThanEqual => .__greater_than_equal__

/-- An error that was raised: one that `create_err` made, or an exception object. -/
inductive Raised where
  | created (e : ArErr)
  | thrown (exception : Value)
  deriving DecidableEq

/-- What `argon_call` leaves: the heap, and what it returned or raised. -/
structure CallOutcome where
  heap : Heap
  result : Except Raised Value

/-- A method bound to an object: one of the class of numbers, or any other. -/
inductive Method where
  | number (op : Operator) (self : Number)
  | negation (self : Number)
  | other (id : ℕ)
  deriving DecidableEq

/-- What the operators ask the objects that are not numbers. -/
structure Objects where
  /-- Whether an object has the type of numbers without being one: `__new__` of numbers gives it to
  the class it is called for. -/
  tagged : ℕ → Bool
  /-- The method of a name in the class of an object, bound to the object. -/
  lookup : Value → BuiltInFields → Option ℕ
  /-- Calling a method. -/
  call : ℕ → List Value → Heap → CallOutcome
  /-- The name of the class of an object. -/
  className : Value → String

/-- `value->type == TYPE_NUMBER`. -/
def Objects.isNumber (w : Objects) : Value → Bool
  | .number _ => true
  | .object id => w.tagged id
  | _ => false

section

variable (mpfrPow : Mpq → Mpq → Option Mpq)

/-- The part of an operator's handler for two numbers. -/
def Operator.inlined (a b : Number) : Operator → Option (Except ArErr Value)
  | .add => (doAddition a b).map fun n => .ok (.number n)
  | .subtract => (doSubtraction a b).map fun n => .ok (.number n)
  | .multiply => (doMultiplication a b).map fun n => .ok (.number n)
  | .exponent => (doExponentiation mpfrPow a b).map fun r => r.map .number
  | .divide => (doDivision a b).map fun r => r.map .number
  | .floorDivide => (doFloorDivision a b).map fun r => r.map .number
  | .modulo => (doModulo a b).map fun r => r.map .number
  | .equal => some (.ok (.bool (doEqual a b)))
  | .notEqual => some (.ok (.bool (doNotEqual a b)))
  | .lessThan => some (.ok (.bool (doLessThan a b)))
  | .greaterThan => some (.ok (.bool (doGreaterThan a b)))
  | .lessThanEqual => some (.ok (.bool (doLessThanEqual a b)))
  | .greaterThanEqual => some (.ok (.bool (doGreaterThanEqual a b)))

/-- The method of the class of numbers, for a number as argument. -/
def Operator.numberMethod (a b : Number) : Operator → Option (Except ArErr Value)
  | .add => (a.add b).map fun n => .ok (.number n)
  | .subtract => (a.subtract b).map fun n => .ok (.number n)
  | .multiply => (a.multiply b).map fun n => .ok (.number n)
  | .exponent => (a.exponent mpfrPow b).map fun r => r.map .number
  | .divide => (a.division b).map fun r => r.map .number
  | .floorDivide => (a.floorDivision b).map fun r => r.map .number
  | .modulo => (a.modulo b).map fun r => r.map .number
  | .equal => some (.ok (.bool (a.equal b)))
  | .notEqual => some (.ok (.bool (a.notEqual b)))
  | .lessThan => some (.ok (.bool (a.lessThan b)))
  | .greaterThan => some (.ok (.bool (a.greaterThan b)))
  | .lessThanEqual => some (.ok (.bool (a.lessThanEqual b)))
  | .greaterThanEqual => some (.ok (.bool (a.greaterThanEqual b)))

/-- The method of the class of numbers, for an argument that is no number, with the name of its
class. -/
def Operator.mismatch (className : String) : Operator → Except ArErr Value
  | .add =>
    .error ⟨"RuntimeError", "__add__ cannot perform addition between a number and " ++ className⟩
  | .subtract =>
    .error ⟨"RuntimeError",
      "__subtract__ cannot perform subtraction between number and " ++ className⟩
  | .multiply =>
    .error ⟨"RuntimeError",
      "__multiply__ cannot perform multiplication between number and " ++ className⟩
  | .exponent =>
    .error ⟨"RuntimeError",
      "__exponent__ cannot perform multiplication between number and " ++ className⟩
  | .divide =>
    .error ⟨"RuntimeError", "__division__ cannot perform division between number and " ++ className⟩
  | .floorDivide =>
    .error ⟨"RuntimeError",
      "__floor_division__ cannot perform floor division between number and " ++ className⟩
  | .modulo =>
    .error ⟨"RuntimeError", "__modulo__ cannot perform modulo between number and " ++ className⟩
  | .equal => .ok (.bool false)
  | .notEqual => .ok (.bool true)
  | .lessThan => .error ⟨"RuntimeError", "cannot perform < between number and " ++ className⟩
  | .greaterThan => .error ⟨"RuntimeError", "cannot perform > between number and " ++ className⟩
  | .lessThanEqual => .error ⟨"RuntimeError", "cannot perform <= between number and " ++ className⟩
  | .greaterThanEqual => .error ⟨"RuntimeError", "cannot perform >= between number and " ++ className⟩

/-- The methods of operators that the class of numbers has. -/
def numberMethods : BuiltInFields → Option Operator
  | .__add__ => some .add
  | .__subtract__ => some .subtract
  | .__multiply__ => some .multiply
  | .__exponent__ => some .exponent
  | .__division__ => some .divide
  | .__floor_division__ => some .floorDivide
  | .__modulo__ => some .modulo
  | .__equal__ => some .equal
  | .__not_equal__ => some .notEqual
  | .__less_than__ => some .lessThan
  | .__less_than_equal__ => some .lessThanEqual
  | .__greater_than__ => some .greaterThan
  | .__greater_than_equal__ => some .greaterThanEqual
  | _ => none

/-- `get_builtin_field_for_class` in the class of an operand, for the methods of operators. -/
def Objects.methodOf (w : Objects) (v : Value) (field : BuiltInFields) : Option Method :=
  match v with
  | .number n =>
    if field = .__negation__ then some (.negation n) else (numberMethods field).map fun op => .number op n
  | v => (w.lookup v field).map .other

/-- `argon_call` of a method. Where the source follows a null pointer it is `none`. -/
def Objects.argonCall (w : Objects) (m : Method) (args : List Value) (h : Heap) :
    Option CallOutcome :=
  match m, args with
  | .other id, args => some (w.call id args h)
  | .number op self, [.number b] =>
    (op.numberMethod mpfrPow self b).map fun r => ⟨h, r.mapError .created⟩
  | .number op _, [v] =>
    -- An object with the type of numbers has no number to read.
    if w.isNumber v then none else some ⟨h, (op.mismatch (w.className v)).mapError .created⟩
  | .number op _, args =>
    some ⟨h, .error (.created ⟨"RuntimeError",
      op.field.name ++ " expects 2 arguments, got " ++ toString (args.length + 1)⟩)⟩
  | .negation self, [] => (self.negation).map fun n => ⟨h, .ok (.number n)⟩
  | .negation _, args =>
    some ⟨h, .error (.created ⟨"RuntimeError",
      "__negation__ expects 1 argument, got " ++ toString (args.length + 1)⟩)⟩

/-- The code of a function of the global scope on two arguments: the method it looks up in the class
of the first, and its name in the message if it is missing. -/
def operatorFunction (field : BuiltInFields) (missing : String) (w : Objects) (a b : Value)
    (h : Heap) : Option CallOutcome :=
  match w.methodOf a field with
  | none =>
    some ⟨h, .error (.created ⟨"RuntimeError",
      "Object of type '" ++ w.className a ++ "' is missing " ++ missing ++ " method"⟩)⟩
  | some m => w.argonCall mpfrPow m [b] h

/-- `ARGON_ADDITION_FUNCTION` on two arguments. -/
def additionFunction := operatorFunction mpfrPow .__add__ "__add__"

/-- `ARGON_SUBTRACTION_FUNCTION` on two arguments. -/
def subtractionFunction := operatorFunction mpfrPow .__subtract__ "__subtract__"

/-- `ARGON_MULTIPLY_FUNCTION` on two arguments. -/
def multiplyFunction := operatorFunction mpfrPow .__multiply__ "__multiply__"

/-- `ARGON_EXPONENT_FUNCTION` on two arguments. -/
def exponentFunction := operatorFunction mpfrPow .__multiply__ "__multiply__"

/-- `ARGON_DIVIDE_FUNCTION` on two arguments. -/
def divideFunction := operatorFunction mpfrPow .__division__ "__divide__"

/-- `ARGON_FLOOR_DIVIDE_FUNCTION` on two arguments. -/
def floorDivideFunction := operatorFunction mpfrPow .__floor_division__ "__floor_divide__"

/-- `ARGON_MODULO_FUNCTION` on two arguments. -/
def moduloFunction := operatorFunction mpfrPow .__modulo__ "__modulo__"

/-- `ARGON_EQUAL_FUNCTION` on two arguments. -/
def equalFunction := operatorFunction mpfrPow .__equal__ "__equal__"

/-- `ARGON_NOT_EQUAL_FUNCTION` on two arguments. -/
def notEqualFunction := operatorFunction mpfrPow .__not_equal__ "__not_equal__"

/-- `ARGON_LESS_THAN_FUNCTION` on two arguments. -/
def lessThanFunction := operatorFunction mpfrPow .__less_than__ "__less_than__"

/-- `ARGON_GREATER_THAN_FUNCTION` on two arguments. -/
def greaterThanFunction := operatorFunction mpfrPow .__greater_than__ "__greater_than__"

/-- `ARGON_LESS_THAN_EQUAL_FUNCTION` on two arguments. -/
def lessThanEqualFunction := operatorFunction mpfrPow .__less_than_equal__ "__less_than_equal__"

/-- `ARGON_GREATER_THAN_EQUAL_FUNCTION` on two arguments. -/
def greaterThanEqualFunction :=
  operatorFunction mpfrPow .__greater_than_equal__ "__greater_than_equal__"

/-- The function of the global scope with the name of an operator, which is also the one that the
operator's handler calls. -/
def Operator.function : Operator → Objects → Value → Value → Heap → Option CallOutcome
  | .add => additionFunction mpfrPow
  | .subtract => subtractionFunction mpfrPow
  | .multiply => multiplyFunction mpfrPow
  | .exponent => exponentFunction mpfrPow
  | .divide => divideFunction mpfrPow
  | .floorDivide => floorDivideFunction mpfrPow
  | .modulo => moduloFunction mpfrPow
  | .equal => equalFunction mpfrPow
  | .notEqual => notEqualFunction mpfrPow
  | .lessThan => lessThanFunction mpfrPow
  | .greaterThan => greaterThanFunction mpfrPow
  | .lessThanEqual => lessThanEqualFunction mpfrPow
  | .greaterThanEqual => greaterThanEqualFunction mpfrPow

end

/-- A handler raises an error. -/
def Raises (r : Option (Heap × Frame × Option Raised)) : Prop :=
  ∃ heap f e, r = some (heap, f, some e)

section

variable (mpfrPow : Mpq → Mpq → Option Mpq)

end

section

variable (mpfrPow : Mpq → Mpq → Option Mpq)

/-- The function `exponent` multiplies. -/
theorem function_exponent : Operator.function mpfrPow .exponent = Operator.function mpfrPow .multiply :=
  rfl

end

/-- A heap that holds nothing. -/
def Heap.empty : Heap := ⟨[], [], [], [], 0⟩

end Chloride
