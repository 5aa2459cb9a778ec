import Chloride.Containers.Runs
import Chloride.Logic.Enclosing
import Chloride.Runtime.State

/-!
# `json.stringify`

`stringify` of `src/stdlib/json/init.ar`. What it asks of objects (their equality, what they are
instances of, what iterating them yields, their `__json__`) is a parameter. A `__json__` method may call
`stringify` again, with any list, and go on with the answer or with the error.

The list of the enclosing containers is the parameter `parents`, whose default is made once, with the
function: it is the list 0 of the store. The same program, with the lists passed down instead, is what
`stringify` would be without memory.
-/

namespace Chloride

open Enclosing

/-! ## The objects -/

/-- The classes `stringify` knows. -/
inductive JsonClass where
  | string | number | dictionary | array
  deriving DecidableEq

/-- What `stringify` throws: its own errors, that of `join` at an index, and those of the objects. -/
inductive JsonError where
  | circular
  | unserialisable (value : Value)
  | notString (index : ℕ)
  | raised (e : Value)
  deriving DecidableEq

/-- What a `__json__` method does: it answers, throws, or calls `stringify`, where it may catch the
error. The list it gets it only passes on. -/
inductive JsonMethod where
  | return_ (value : Value)
  | throw (e : Value)
  | stringify (value pretty : Value) (parents : ℕ) (indent : Value) (k : Value → JsonMethod)
  | tryStringify (value pretty : Value) (parents : ℕ) (indent : Value)
      (k : Except JsonError Value → JsonMethod)

/-- The objects: what they answer, or the error that they raise. Iterating one yields its members and
may end with an error. -/
structure World where
  isInstance : Value → JsonClass → Bool
  /-- `a.__equal__(b)`. -/
  equal : Value → Value → Except Value Value
  /-- `bool(a)`, as conditions take it. -/
  bool : Value → Except Value Bool
  repr : Value → Except Value Value
  entries : Value → List (Value × Value) × Option Value
  items : Value → List Value × Option Value
  /-- `string(a)`. -/
  string : Value → Except Value Value
  /-- `indent.repeat(n)`. -/
  repeat_ : Value → ℕ → Except Value Value
  /-- `"__json__" in a.__dir__()`. -/
  hasJson : Value → Except Value Bool
  /-- `a.__json__(pretty, parents)`, of a list with its members. -/
  json : Value → Value → ℕ → List Value → JsonMethod

/-! ## The function -/

section

variable (W : World)

/-- `value in parents`. -/
def World.isIn (value : Value) : List Value → Except Value Bool
  | [] => .ok false
  | parent :: parents => do
    let result ← W.equal value parent
    if result = .bool true then return true else World.isIn value parents

/-- The condition of the first `if`: the value is a string, a number, or equal to a constant. -/
def World.isScalar (value : Value) : Except Value Bool := do
  if W.isInstance value .string || W.isInstance value .number then return true
  if ← W.bool (← W.equal value .null) then return true
  if ← W.bool (← W.equal value (.bool true)) then return true
  W.bool (← W.equal value (.bool false))

/-- `output.join("")`. -/
def joinStrings : ℕ → List Value → Except JsonError (List UInt8)
  | _, [] => .ok []
  | i, .string data :: output => do return data ++ (← joinStrings (i + 1) output)
  | i, _ :: _ => .error (.notString i)

/-- A string of one character. -/
def charString (c : Char) : Value := .string [c.toNat.toUInt8]

variable {m : Type → Type} [Tracks ℕ Value JsonError m]

/-- An error of the objects is thrown. -/
def ask {α : Type} : Except Value α → m α
  | .ok a => pure a
  | .error e => throw (.raised e)

/-- The result of a function that throws its own errors. -/
def answer {α : Type} : Except JsonError α → m α
  | .ok a => pure a
  | .error e => throw e

/-- The line break and the indentation of a pretty text. -/
def newLine (pretty indent : Value) (parents : ℕ) : m (List Value) := do
  if ← ask (W.bool pretty) then
    let enclosing ← enclosing parents
    return [charString '\n', ← ask (W.repeat_ indent enclosing.length)]
  else return []

/-- The comma before all members but the first. -/
def comma (isFirst : Bool) : List Value := if isFirst then [] else [charString ',']

/-- The loop over the items of an array; `call` is the recursive call. -/
def stringifyItems (pretty indent : Value) (parents : ℕ) (call : Value → m Value) :
    Bool → List Value → m (List Value)
  | _, [] => return []
  | isFirst, item :: items => do
    let line ← newLine W pretty indent parents
    let text ← call item
    let rest ← stringifyItems pretty indent parents call false items
    return comma isFirst ++ line ++ [text] ++ rest

/-- The loop over the entries of a dictionary. -/
def stringifyEntries (pretty indent : Value) (parents : ℕ) (call : Value → m Value) :
    Bool → List (Value × Value) → m (List Value)
  | _, [] => return []
  | isFirst, (key, value) :: entries => do
    let line ← newLine W pretty indent parents
    let keyText ← call (← ask (W.string key))
    let space ← (do if ← ask (W.bool pretty) then return [charString ' '] else return [])
    let text ← call value
    let rest ← stringifyEntries pretty indent parents call false entries
    return comma isFirst ++ line ++ [keyText, charString ':'] ++ space ++ [text] ++ rest

/-- The error that iterating an object ended with. -/
def endOfIteration : Option Value → m Unit
  | none => return
  | some e => throw (.raised e)

/-- The line break before the closing bracket, if there was a member. -/
def lastLine (pretty indent : Value) (parents : ℕ) (isEmpty : Bool) : m (List Value) := do
  if (← ask (W.bool pretty)) && !isEmpty then
    let enclosing ← enclosing parents
    return [charString '\n', ← ask (W.repeat_ indent enclosing.length)]
  else return []

/-- The calls of a `__json__` method. -/
def runMethod (call : Value → Value → ℕ → Value → m Value) : JsonMethod → m Value
  | .return_ value => return value
  | .throw e => throw (.raised e)
  | .stringify value pretty parents indent k => do runMethod call (k (← call value pretty parents indent))
  | .tryStringify value pretty parents indent k => do
    runMethod call (k (← attempt (call value pretty parents indent)))

/-- `stringify`, for calls that are nested to a depth. -/
def stringify : ℕ → Value → Value → ℕ → Value → m Value
  | 0, _, _, _, _ => unfinished
  | depth + 1, value, pretty, parents, indent => do
    if ← ask (W.isIn value (← enclosing parents)) then throw .circular
    else if ← ask (W.isScalar value) then ask (W.repr value)
    else if W.isInstance value .dictionary then
      let entries := W.entries value
      let output ← within parents value do
        let output ← stringifyEntries W pretty indent parents
          (fun value => stringify depth value pretty parents indent) true entries.1
        endOfIteration entries.2
        return output
      let line ← lastLine W pretty indent parents entries.1.isEmpty
      return .string (← answer (joinStrings 0 ([charString '\x7b'] ++ output ++ line ++ [charString '\x7d'])))
    else if W.isInstance value .array then
      let items := W.items value
      let output ← within parents value do
        let output ← stringifyItems W pretty indent parents
          (fun value => stringify depth value pretty parents indent) true items.1
        endOfIteration items.2
        return output
      let line ← lastLine W pretty indent parents items.1.isEmpty
      return .string (← answer (joinStrings 0 ([charString '['] ++ output ++ line ++ [charString ']'])))
    else if ← ask (W.hasJson value) then
      within parents value do
        runMethod (stringify depth) (W.json value pretty parents (← enclosing parents))
    else throw (.unserialisable value)

end

/-! ## With the lists in a store and without -/

section

variable (W : World)

section

variable {call : Value → Stored ℕ Value JsonError Value} {call' : Value → Scoped ℕ Value JsonError Value}

end

end

/-! ## Circular values -/

/-- The method may call `stringify` with a value. -/
inductive JsonMethod.Passes (w : Value) : JsonMethod → Prop where
  | call {pretty parents indent k} : Passes w (.stringify w pretty parents indent k)
  | tryCall {pretty parents indent k} : Passes w (.tryStringify w pretty parents indent k)
  | later {value pretty parents indent k} (answer : Value) :
    Passes w (k answer) → Passes w (.stringify value pretty parents indent k)
  | tryLater {value pretty parents indent k} (answer : Except JsonError Value) :
    Passes w (k answer) → Passes w (.tryStringify value pretty parents indent k)

section

variable (W : World)

/-- What `stringify` is called with for a value: its items, its keys as strings and its values, and what
its `__json__` passes. -/
inductive World.Child (v : Value) : Value → Prop where
  | item {w : Value} : w ∈ (W.items v).1 → Child v w
  | key {key value w : Value} : (key, value) ∈ (W.entries v).1 → W.string key = .ok w → Child v w
  | value {key w : Value} : (key, w) ∈ (W.entries v).1 → Child v w
  | json {w pretty : Value} {parents : ℕ} {enclosing : List Value} :
    (W.json v pretty parents enclosing).Passes w → Child v w

/-- The value, or something within it, is equal to another value. -/
def World.Meets (v p : Value) : Prop :=
  ∃ w, Relation.ReflTransGen W.Child v w ∧ W.equal w p = .ok (.bool true)

/-- All that is in the lists encloses the value, and nothing within the value is equal to it. -/
structure World.Encloses (L : Lists ℕ Value) (v : Value) : Prop where
  acyclic : ∀ p c, Relation.ReflTransGen W.Child v p → W.Child p c → ¬W.Meets c p
  apart : ∀ i, ∀ p ∈ L i, ¬W.Meets v p

variable {W} {L : Lists ℕ Value} {v : Value}

/-- What encloses a value and the value itself enclose what is in it. -/
theorem World.Encloses.child (h : W.Encloses L v) (i : ℕ) {c : Value} (hc : W.Child v c) :
    W.Encloses (L.push i v) c where
  acyclic p c' hp hc' := h.acyclic p c' (.head hc hp) hc'
  apart j p hp := by
    have hin : p ∈ L j ∨ p = v := by
      unfold Lists.push at hp
      by_cases hj : j = i
      · subst hj
        rw [Function.update_self] at hp
        simpa using hp
      · rw [Function.update_of_ne hj] at hp
        exact .inl hp
    rcases hin with hp | rfl
    · rintro ⟨w, hw, heq⟩
      exact h.apart j p hp ⟨w, .head hc hw, heq⟩
    · exact h.acyclic p c .refl hc

section

variable {call : Value → Scoped ℕ Value JsonError Value}

end

end

/-! ## Runs -/

/-- A call of `stringify`. Where it leaves out the other arguments they have their defaults. -/
structure StringifyCall where
  value : Value
  pretty : Value := .bool false
  parents : Option ℕ := none
  indent : Value := .string (List.replicate 4 0x20)
  deriving DecidableEq

namespace StringifyCall

variable (W : World)

/-- The call, to a depth. The default of `parents` is the list 0, in every call. -/
def eval {m : Type → Type} [Tracks ℕ Value JsonError m] (depth : ℕ) (c : StringifyCall) : m Value :=
  stringify W depth c.value c.pretty (c.parents.getD 0) c.indent

/-- A call in the state that the calls before it left. -/
def step (L : Lists ℕ Value) (i : ℕ × StringifyCall) : Option (Lists ℕ Value) :=
  (i.2.eval (m := Stored ℕ Value JsonError) W i.1 L).map Prod.snd

/-- What a call answers in a state. -/
def outcome (L : Lists ℕ Value) (i : ℕ × StringifyCall) : Option (Except JsonError Value) :=
  (i.2.eval (m := Stored ℕ Value JsonError) W i.1 L).map Prod.fst

/-- In the run over a history, a call starts with some lists, and it answers and leaves others. -/
def Calls (L : Lists ℕ Value) (history : List (ℕ × StringifyCall)) (i : ℕ × StringifyCall)
    (M : Lists ℕ Value) (r : Except JsonError Value) (M' : Lists ℕ Value) : Prop :=
  ∃ before after, history = before ++ i :: after ∧ Runs.run (step W) L before = some M ∧
    i.2.eval (m := Stored ℕ Value JsonError) W i.1 M = some (r, M')

variable {W} {L L' : Lists ℕ Value} {history : List (ℕ × StringifyCall)}

end StringifyCall

end Chloride
