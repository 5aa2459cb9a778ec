import Chloride.Objects.Number
import Chloride.Bytecode.Instr

/-!
# Parsed values

The trees of `src/parser`, as the translator reads them. A name is its bytes, without the final zero.
What the parser never builds has no place here: the target of an assignment or a deletion is an
identifier, an attribute or an item, a declaration declares something, and an operation has an
operand.

The translator is a function of the tree that is given by what it does at each node with the results
for the parts, so the recursion is here once: `ParsedValue.fold` over a `ParsedAlgebra`.
-/

universe u

namespace Chloride

/-- A name, `char *`. -/
abbrev Name := List UInt8

/-- The tokens of `SWITCH_OPERATIONS`. -/
inductive OperationToken where
  | and | or | plus | minus | star | caret | slash | floordiv | modulo | eq | ne | lt | gt | le | ge
  | notIn | isIn
  deriving DecidableEq

/-- The tokens of assignments. -/
inductive AssignToken where
  | assign | plusAssign | minusAssign | starAssign | caretAssign | slashAssign | floordivAssign
  | moduloAssign
  deriving DecidableEq

/-- `ParsedIdentifier`. -/
structure ParsedIdentifier where
  name : Name
  line : UInt64
  column : UInt64
  deriving DecidableEq

/-- `ParsedImportExpose`. -/
structure ParsedImportExpose where
  identifier : Name
  as_ : Option Name
  deriving DecidableEq

/-- The exposed names of an import: `expose_all`, or a list if there is one (`expose.resizable`). -/
inductive Expose where
  | none
  | all
  | names (names : List ParsedImportExpose)
  deriving DecidableEq

/-- A function without its body and the values of its default parameters. -/
structure FunctionHeader where
  name : Name
  parameters : List Name
  vParameter : Option Name
  kwParameter : Option Name
  deriving DecidableEq

mutual

/-- `ParsedValue`, with the structure its `data` points to. -/
inductive ParsedValue where
  | string (string : List UInt8)
  | assign (loc : SourceLocation) (target : Assignable) (type : AssignToken) (value : ParsedValue)
  | identifier (identifier : ParsedIdentifier)
  | class_ (name : Name) (line column : UInt64) (parent : Option ParsedValue) (body : ParsedValue)
  | conditional (condition trueBody falseBody : ParsedValue)
  | number (number : Mpq)
  | if_ (conditionals : List (Option ParsedValue × ParsedValue))
  | access (loc : SourceLocation) (toAccess access : ParsedValue)
  | itemAccess (loc : SourceLocation) (toAccess : ParsedValue)
      (subscripts : List (List (Option ParsedValue)))
  | call (line column : UInt64) (toCall : ParsedValue) (args : List ParsedValue)
      (vArg : Option ParsedValue) (kwargs : List (Name × ParsedValue)) (kwArg : Option ParsedValue)
  | declaration (first : ParsedValue × Option Destructure)
      (rest : List (ParsedValue × Option Destructure))
  | null
  | boolean (value : Bool)
  | dowrap (body : List ParsedValue)
  | operation (loc : SourceLocation) (operation : OperationToken) (first : ParsedValue)
      (rest : List ParsedValue)
  | array (items : List ParsedValue)
  | dictionary (entries : List (ParsedValue × ParsedValue))
  | function (header : FunctionHeader) (defaults : Option (List (Name × ParsedValue)))
      (body : ParsedValue)
  | return_ (loc : SourceLocation) (value : ParsedValue)
  | delete (loc : SourceLocation) (target : Assignable)
  | throw (loc : SourceLocation) (value : ParsedValue)
  | continue_ (loc : SourceLocation)
  | break_ (loc : SourceLocation)
  | while_ (condition content : ParsedValue)
  | template (templater : Option ParsedValue) (values : List (List UInt8 ⊕ ParsedValue))
  | for_ (value : Option Destructure) (iterator content : ParsedValue)
  | toBool (invert : Bool) (value : ParsedValue)
  | negation (value : ParsedValue)
  | import_ (loc : SourceLocation) (file : ParsedValue) (as_ : Option Name) (expose : Expose)
  | range (loc : SourceLocation) (start stop : ParsedValue) (inclusive : Bool)
  | try_ (tryBody : ParsedValue) (exceptionType : Option ParsedValue) (exceptionName : Option Name)
      (catchBody : ParsedValue)

/-- What can be assigned to and deleted. -/
inductive Assignable where
  | identifier (identifier : ParsedIdentifier)
  | access (toAccess access : ParsedValue)
  | itemAccess (toAccess : ParsedValue) (subscripts : List (List (Option ParsedValue)))

/-- `Destructure`. -/
inductive Destructure where
  | identifier (identifier : ParsedIdentifier)
  | index (items : List (Option Destructure)) (rest : Option Destructure)
  | key (items : List (ParsedValue × Option Destructure)) (rest : Option Destructure)

end

/-- What is done with an assignable, of what is done with its parts. -/
inductive AssignableOf (α : Type u) where
  | identifier (identifier : ParsedIdentifier)
  | access (toAccess access : α)
  | itemAccess (toAccess : α) (subscripts : List (List (Option α)))

/-- What is done at each node: of what is done with the parts for `α`, with the destructures for
`δ`. -/
structure ParsedAlgebra (α δ : Type u) where
  string : List UInt8 → α
  assign : SourceLocation → AssignableOf α → AssignToken → α → α
  identifier : ParsedIdentifier → α
  class_ : Name → UInt64 → UInt64 → Option α → α → α
  conditional : α → α → α → α
  number : Mpq → α
  if_ : List (Option α × α) → α
  access : SourceLocation → α → α → α
  itemAccess : SourceLocation → α → List (List (Option α)) → α
  call : UInt64 → UInt64 → α → List α → Option α → List (Name × α) → Option α → α
  declaration : α × Option δ → List (α × Option δ) → α
  null : α
  boolean : Bool → α
  dowrap : List α → α
  operation : SourceLocation → OperationToken → α → List α → α
  array : List α → α
  dictionary : List (α × α) → α
  function : FunctionHeader → Option (List (Name × α)) → α → α
  return_ : SourceLocation → α → α
  delete : SourceLocation → AssignableOf α → α
  throw : SourceLocation → α → α
  continue_ : SourceLocation → α
  break_ : SourceLocation → α
  while_ : α → α → α
  template : Option α → List (List UInt8 ⊕ α) → α
  for_ : Option δ → α → α → α
  toBool : Bool → α → α
  negation : α → α
  import_ : SourceLocation → α → Option Name → Expose → α
  range : SourceLocation → α → α → Bool → α
  try_ : α → Option α → Option Name → α → α
  identifierDestructure : ParsedIdentifier → δ
  indexDestructure : List (Option δ) → Option δ → δ
  /-- The key of an item is looked at itself, too. -/
  keyDestructure : List ((ParsedValue × α) × Option δ) → Option δ → δ

section Fold

variable {α δ : Type u} (alg : ParsedAlgebra α δ)

mutual

/-- What the algebra makes of a value. -/
def ParsedValue.fold : ParsedValue → α
  | .string string => alg.string string
  | .assign loc target type value => alg.assign loc (foldAssignable target) type value.fold
  | .identifier identifier => alg.identifier identifier
  | .class_ name line column parent body =>
    alg.class_ name line column (foldOption parent) body.fold
  | .conditional condition trueBody falseBody =>
    alg.conditional condition.fold trueBody.fold falseBody.fold
  | .number number => alg.number number
  | .if_ conditionals => alg.if_ (foldConditionals conditionals)
  | .access loc toAccess access => alg.access loc toAccess.fold access.fold
  | .itemAccess loc toAccess subscripts =>
    alg.itemAccess loc toAccess.fold (foldSubscripts subscripts)
  | .call line column toCall args vArg kwargs kwArg =>
    alg.call line column toCall.fold (foldList args) (foldOption vArg) (foldNamed kwargs)
      (foldOption kwArg)
  | .declaration (value, destructure) rest =>
    alg.declaration (value.fold, foldDestructureOption destructure) (foldDeclarations rest)
  | .null => alg.null
  | .boolean value => alg.boolean value
  | .dowrap body => alg.dowrap (foldList body)
  | .operation loc operation first rest =>
    alg.operation loc operation first.fold (foldList rest)
  | .array items => alg.array (foldList items)
  | .dictionary entries => alg.dictionary (foldEntries entries)
  | .function header defaults body =>
    alg.function header (match defaults with
      | none => none
      | some defaults => some (foldNamed defaults)) body.fold
  | .return_ loc value => alg.return_ loc value.fold
  | .delete loc target => alg.delete loc (foldAssignable target)
  | .throw loc value => alg.throw loc value.fold
  | .continue_ loc => alg.continue_ loc
  | .break_ loc => alg.break_ loc
  | .while_ condition content => alg.while_ condition.fold content.fold
  | .template templater values => alg.template (foldOption templater) (foldTemplate values)
  | .for_ value iterator content =>
    alg.for_ (foldDestructureOption value) iterator.fold content.fold
  | .toBool invert value => alg.toBool invert value.fold
  | .negation value => alg.negation value.fold
  | .import_ loc file as_ expose => alg.import_ loc file.fold as_ expose
  | .range loc start stop inclusive => alg.range loc start.fold stop.fold inclusive
  | .try_ tryBody exceptionType exceptionName catchBody =>
    alg.try_ tryBody.fold (foldOption exceptionType) exceptionName catchBody.fold

def foldAssignable : Assignable → AssignableOf α
  | .identifier identifier => .identifier identifier
  | .access toAccess access => .access toAccess.fold access.fold
  | .itemAccess toAccess subscripts => .itemAccess toAccess.fold (foldSubscripts subscripts)

/-- What the algebra makes of a destructure. -/
def Destructure.fold : Destructure → δ
  | .identifier identifier => alg.identifierDestructure identifier
  | .index items rest => alg.indexDestructure (foldDestructures items) (foldDestructureOption rest)
  | .key items rest => alg.keyDestructure (foldKeys items) (foldDestructureOption rest)

def foldOption : Option ParsedValue → Option α
  | none => none
  | some v => some v.fold

def foldList : List ParsedValue → List α
  | [] => []
  | v :: vs => v.fold :: foldList vs

def foldOptions : List (Option ParsedValue) → List (Option α)
  | [] => []
  | v :: vs => foldOption v :: foldOptions vs

def foldSubscripts : List (List (Option ParsedValue)) → List (List (Option α))
  | [] => []
  | s :: ss => foldOptions s :: foldSubscripts ss

def foldNamed : List (Name × ParsedValue) → List (Name × α)
  | [] => []
  | (name, v) :: vs => (name, v.fold) :: foldNamed vs

def foldEntries : List (ParsedValue × ParsedValue) → List (α × α)
  | [] => []
  | (k, v) :: vs => (k.fold, v.fold) :: foldEntries vs

def foldConditionals : List (Option ParsedValue × ParsedValue) → List (Option α × α)
  | [] => []
  | (c, v) :: vs => (foldOption c, v.fold) :: foldConditionals vs

def foldTemplate : List (List UInt8 ⊕ ParsedValue) → List (List UInt8 ⊕ α)
  | [] => []
  | .inl s :: vs => .inl s :: foldTemplate vs
  | .inr v :: vs => .inr v.fold :: foldTemplate vs

def foldDeclarations : List (ParsedValue × Option Destructure) → List (α × Option δ)
  | [] => []
  | (v, d) :: vs => (v.fold, foldDestructureOption d) :: foldDeclarations vs

def foldKeys : List (ParsedValue × Option Destructure) → List ((ParsedValue × α) × Option δ)
  | [] => []
  | (v, d) :: vs => ((v, v.fold), foldDestructureOption d) :: foldKeys vs

def foldDestructureOption : Option Destructure → Option δ
  | none => none
  | some d => some d.fold

def foldDestructures : List (Option Destructure) → List (Option δ)
  | [] => []
  | d :: ds => foldDestructureOption d :: foldDestructures ds

end

theorem foldOption_eq (o : Option ParsedValue) :
    foldOption alg o = o.map (ParsedValue.fold alg) := by
  cases o <;> simp [foldOption]

theorem foldList_eq (vs : List ParsedValue) : foldList alg vs = vs.map (ParsedValue.fold alg) := by
  induction vs with
  | nil => rfl
  | cons v vs ih => rw [foldList, ih, List.map_cons]

theorem foldOptions_eq (os : List (Option ParsedValue)) :
    foldOptions alg os = os.map (Option.map (ParsedValue.fold alg)) := by
  induction os with
  | nil => rfl
  | cons o os ih => rw [foldOptions, ih, foldOption_eq, List.map_cons]

theorem foldSubscripts_eq (ss : List (List (Option ParsedValue))) :
    foldSubscripts alg ss = ss.map (List.map (Option.map (ParsedValue.fold alg))) := by
  induction ss with
  | nil => rfl
  | cons s ss ih => rw [foldSubscripts, ih, foldOptions_eq, List.map_cons]

theorem foldNamed_eq (vs : List (Name × ParsedValue)) :
    foldNamed alg vs = vs.map fun v => (v.1, v.2.fold alg) := by
  induction vs with
  | nil => rfl
  | cons v vs ih => rw [foldNamed, ih, List.map_cons]

theorem foldEntries_eq (vs : List (ParsedValue × ParsedValue)) :
    foldEntries alg vs = vs.map fun v => (v.1.fold alg, v.2.fold alg) := by
  induction vs with
  | nil => rfl
  | cons v vs ih => rw [foldEntries, ih, List.map_cons]

theorem foldConditionals_eq (vs : List (Option ParsedValue × ParsedValue)) :
    foldConditionals alg vs = vs.map fun v => (v.1.map (ParsedValue.fold alg), v.2.fold alg) := by
  induction vs with
  | nil => rfl
  | cons v vs ih => rw [foldConditionals, ih, foldOption_eq, List.map_cons]

theorem foldTemplate_eq (vs : List (List UInt8 ⊕ ParsedValue)) :
    foldTemplate alg vs = vs.map (Sum.map id (ParsedValue.fold alg)) := by
  induction vs with
  | nil => rfl
  | cons v vs ih => cases v <;> rw [foldTemplate, ih, List.map_cons] <;> rfl

theorem foldDestructureOption_eq (d : Option Destructure) :
    foldDestructureOption alg d = d.map (Destructure.fold alg) := by
  cases d <;> simp [foldDestructureOption]

theorem foldDeclarations_eq (vs : List (ParsedValue × Option Destructure)) :
    foldDeclarations alg vs =
      vs.map fun v => (v.1.fold alg, v.2.map (Destructure.fold alg)) := by
  induction vs with
  | nil => rfl
  | cons v vs ih => rw [foldDeclarations, ih, foldDestructureOption_eq, List.map_cons]

theorem foldKeys_eq (vs : List (ParsedValue × Option Destructure)) :
    foldKeys alg vs =
      vs.map fun v => ((v.1, v.1.fold alg), v.2.map (Destructure.fold alg)) := by
  induction vs with
  | nil => rfl
  | cons v vs ih => rw [foldKeys, ih, foldDestructureOption_eq, List.map_cons]

theorem foldDestructures_eq (ds : List (Option Destructure)) :
    foldDestructures alg ds = ds.map (Option.map (Destructure.fold alg)) := by
  induction ds with
  | nil => rfl
  | cons d ds ih => rw [foldDestructures, ih, foldDestructureOption_eq, List.map_cons]

end Fold

/-- The values in an assignable have a property. -/
def Assignable.All (P : ParsedValue → Prop) : Assignable → Prop
  | .identifier _ => True
  | .access object name => P object ∧ P name
  | .itemAccess object subscripts =>
    P object ∧ ∀ s ∈ subscripts, ∀ o ∈ s, ∀ v ∈ o, P v

/-- What is to be shown at each node for an induction over values and destructures: the property from
the properties of the parts. -/
structure ParsedValue.InductionSteps (P : ParsedValue → Prop) (D : Destructure → Prop) : Prop where
  string : ∀ string, P (.string string)
  assign : ∀ loc target type value, target.All P → P value → P (.assign loc target type value)
  identifier : ∀ identifier, P (.identifier identifier)
  class_ : ∀ name line column parent body, (∀ v ∈ parent, P v) → P body →
    P (.class_ name line column parent body)
  conditional : ∀ condition trueBody falseBody, P condition → P trueBody → P falseBody →
    P (.conditional condition trueBody falseBody)
  number : ∀ number, P (.number number)
  if_ : ∀ conditionals, (∀ c ∈ conditionals, (∀ v ∈ c.1, P v) ∧ P c.2) → P (.if_ conditionals)
  access : ∀ loc toAccess access, P toAccess → P access → P (.access loc toAccess access)
  itemAccess : ∀ loc toAccess subscripts, P toAccess →
    (∀ s ∈ subscripts, ∀ o ∈ s, ∀ v ∈ o, P v) → P (.itemAccess loc toAccess subscripts)
  call : ∀ line column toCall args vArg kwargs kwArg, P toCall → (∀ v ∈ args, P v) →
    (∀ v ∈ vArg, P v) → (∀ v ∈ kwargs, P v.2) → (∀ v ∈ kwArg, P v) →
    P (.call line column toCall args vArg kwargs kwArg)
  declaration : ∀ first rest, (∀ v ∈ first :: rest, P v.1 ∧ ∀ d ∈ v.2, D d) →
    P (.declaration first rest)
  null : P .null
  boolean : ∀ value, P (.boolean value)
  dowrap : ∀ body, (∀ v ∈ body, P v) → P (.dowrap body)
  operation : ∀ loc operation first rest, (∀ v ∈ first :: rest, P v) →
    P (.operation loc operation first rest)
  array : ∀ items, (∀ v ∈ items, P v) → P (.array items)
  dictionary : ∀ entries, (∀ e ∈ entries, P e.1 ∧ P e.2) → P (.dictionary entries)
  function : ∀ header defaults body, (∀ vs ∈ defaults, ∀ v ∈ vs, P v.2) → P body →
    P (.function header defaults body)
  return_ : ∀ loc value, P value → P (.return_ loc value)
  delete : ∀ loc target, target.All P → P (.delete loc target)
  throw : ∀ loc value, P value → P (.throw loc value)
  continue_ : ∀ loc, P (.continue_ loc)
  break_ : ∀ loc, P (.break_ loc)
  while_ : ∀ condition content, P condition → P content → P (.while_ condition content)
  template : ∀ templater values, (∀ v ∈ templater, P v) → (∀ v, .inr v ∈ values → P v) →
    P (.template templater values)
  for_ : ∀ value iterator content, (∀ d ∈ value, D d) → P iterator → P content →
    P (.for_ value iterator content)
  toBool : ∀ invert value, P value → P (.toBool invert value)
  negation : ∀ value, P value → P (.negation value)
  import_ : ∀ loc file as_ expose, P file → P (.import_ loc file as_ expose)
  range : ∀ loc start stop inclusive, P start → P stop → P (.range loc start stop inclusive)
  try_ : ∀ tryBody exceptionType exceptionName catchBody, P tryBody → (∀ v ∈ exceptionType, P v) →
    P catchBody → P (.try_ tryBody exceptionType exceptionName catchBody)
  identifierDestructure : ∀ identifier, D (.identifier identifier)
  indexDestructure : ∀ items rest, (∀ o ∈ items, ∀ d ∈ o, D d) → (∀ d ∈ rest, D d) →
    D (.index items rest)
  keyDestructure : ∀ items rest, (∀ i ∈ items, P i.1 ∧ ∀ d ∈ i.2, D d) → (∀ d ∈ rest, D d) →
    D (.key items rest)

namespace ParsedValue.InductionSteps

variable {P : ParsedValue → Prop} {D : Destructure → Prop} (H : InductionSteps P D)
include H

set_option linter.unusedSectionVars false

mutual

/-- Induction over values. -/
theorem value : ∀ v : ParsedValue, P v
  | .string string => H.string string
  | .assign loc target type v => H.assign loc target type v (assignable target) (value v)
  | .identifier identifier => H.identifier identifier
  | .class_ name line column parent body =>
    H.class_ name line column parent body (option parent) (value body)
  | .conditional a b c => H.conditional a b c (value a) (value b) (value c)
  | .number number => H.number number
  | .if_ conditionals => H.if_ conditionals (conditionals_ conditionals)
  | .access loc a b => H.access loc a b (value a) (value b)
  | .itemAccess loc a subscripts => H.itemAccess loc a subscripts (value a) (subscripts_ subscripts)
  | .call line column toCall args vArg kwargs kwArg =>
    H.call line column toCall args vArg kwargs kwArg (value toCall) (list args) (option vArg)
      (named kwargs) (option kwArg)
  | .declaration (v, d) rest => H.declaration (v, d) rest fun x hx =>
      (List.mem_cons.mp hx).elim (fun h => h ▸ ⟨value v, destructureOption d⟩) (declarations rest x)
  | .null => H.null
  | .boolean b => H.boolean b
  | .dowrap body => H.dowrap body (list body)
  | .operation loc operation first rest => H.operation loc operation first rest fun x hx =>
      (List.mem_cons.mp hx).elim (fun h => h ▸ value first) (list rest x)
  | .array items => H.array items (list items)
  | .dictionary entries => H.dictionary entries (entries_ entries)
  | .function header defaults body => H.function header defaults body
      (match defaults with
        | none => fun vs hvs => nomatch hvs
        | some ds => fun vs hvs => Option.some.inj hvs ▸ named ds) (value body)
  | .return_ loc v => H.return_ loc v (value v)
  | .delete loc target => H.delete loc target (assignable target)
  | .throw loc v => H.throw loc v (value v)
  | .continue_ loc => H.continue_ loc
  | .break_ loc => H.break_ loc
  | .while_ a b => H.while_ a b (value a) (value b)
  | .template templater values => H.template templater values (option templater) (templates values)
  | .for_ d a b => H.for_ d a b (destructureOption d) (value a) (value b)
  | .toBool invert v => H.toBool invert v (value v)
  | .negation v => H.negation v (value v)
  | .import_ loc file as_ expose => H.import_ loc file as_ expose (value file)
  | .range loc a b inclusive => H.range loc a b inclusive (value a) (value b)
  | .try_ a e name b => H.try_ a e name b (value a) (option e) (value b)

theorem assignable : ∀ t : Assignable, t.All P
  | .identifier _ => trivial
  | .access a b => ⟨value a, value b⟩
  | .itemAccess a subscripts => ⟨value a, subscripts_ subscripts⟩

/-- Induction over destructures. -/
theorem destructure : ∀ d : Destructure, D d
  | .identifier identifier => H.identifierDestructure identifier
  | .index items rest => H.indexDestructure items rest (destructures items) (destructureOption rest)
  | .key items rest => H.keyDestructure items rest (declarations items) (destructureOption rest)

theorem option : ∀ (o : Option ParsedValue), ∀ v ∈ o, P v
  | none, _, hv => nomatch hv
  | some v, _, hv => Option.some.inj hv ▸ value v

theorem list : ∀ (vs : List ParsedValue), ∀ v ∈ vs, P v
  | [], _, hv => nomatch hv
  | v :: vs, x, hx => (List.mem_cons.mp hx).elim (fun h => h ▸ value v) (list vs x)

theorem options : ∀ (os : List (Option ParsedValue)), ∀ o ∈ os, ∀ v ∈ o, P v
  | [], _, hv => nomatch hv
  | o :: os, x, hx => (List.mem_cons.mp hx).elim (fun h => h ▸ option o) (options os x)

theorem subscripts_ : ∀ (ss : List (List (Option ParsedValue))), ∀ s ∈ ss, ∀ o ∈ s, ∀ v ∈ o, P v
  | [], _, hv => nomatch hv
  | s :: ss, x, hx => (List.mem_cons.mp hx).elim (fun h => h ▸ options s) (subscripts_ ss x)

theorem named : ∀ (vs : List (Name × ParsedValue)), ∀ v ∈ vs, P v.2
  | [], _, hv => nomatch hv
  | (_, v) :: vs, x, hx => (List.mem_cons.mp hx).elim (fun h => h ▸ value v) (named vs x)

theorem entries_ : ∀ (vs : List (ParsedValue × ParsedValue)), ∀ v ∈ vs, P v.1 ∧ P v.2
  | [], _, hv => nomatch hv
  | (k, v) :: vs, x, hx =>
    (List.mem_cons.mp hx).elim (fun h => h ▸ ⟨value k, value v⟩) (entries_ vs x)

theorem conditionals_ : ∀ (vs : List (Option ParsedValue × ParsedValue)),
    ∀ v ∈ vs, (∀ c ∈ v.1, P c) ∧ P v.2
  | [], _, hv => nomatch hv
  | (c, v) :: vs, x, hx =>
    (List.mem_cons.mp hx).elim (fun h => h ▸ ⟨option c, value v⟩) (conditionals_ vs x)

theorem templates : ∀ (vs : List (List UInt8 ⊕ ParsedValue)), ∀ v, .inr v ∈ vs → P v
  | [], _, hv => nomatch hv
  | .inl _ :: vs, x, hx => (List.mem_cons.mp hx).elim (fun h => nomatch h) (templates vs x)
  | .inr v :: vs, x, hx =>
    (List.mem_cons.mp hx).elim (fun h => Sum.inr.inj h ▸ value v) (templates vs x)

theorem declarations : ∀ (vs : List (ParsedValue × Option Destructure)),
    ∀ v ∈ vs, P v.1 ∧ ∀ d ∈ v.2, D d
  | [], _, hv => nomatch hv
  | (v, d) :: vs, x, hx =>
    (List.mem_cons.mp hx).elim (fun h => h ▸ ⟨value v, destructureOption d⟩) (declarations vs x)

theorem destructureOption : ∀ (o : Option Destructure), ∀ d ∈ o, D d
  | none, _, hd => nomatch hd
  | some d, _, hd => Option.some.inj hd ▸ destructure d

theorem destructures : ∀ (os : List (Option Destructure)), ∀ o ∈ os, ∀ d ∈ o, D d
  | [], _, hv => nomatch hv
  | o :: os, x, hx =>
    (List.mem_cons.mp hx).elim (fun h => h ▸ destructureOption o) (destructures os x)

end

end ParsedValue.InductionSteps

end Chloride
