import Chloride.Translator.ParsedValue

/-!
# Conditions on parsed values

The conditions under which the translator keeps its promises are about where a part of a tree stands:
inside of which loop, function, call or `do`. `ContextRules` gives such a condition by the context of
each kind of part (`into`) and by what is asked of a node in its context (`node`); `Meets` asks it of a
whole tree. The theorems `meets_..` take a condition apart along the tree.
-/

namespace Chloride

/-- The kinds of parts that a condition can tell apart. -/
inductive Part where
  /-- What is declared or assigned, the parts of the target, and the destructure of a declaration. -/
  | bound
  /-- The object whose attribute or item is assigned. -/
  | assignObject
  /-- The attribute or the subscripts that are assigned. -/
  | assignAccess (compound : Bool)
  /-- The attribute or the subscripts that are read or deleted. -/
  | access
  | argument
  | class_
  | operand (operation : OperationToken)
  | item
  | entry
  | default_
  | function
  | dowrap
  | whileCondition
  | whileContent
  | template
  | forIterator
  | forContent
  | range
  | tryBody
  | exceptionType
  | catchBody
  | indexItem
  /-- The key of an item; `kept` tells whether the keys are kept for the rest. -/
  | key (i : ℕ) (kept : Bool)
  | keyItem (i : ℕ) (kept : Bool)
  | keyRest (items : ℕ)
  deriving DecidableEq

/-- The parts that are evaluated while a call instance of the construct around them is open. -/
def Part.inCall : Part → Bool
  | assignAccess _ | access | argument | item | entry | template | range | exceptionType | key _ _ =>
    true
  | _ => false

/-- The kinds of nodes that a condition can be about. -/
inductive Node where
  | assignIdentifier (compound : Bool)
  | assignAccess (compound : Bool)
  | class_
  | operation (operation : OperationToken)
  | dictionary
  | defaults
  | for_
  | try_
  | expose (expose : Expose)
  | index (rest : Bool)
  | key (items : ℕ) (rest : Bool)
  | return_
  | continue_
  | break_
  deriving DecidableEq

/-- A condition on trees in contexts. -/
structure ContextRules (C : Type) where
  into : Part → C → C
  node : Node → C → Prop

/-- An assignment that computes something from the old value. -/
def AssignToken.compound (type : AssignToken) : Bool := type ≠ .assign

namespace ContextRules

variable {C : Type} (K : ContextRules C)

/-- The condition on subscripts. -/
def Subscripts (p : Part) (subscripts : List (List (Option (C → Prop)))) (c : C) : Prop :=
  ∀ s ∈ subscripts, ∀ o ∈ s, ∀ v ∈ o, v (K.into p c)

/-- The condition on the target of an assignment. -/
def Assigns (compound : Bool) (c : C) : AssignableOf (C → Prop) → Prop
  | .identifier _ => K.node (.assignIdentifier compound) c
  | .access toAccess access =>
    K.node (.assignAccess compound) c ∧ toAccess (K.into .assignObject c) ∧
      access (K.into (.assignAccess compound) c)
  | .itemAccess toAccess subscripts =>
    K.node (.assignAccess compound) c ∧ toAccess (K.into .assignObject c) ∧
      K.Subscripts (.assignAccess compound) subscripts c

/-- The condition on the target of a deletion. -/
def Deletes (c : C) : AssignableOf (C → Prop) → Prop
  | .identifier _ => True
  | .access toAccess access => toAccess c ∧ access (K.into .access c)
  | .itemAccess toAccess subscripts => toAccess c ∧ K.Subscripts .access subscripts c

/-- The condition at each node, of the conditions on the parts. -/
def algebra : ParsedAlgebra (C → Prop) (C → Prop) where
  string _ _ := True
  assign _ target type value c :=
    value (K.into .bound c) ∧ K.Assigns type.compound (K.into .bound c) target
  identifier _ _ := True
  class_ _ _ _ parent body c :=
    K.node .class_ c ∧ (∀ v ∈ parent, v (K.into .class_ c)) ∧ body (K.into .class_ c)
  conditional condition trueBody falseBody c := condition c ∧ trueBody c ∧ falseBody c
  number _ _ := True
  if_ conditionals c := ∀ x ∈ conditionals, (∀ v ∈ x.1, v c) ∧ x.2 c
  access _ toAccess access c := toAccess c ∧ access (K.into .access c)
  itemAccess _ toAccess subscripts c := toAccess c ∧ K.Subscripts .access subscripts c
  call _ _ toCall args vArg kwargs kwArg c :=
    toCall c ∧ (∀ v ∈ args, v (K.into .argument c)) ∧ (∀ v ∈ vArg, v (K.into .argument c)) ∧
      (∀ v ∈ kwargs, v.2 (K.into .argument c)) ∧ ∀ v ∈ kwArg, v (K.into .argument c)
  declaration first rest c :=
    ∀ x ∈ first :: rest, x.1 (K.into .bound c) ∧ ∀ d ∈ x.2, d (K.into .bound c)
  null _ := True
  boolean _ _ := True
  dowrap body c := ∀ v ∈ body, v (K.into .dowrap c)
  operation _ operation first rest c :=
    K.node (.operation operation) c ∧ ∀ v ∈ first :: rest, v (K.into (.operand operation) c)
  array items c := ∀ v ∈ items, v (K.into .item c)
  dictionary entries c :=
    K.node .dictionary c ∧ ∀ x ∈ entries, x.1 (K.into .entry c) ∧ x.2 (K.into .entry c)
  function _ defaults body c :=
    (∀ vs ∈ defaults, K.node .defaults c ∧ ∀ v ∈ vs, v.2 (K.into .default_ c)) ∧
      body (K.into .function c)
  return_ _ value c := K.node .return_ c ∧ value c
  delete _ target c := K.Deletes c target
  throw _ value c := value c
  continue_ _ c := K.node .continue_ c
  break_ _ c := K.node .break_ c
  while_ condition content c :=
    condition (K.into .whileCondition c) ∧ content (K.into .whileContent c)
  template templater values c :=
    (∀ v ∈ templater, v c) ∧ ∀ v, .inr v ∈ values → v (K.into .template c)
  for_ value iterator content c :=
    K.node .for_ c ∧ (∀ d ∈ value, d (K.into .forContent c)) ∧ iterator (K.into .forIterator c) ∧
      content (K.into .forContent c)
  toBool _ value c := value c
  negation value c := value c
  import_ _ file _ expose c := K.node (.expose expose) c ∧ file c
  range _ start stop _ c := start (K.into .range c) ∧ stop (K.into .range c)
  try_ tryBody exceptionType _ catchBody c :=
    K.node .try_ c ∧ tryBody (K.into .tryBody c) ∧
      (∀ v ∈ exceptionType, v (K.into .exceptionType c)) ∧ catchBody (K.into .catchBody c)
  identifierDestructure _ _ := True
  indexDestructure items rest c :=
    K.node (.index rest.isSome) c ∧ (∀ o ∈ items, ∀ d ∈ o, d (K.into .indexItem c)) ∧
      ∀ d ∈ rest, d (K.into .indexItem c)
  keyDestructure items rest c :=
    K.node (.key items.length rest.isSome) c ∧
      (∀ (i : ℕ) (x : (ParsedValue × (C → Prop)) × Option (C → Prop)), items[i]? = some x → x.1.2 (K.into (.key i rest.isSome) c) ∧
        ∀ d ∈ x.2, d (K.into (.keyItem i rest.isSome) c)) ∧
      ∀ d ∈ rest, d (K.into (.keyRest items.length) c)

end ContextRules

variable {C : Type} (K : ContextRules C)

/-- A value meets a condition in a context. -/
def ParsedValue.Meets (v : ParsedValue) (c : C) : Prop := v.fold K.algebra c

/-- A destructure meets a condition in a context. -/
def Destructure.Meets (d : Destructure) (c : C) : Prop := d.fold K.algebra c

/-- Subscripts meet a condition in the context of the part they are. -/
def SubscriptsMeet (p : Part) (subscripts : List (List (Option ParsedValue))) (c : C) : Prop :=
  ∀ s ∈ subscripts, ∀ o ∈ s, ∀ v ∈ o, v.Meets K (K.into p c)

/-- The target of an assignment meets a condition. -/
def Assignable.AssignMeets (compound : Bool) (c : C) : Assignable → Prop
  | .identifier _ => K.node (.assignIdentifier compound) c
  | .access object name =>
    K.node (.assignAccess compound) c ∧ object.Meets K (K.into .assignObject c) ∧
      name.Meets K (K.into (.assignAccess compound) c)
  | .itemAccess object subscripts =>
    K.node (.assignAccess compound) c ∧ object.Meets K (K.into .assignObject c) ∧
      SubscriptsMeet K (.assignAccess compound) subscripts c

/-- The target of a deletion meets a condition. -/
def Assignable.DeleteMeets (c : C) : Assignable → Prop
  | .identifier _ => True
  | .access object name => object.Meets K c ∧ name.Meets K (K.into .access c)
  | .itemAccess object subscripts =>
    object.Meets K c ∧ SubscriptsMeet K .access subscripts c

section Parts

variable {K} {c : C}

theorem subscripts_iff {p : Part} {subscripts : List (List (Option ParsedValue))} :
    K.Subscripts p (foldSubscripts K.algebra subscripts) c ↔ SubscriptsMeet K p subscripts c := by
  unfold ContextRules.Subscripts SubscriptsMeet ParsedValue.Meets
  rw [foldSubscripts_eq]
  simp

theorem option_iff {o : Option ParsedValue} {c : C} :
    (∀ v ∈ foldOption K.algebra o, v c) ↔ ∀ v ∈ o, v.Meets K c := by
  rw [foldOption_eq]
  exact Option.forall_mem_map

theorem list_iff {vs : List ParsedValue} {c : C} :
    (∀ v ∈ foldList K.algebra vs, v c) ↔ ∀ v ∈ vs, v.Meets K c := by
  rw [foldList_eq]
  exact List.forall_mem_map

theorem named_iff {vs : List (Name × ParsedValue)} {c : C} :
    (∀ v ∈ foldNamed K.algebra vs, v.2 c) ↔ ∀ v ∈ vs, v.2.Meets K c := by
  rw [foldNamed_eq]
  exact List.forall_mem_map

theorem destructureOption_iff {o : Option Destructure} {c : C} :
    (∀ d ∈ foldDestructureOption K.algebra o, d c) ↔ ∀ d ∈ o, d.Meets K c := by
  rw [foldDestructureOption_eq]
  exact Option.forall_mem_map

@[simp]
theorem meets_assign {loc : SourceLocation} {target : Assignable} {type : AssignToken}
    {value : ParsedValue} : (ParsedValue.assign loc target type value).Meets K c ↔
      value.Meets K (K.into .bound c) ∧ target.AssignMeets K type.compound (K.into .bound c) := by
  refine and_congr_right fun _ => ?_
  cases target with
  | identifier => exact Iff.rfl
  | access => exact Iff.rfl
  | itemAccess object subscripts =>
    exact and_congr_right fun _ => and_congr_right fun _ => subscripts_iff

@[simp]
theorem meets_class {name : Name} {line column : UInt64} {parent : Option ParsedValue}
    {body : ParsedValue} : (ParsedValue.class_ name line column parent body).Meets K c ↔
      K.node .class_ c ∧ (∀ v ∈ parent, v.Meets K (K.into .class_ c)) ∧
        body.Meets K (K.into .class_ c) :=
  and_congr_right fun _ => and_congr_left fun _ => option_iff

@[simp]
theorem meets_conditional {condition trueBody falseBody : ParsedValue} :
    (ParsedValue.conditional condition trueBody falseBody).Meets K c ↔
      condition.Meets K c ∧ trueBody.Meets K c ∧ falseBody.Meets K c :=
  Iff.rfl

@[simp]
theorem meets_if {conditionals : List (Option ParsedValue × ParsedValue)} :
    (ParsedValue.if_ conditionals).Meets K c ↔
      ∀ x ∈ conditionals, (∀ v ∈ x.1, v.Meets K c) ∧ x.2.Meets K c := by
  show (∀ x ∈ foldConditionals K.algebra conditionals, (∀ v ∈ x.1, v c) ∧ x.2 c) ↔ _
  rw [foldConditionals_eq]
  simp only [List.forall_mem_map, Option.forall_mem_map]
  exact Iff.rfl

@[simp]
theorem meets_access {loc : SourceLocation} {toAccess access : ParsedValue} :
    (ParsedValue.access loc toAccess access).Meets K c ↔
      toAccess.Meets K c ∧ access.Meets K (K.into .access c) :=
  Iff.rfl

@[simp]
theorem meets_itemAccess {loc : SourceLocation} {toAccess : ParsedValue}
    {subscripts : List (List (Option ParsedValue))} :
    (ParsedValue.itemAccess loc toAccess subscripts).Meets K c ↔
      toAccess.Meets K c ∧ SubscriptsMeet K .access subscripts c :=
  and_congr_right fun _ => subscripts_iff

@[simp]
theorem meets_call {line column : UInt64} {toCall : ParsedValue} {args : List ParsedValue}
    {vArg : Option ParsedValue} {kwargs : List (Name × ParsedValue)} {kwArg : Option ParsedValue} :
    (ParsedValue.call line column toCall args vArg kwargs kwArg).Meets K c ↔
      toCall.Meets K c ∧ (∀ v ∈ args, v.Meets K (K.into .argument c)) ∧
        (∀ v ∈ vArg, v.Meets K (K.into .argument c)) ∧
        (∀ v ∈ kwargs, v.2.Meets K (K.into .argument c)) ∧
        ∀ v ∈ kwArg, v.Meets K (K.into .argument c) :=
  and_congr_right fun _ => and_congr list_iff (and_congr option_iff (and_congr named_iff option_iff))

@[simp]
theorem meets_declaration {first : ParsedValue × Option Destructure}
    {rest : List (ParsedValue × Option Destructure)} :
    (ParsedValue.declaration first rest).Meets K c ↔
      ∀ x ∈ first :: rest, x.1.Meets K (K.into .bound c) ∧
        ∀ d ∈ x.2, d.Meets K (K.into .bound c) := by
  show (∀ x ∈ foldDeclarations K.algebra (first :: rest), x.1 (K.into .bound c) ∧
    ∀ d ∈ x.2, d (K.into .bound c)) ↔ _
  rw [foldDeclarations_eq]
  simp only [List.forall_mem_map, Option.forall_mem_map]
  exact Iff.rfl

@[simp]
theorem meets_dowrap {body : List ParsedValue} :
    (ParsedValue.dowrap body).Meets K c ↔ ∀ v ∈ body, v.Meets K (K.into .dowrap c) :=
  list_iff

@[simp]
theorem meets_operation {loc : SourceLocation} {operation : OperationToken} {first : ParsedValue}
    {rest : List ParsedValue} : (ParsedValue.operation loc operation first rest).Meets K c ↔
      K.node (.operation operation) c ∧
        ∀ v ∈ first :: rest, v.Meets K (K.into (.operand operation) c) :=
  and_congr_right fun _ => @list_iff _ _ (first :: rest) _

@[simp]
theorem meets_array {items : List ParsedValue} :
    (ParsedValue.array items).Meets K c ↔ ∀ v ∈ items, v.Meets K (K.into .item c) :=
  list_iff

@[simp]
theorem meets_dictionary {entries : List (ParsedValue × ParsedValue)} :
    (ParsedValue.dictionary entries).Meets K c ↔ K.node .dictionary c ∧
      ∀ x ∈ entries, x.1.Meets K (K.into .entry c) ∧ x.2.Meets K (K.into .entry c) := by
  refine and_congr_right fun _ => ?_
  rw [foldEntries_eq]
  exact List.forall_mem_map

@[simp]
theorem meets_function {header : FunctionHeader} {defaults : Option (List (Name × ParsedValue))}
    {body : ParsedValue} : (ParsedValue.function header defaults body).Meets K c ↔
      (∀ vs ∈ defaults, K.node .defaults c ∧ ∀ v ∈ vs, v.2.Meets K (K.into .default_ c)) ∧
        body.Meets K (K.into .function c) := by
  cases defaults with
  | none => exact and_congr_left fun _ => by simp
  | some vs =>
    refine and_congr_left fun _ => ?_
    show (∀ us ∈ some (foldNamed K.algebra vs), K.node .defaults c ∧
      ∀ v ∈ us, v.2 (K.into .default_ c)) ↔ _
    simp only [Option.mem_some_iff, forall_eq', named_iff]

@[simp]
theorem meets_return {loc : SourceLocation} {value : ParsedValue} :
    (ParsedValue.return_ loc value).Meets K c ↔ K.node .return_ c ∧ value.Meets K c :=
  Iff.rfl

@[simp]
theorem meets_delete {loc : SourceLocation} {target : Assignable} :
    (ParsedValue.delete loc target).Meets K c ↔ target.DeleteMeets K c := by
  cases target with
  | identifier => exact Iff.rfl
  | access => exact Iff.rfl
  | itemAccess => exact and_congr_right fun _ => subscripts_iff

@[simp]
theorem meets_throw {loc : SourceLocation} {value : ParsedValue} :
    (ParsedValue.throw loc value).Meets K c ↔ value.Meets K c :=
  Iff.rfl

@[simp]
theorem meets_continue {loc : SourceLocation} :
    (ParsedValue.continue_ loc).Meets K c ↔ K.node .continue_ c :=
  Iff.rfl

@[simp]
theorem meets_break {loc : SourceLocation} :
    (ParsedValue.break_ loc).Meets K c ↔ K.node .break_ c :=
  Iff.rfl

@[simp]
theorem meets_while {condition content : ParsedValue} :
    (ParsedValue.while_ condition content).Meets K c ↔
      condition.Meets K (K.into .whileCondition c) ∧ content.Meets K (K.into .whileContent c) :=
  Iff.rfl

@[simp]
theorem meets_template {templater : Option ParsedValue} {values : List (List UInt8 ⊕ ParsedValue)} :
    (ParsedValue.template templater values).Meets K c ↔ (∀ v ∈ templater, v.Meets K c) ∧
      ∀ v, .inr v ∈ values → v.Meets K (K.into .template c) := by
  refine and_congr option_iff ?_
  rw [foldTemplate_eq]
  simp [ParsedValue.Meets]

@[simp]
theorem meets_for {value : Option Destructure} {iterator content : ParsedValue} :
    (ParsedValue.for_ value iterator content).Meets K c ↔
      K.node .for_ c ∧ (∀ d ∈ value, d.Meets K (K.into .forContent c)) ∧
        iterator.Meets K (K.into .forIterator c) ∧ content.Meets K (K.into .forContent c) :=
  and_congr_right fun _ => and_congr_left fun _ => destructureOption_iff

@[simp]
theorem meets_toBool {invert : Bool} {value : ParsedValue} :
    (ParsedValue.toBool invert value).Meets K c ↔ value.Meets K c :=
  Iff.rfl

@[simp]
theorem meets_negation {value : ParsedValue} :
    (ParsedValue.negation value).Meets K c ↔ value.Meets K c :=
  Iff.rfl

@[simp]
theorem meets_import {loc : SourceLocation} {file : ParsedValue} {as_ : Option Name}
    {expose : Expose} : (ParsedValue.import_ loc file as_ expose).Meets K c ↔
      K.node (.expose expose) c ∧ file.Meets K c :=
  Iff.rfl

@[simp]
theorem meets_range {loc : SourceLocation} {start stop : ParsedValue} {inclusive : Bool} :
    (ParsedValue.range loc start stop inclusive).Meets K c ↔
      start.Meets K (K.into .range c) ∧ stop.Meets K (K.into .range c) :=
  Iff.rfl

@[simp]
theorem meets_try {tryBody : ParsedValue} {exceptionType : Option ParsedValue}
    {exceptionName : Option Name} {catchBody : ParsedValue} :
    (ParsedValue.try_ tryBody exceptionType exceptionName catchBody).Meets K c ↔
      K.node .try_ c ∧ tryBody.Meets K (K.into .tryBody c) ∧
        (∀ v ∈ exceptionType, v.Meets K (K.into .exceptionType c)) ∧
        catchBody.Meets K (K.into .catchBody c) :=
  and_congr_right fun _ => and_congr_right fun _ => and_congr_left fun _ => option_iff

@[simp]
theorem meets_index {items : List (Option Destructure)} {rest : Option Destructure} :
    (Destructure.index items rest).Meets K c ↔ K.node (.index rest.isSome) c ∧
      (∀ o ∈ items, ∀ d ∈ o, d.Meets K (K.into .indexItem c)) ∧
      ∀ d ∈ rest, d.Meets K (K.into .indexItem c) := by
  show K.node (.index (foldDestructureOption K.algebra rest).isSome) c ∧
    (∀ o ∈ foldDestructures K.algebra items, ∀ d ∈ o, d (K.into .indexItem c)) ∧
    (∀ d ∈ foldDestructureOption K.algebra rest, d (K.into .indexItem c)) ↔ _
  rw [foldDestructures_eq, foldDestructureOption_eq]
  simp [Destructure.Meets]

@[simp]
theorem meets_key {items : List (ParsedValue × Option Destructure)} {rest : Option Destructure} :
    (Destructure.key items rest).Meets K c ↔ K.node (.key items.length rest.isSome) c ∧
      (∀ (i : ℕ) (x : ParsedValue × Option Destructure), items[i]? = some x →
        x.1.Meets K (K.into (.key i rest.isSome) c) ∧
        ∀ d ∈ x.2, d.Meets K (K.into (.keyItem i rest.isSome) c)) ∧
      ∀ d ∈ rest, d.Meets K (K.into (.keyRest items.length) c) := by
  show K.node (.key (foldKeys K.algebra items).length (foldDestructureOption K.algebra rest).isSome) c ∧
    (∀ (i : ℕ) (x : (ParsedValue × (C → Prop)) × Option (C → Prop)),
      (foldKeys K.algebra items)[i]? = some x →
      x.1.2 (K.into (.key i (foldDestructureOption K.algebra rest).isSome) c) ∧
      ∀ d ∈ x.2, d (K.into (.keyItem i (foldDestructureOption K.algebra rest).isSome) c)) ∧
    (∀ d ∈ foldDestructureOption K.algebra rest,
      d (K.into (.keyRest (foldKeys K.algebra items).length) c)) ↔ _
  rw [foldKeys_eq, foldDestructureOption_eq]
  simp only [List.length_map, Option.isSome_map, List.getElem?_map, Option.map_eq_some_iff,
    forall_exists_index, and_imp, forall_apply_eq_imp_iff₂, Option.forall_mem_map]
  exact Iff.rfl

end Parts

end Chloride
