import Chloride.Containers.Links
import Chloride.Objects.AttributeDeletion

/-!
# Walks along the bases

`get_field_for_class_l`, `get_builtin_field_for_class`, `is_instance` and `append_objects_fields_recursively` follow
`__base__` until there is none, and no write of that attribute is looked at: `__setattr__` writes it like any other.
A run of creations, writes and deletions keeps every walk with an end exactly when none of its steps gives an object a
base from which the object is reached.
-/

namespace Chloride

/-! ## The walks -/

/-- How `__setattr__` ends. -/
inductive SetattrOutcome where
  | wrongCount (argc : ℕ)
  | setter (function : Attribute)
  | set (value : ℕ)
  deriving DecidableEq

/-- How `__getattribute__` ends: with an attribute, with a call of a function, or without any. -/
inductive GetattributeOutcome where
  | wrongCount (argc : ℕ)
  | value (a : Attribute)
  | getter (function : Attribute)
  | getattr (function : Attribute)
  | missing (typeName : Option Attribute) (name : String)
  deriving DecidableEq

section Methods

variable (hash : String → UInt64) (objects : ℕ → ArgonObject)

/-- `__setattr__` of the base class; `none` without enough fuel for the classes. -/
def setattr (fuel : ℕ) (argv : List MethodArgument) : Option (SetattrOutcome × (ℕ → ArgonObject)) :=
  match argv with
  | [.object target, .name name, .object value] => do
    let setter ← getFieldForClassL hash objects ("set_" ++ name) (some target) fuel
      ((objects target).getBuiltinField hash .__class__)
    match setter with
    | some function => return (.setter function, objects)
    | none =>
      let o ← addFieldL hash (objects target) name (some value)
      return (.set value, Function.update objects target o)
  | _ => return (.wrongCount argv.length, objects)

/-- `__getattribute__` of the base class; `none` without enough fuel for the classes. -/
def getattribute (fuel : ℕ) (argv : List MethodArgument) : Option GetattributeOutcome :=
  match argv with
  | [.object toAccess, .name access] => do
    match ← getFieldL hash objects fuel toAccess access true false with
    | some value => return .value value
    | none =>
      let classToAccess := (objects toAccess).getBuiltinField hash .__class__
      match ← getFieldForClassL hash objects ("get_" ++ access) (some toAccess) fuel classToAccess with
      | some getter => return .getter getter
      | none =>
        match ← getBuiltinFieldForClass hash objects .__getattr__ (some toAccess) fuel classToAccess with
        | some function => return .getattr function
        | none =>
          let name ← getBuiltinFieldForClass hash objects .__name__ (some toAccess) fuel classToAccess
          return .missing name access
  | _ => return .wrongCount argv.length

/-- The loop of `is_instance`, which the null object ends too; `none` without enough fuel. -/
def isInstanceLoop (null type_ : ℕ) : ℕ → ℕ → Option Bool
  | 0, _ => none
  | fuel + 1, objectsType =>
    if objectsType = type_ then some true
    else
      match (objects objectsType).getBuiltinField hash .__base__ with
      | none => some false
      | some base => if base = null then some false else isInstanceLoop null type_ fuel base

/-- `is_instance`. -/
def isInstance (null fuel object type_ : ℕ) : Option Bool :=
  match (objects object).getBuiltinField hash .__class__ with
  | none => some false
  | some objectsType => isInstanceLoop hash objects null type_ fuel objectsType

/-- The link that the walks follow. -/
def bases (o : ℕ) : Option ℕ := (objects o).getBuiltinField hash .__base__

/-- Every walk along the bases is done with enough fuel. -/
structure WalksEnd (null : ℕ) : Prop where
  byName : ∀ name binding c,
    ∀ᶠ fuel in Filter.atTop, (getFieldForClassL hash objects name binding fuel c).isSome
  byField : ∀ field binding c,
    ∀ᶠ fuel in Filter.atTop, (getBuiltinFieldForClass hash objects field binding fuel c).isSome
  isInstance : ∀ object type_, ∀ᶠ fuel in Filter.atTop, (Chloride.isInstance hash objects null fuel object type_).isSome
  getattribute : ∀ argv, ∀ᶠ fuel in Filter.atTop, (Chloride.getattribute hash objects fuel argv).isSome
  dir : ∀ c l, ∀ᶠ fuel in Filter.atTop, (appendObjectsFields hash objects fuel c l).isSome

end Methods

/-! ## Steps -/

/-- A step of the interpreter that makes an object or changes one: `new_object`, a write of the interpreter's own, and
the two methods of the base class that a program calls. -/
inductive HeapStep where
  | create (address : ℕ) (isFunction : Bool)
  | write (target : ℕ) (field : BuiltInFields) (object : Option ℕ)
  | setattr (target : ℕ) (name : String) (value : ℕ)
  | delattr (target : ℕ) (name : String)
  deriving DecidableEq

/-- `new_class`. -/
def newClass (typeType baseClass dirFunction : Option ℕ) (address : ℕ) : List HeapStep :=
  [.create address false, .write address .__class__ typeType, .write address .__base__ baseClass,
    .write address .__dir__ dirFunction]

/-- `new_instance` and `new_small_instance`. -/
def newInstance (of : Option ℕ) (isFunction : Bool) (address : ℕ) : List HeapStep :=
  [.create address isFunction, .write address .__class__ of]

/-- The instruction that makes a class: register 0 holds its base. -/
def createClass (typeType baseClass dirFunction : Option ℕ) (register0 name address : ℕ) : List HeapStep :=
  newClass typeType baseClass dirFunction address ++
    [.write address .__base__ (some register0), .write address .__name__ (some name)]

section Steps

variable (hash : String → UInt64)

/-- What a step makes of the objects. A setter or a deleter that is found is called, and what it does is steps of its
own. -/
inductive HeapStep.Steps (objects : ℕ → ArgonObject) : HeapStep → (ℕ → ArgonObject) → Prop where
  | create (address : ℕ) (isFunction : Bool) :
      Steps objects (.create address isFunction) (Function.update objects address (newObject isFunction))
  | write {target : ℕ} {field : BuiltInFields} {object : Option ℕ} {o : ArgonObject} (hfield : field.IsField)
      (hadd : addBuiltinField hash (objects target) field object = some o) :
      Steps objects (.write target field object) (Function.update objects target o)
  | setattr {target value : ℕ} {name : String} {outcome : SetattrOutcome} {objects' : ℕ → ArgonObject} (fuel : ℕ)
      (hset : Chloride.setattr hash objects fuel [.object target, .name name, .object value] =
        some (outcome, objects')) :
      Steps objects (.setattr target name value) objects'
  | delattr {target : ℕ} {name : String} {outcome : DelattrOutcome} {objects' : ℕ → ArgonObject} (fuel : ℕ)
      (hdelete : Chloride.delattr hash objects fuel [.object target, .name name] = some (outcome, objects')) :
      Steps objects (.delattr target name) objects'

/-- A run, as its steps with the objects after each of them. -/
inductive HeapRun : (ℕ → ArgonObject) → List (HeapStep × (ℕ → ArgonObject)) → Prop where
  | nil {objects : ℕ → ArgonObject} : HeapRun objects []
  | cons {objects objects' : ℕ → ArgonObject} {s : HeapStep} {run : List (HeapStep × (ℕ → ArgonObject))}
      (hstep : s.Steps hash objects objects') (hrun : HeapRun objects' run) :
      HeapRun objects ((s, objects') :: run)

/-- A write under the name changes the base of the object: the name is that of the base, or it is one of the hash map
with the hash of that name, and the object has no slot for the base. -/
def Rebases (o : ArgonObject) (name : String) : Prop :=
  name = BuiltInFields.__base__.name ∨
    name ∉ builtInFieldNames.take BuiltInFields.arrayCount ∧ o.slotOf .__base__ = none ∧
      hash BuiltInFields.__base__.name = hash name

/-- The class of the object has a setter for the name. -/
def HasSetter (objects : ℕ → ArgonObject) (target : ℕ) (name : String) : Prop :=
  ∃ fuel function, getFieldForClassL hash objects ("set_" ++ name) (some target) fuel
    ((objects target).getBuiltinField hash .__class__) = some (some function)

/-- The step gives an object a base from which the object is reached. -/
def HeapStep.Closes (objects : ℕ → ArgonObject) : HeapStep → Prop
  | .create _ _ => False
  | .write target field object =>
    Rebases hash (objects target) field.name ∧ Links.Reaches (bases hash objects) target object
  | .setattr target name value =>
    ¬HasSetter hash objects target name ∧ Rebases hash (objects target) name ∧
      Links.Reaches (bases hash objects) target (some value)
  | .delattr _ _ => False

/-- No step of a run closes a circle. -/
def NeverCloses : (ℕ → ArgonObject) → List (HeapStep × (ℕ → ArgonObject)) → Prop
  | _, [] => True
  | objects, (s, objects') :: run => ¬s.Closes hash objects ∧ NeverCloses objects' run

end Steps

/-! ## The walks end where the links do -/

section Walks

variable {hash : String → UInt64} {objects : ℕ → ArgonObject} {c : Option ℕ}

theorem getFieldForClassL_isSome (name : String) (binding : Option ℕ) (h : Links.Ends (bases hash objects) c) :
    ∀ᶠ fuel in Filter.atTop, (getFieldForClassL hash objects name binding fuel c).isSome := by
  refine h.eventually (P := fun fuel c => (getFieldForClassL hash objects name binding fuel c).isSome) ?_ ?_
  · intro n
    cases n <;> rfl
  · intro n a hrest
    rw [getFieldForClassL]
    split
    · rfl
    · exact hrest

theorem getBuiltinFieldForClass_isSome (field : BuiltInFields) (binding : Option ℕ)
    (h : Links.Ends (bases hash objects) c) :
    ∀ᶠ fuel in Filter.atTop, (getBuiltinFieldForClass hash objects field binding fuel c).isSome := by
  refine h.eventually (P := fun fuel c => (getBuiltinFieldForClass hash objects field binding fuel c).isSome) ?_ ?_
  · intro n
    cases n <;> rfl
  · intro n a hrest
    rw [getBuiltinFieldForClass]
    split
    · rfl
    · exact hrest

theorem appendObjectsFields_isSome (l : Listing) (h : Links.Ends (bases hash objects) c) :
    ∀ᶠ fuel in Filter.atTop, (appendObjectsFields hash objects fuel c l).isSome := by
  refine h.eventually (P := fun fuel c => (appendObjectsFields hash objects fuel c l).isSome) ?_ ?_
  · intro n
    cases n <;> rfl
  · intro n a hrest
    rw [appendObjectsFields, Option.isSome_map]
    exact hrest

/-- The search of `get_field_l` goes through the classes of the object. -/
theorem getFieldL_isSome (target : ℕ) (name : String) (recursive disableMethodWrapper : Bool)
    (h : Links.Ends (bases hash objects) ((objects target).getBuiltinField hash .__class__)) :
    ∀ᶠ fuel in Filter.atTop, (getFieldL hash objects fuel target name recursive disableMethodWrapper).isSome := by
  filter_upwards [getFieldForClassL_isSome name (if disableMethodWrapper then none else some target) h]
    with fuel hfuel
  unfold getFieldL
  split
  · rfl
  · split
    · rfl
    · split
      · exact hfuel
      · rfl

/-- A result of the four searches of `__getattribute__` is one of it. -/
theorem getattribute_isSome (argv : List MethodArgument)
    (h : ∀ o, Links.Ends (bases hash objects) ((objects o).getBuiltinField hash .__class__)) :
    ∀ᶠ fuel in Filter.atTop, (getattribute hash objects fuel argv).isSome := by
  unfold getattribute
  split
  case h_1 toAccess access =>
    filter_upwards [getFieldL_isSome toAccess access true false (h toAccess),
      getFieldForClassL_isSome ("get_" ++ access) (some toAccess) (h toAccess),
      getBuiltinFieldForClass_isSome .__getattr__ (some toAccess) (h toAccess),
      getBuiltinFieldForClass_isSome .__name__ (some toAccess) (h toAccess)] with fuel hown hgetter hgetattr hname
    obtain ⟨own, hown⟩ := Option.isSome_iff_exists.mp hown
    obtain ⟨getter, hgetter⟩ := Option.isSome_iff_exists.mp hgetter
    obtain ⟨function, hgetattr⟩ := Option.isSome_iff_exists.mp hgetattr
    obtain ⟨typeName, hname⟩ := Option.isSome_iff_exists.mp hname
    simp only [hown, hgetter, hgetattr, hname, Option.bind_eq_bind, Option.bind_some]
    cases own with
    | some value => rfl
    | none =>
      cases getter with
      | some getter => rfl
      | none => cases function <;> rfl
  case h_2 => exact Filter.Eventually.of_forall fun _ => rfl

theorem isInstance_isSome (null object type_ : ℕ)
    (h : Links.Ends (bases hash objects) ((objects object).getBuiltinField hash .__class__)) :
    ∀ᶠ fuel in Filter.atTop, (isInstance hash objects null fuel object type_).isSome := by
  unfold isInstance
  cases hclass : (objects object).getBuiltinField hash .__class__ with
  | none => exact Filter.Eventually.of_forall fun _ => rfl
  | some c =>
    rw [hclass] at h
    have hloop : ∀ᶠ fuel in Filter.atTop, ∀ c', some c = some c' →
        (isInstanceLoop hash objects null type_ fuel c').isSome := by
      refine h.eventually
        (P := fun fuel c => ∀ c', c = some c' → (isInstanceLoop hash objects null type_ fuel c').isSome) ?_ ?_
      · exact fun n c' hc' => nomatch hc'
      · intro n a hrest c' hc'
        obtain rfl := Option.some.inj hc'
        rw [isInstanceLoop]
        split
        · rfl
        · -- the walk goes on at the base
          split
          · rfl
          · rename_i base hbase
            split
            · rfl
            · exact hrest base hbase
    exact hloop.mono fun fuel hfuel => hfuel c rfl

/-- The walks all end exactly when the links do. -/
theorem walksEnd_iff {null : ℕ} : WalksEnd hash objects null ↔ ∀ c, Links.Ends (bases hash objects) c := by
  constructor
  · intro h c
    -- the walk of `__dir__` stops nowhere before the end
    obtain ⟨fuel, hfuel⟩ := (h.dir c ([], [])).exists
    refine Links.Ends.of_fuel (P := fun fuel c => (appendObjectsFields hash objects fuel c ([], [])).isSome) ?_ ?_
      hfuel
    · intro a ha
      cases ha
    · intro n a ha
      rwa [appendObjectsFields, Option.isSome_map] at ha
  · intro h
    exact ⟨fun name binding c => getFieldForClassL_isSome name binding (h c),
      fun field binding c => getBuiltinFieldForClass_isSome field binding (h c),
      fun object type_ => isInstance_isSome null object type_ (h _),
      fun argv => getattribute_isSome argv fun o => h _,
      fun c l => appendObjectsFields_isSome l (h c)⟩

end Walks

/-! ## What a write does to the links -/

section Writes

variable {hash : String → UInt64} {o o' : ArgonObject}

/-- The hash map of an object is well formed, and its slots are those of the fields that have one. -/
structure ArgonObject.Formed (o : ArgonObject) : Prop where
  wf : ∀ dict, o.dict = some dict → dict.Wf
  fields : ∀ s ∈ o.builtInSlot, s.field.ctorIdx < BuiltInFields.arrayCount

theorem ArgonObject.formed_newObject (isFunction : Bool) : (newObject isFunction).Formed :=
  ⟨nofun, nofun⟩

/-- An insertion into the hash map is seen under every name with the hash. -/
theorem ArgonObject.Formed.insertDict (h : o.Formed) {name : String} {object : Option ℕ}
    (hins : o.insertDict hash name object = some o') :
    o'.Formed ∧ o'.builtInSlot = o.builtInSlot ∧
      ∀ n, o'.inDict hash n = if hash n = hash name then object else o.inDict hash n := by
  obtain ⟨dict, hdict, rfl⟩ := Option.map_eq_some_iff.mp hins
  have hwf : (o.dict.getD .create).Wf := by
    cases hd : o.dict with
    | none => exact HashmapGC.Wf.create
    | some d => exact h.wf d hd
  obtain ⟨hwf', hlookup⟩ := hwf.lookup_insert hdict
  refine ⟨⟨?_, h.fields⟩, rfl, fun n => ?_⟩
  · intro dict' hdict'
    obtain rfl := Option.some.inj hdict'
    exact hwf'
  · have hold : o.inDict hash n = ((o.dict.getD .create).lookup (hash n)).join := by
      unfold ArgonObject.inDict
      cases o.dict with
      | none => rfl
      | some d => rfl
    have hnew : ({ o with dict := some dict } : ArgonObject).inDict hash n = (dict.lookup (hash n)).join := rfl
    rw [hnew, hlookup, hold, Function.update_apply]
    split <;> rfl

/-- A write under a name changes the base to what it writes, or leaves it. -/
def WritesBase (hash : String → UInt64) (o o' : ArgonObject) (name : String) (object : Option ℕ) : Prop :=
  (Rebases hash o name ∧ o'.getBuiltinField hash .__base__ = object) ∨
    ¬Rebases hash o name ∧ o'.getBuiltinField hash .__base__ = o.getBuiltinField hash .__base__

theorem ArgonObject.Formed.writesBase_insertDict (h : o.Formed) {name : String}
    (hname : name ∉ builtInFieldNames.take BuiltInFields.arrayCount) {object : Option ℕ}
    (hins : o.insertDict hash name object = some o') : WritesBase hash o o' name object := by
  obtain ⟨-, hslots, hdict⟩ := h.insertDict hins
  have hne : name ≠ BuiltInFields.__base__.name := by
    rintro rfl
    exact hname (name_mem_take.mpr (by decide))
  have hslot : o'.slotOf .__base__ = o.slotOf .__base__ := by rw [ArgonObject.slotOf, hslots, ArgonObject.slotOf]
  unfold WritesBase ArgonObject.getBuiltinField Rebases
  rw [hslot, hdict]
  cases o.slotOf .__base__ with
  | some slot => simp [hne]
  | none =>
    by_cases hhash : hash BuiltInFields.__base__.name = hash name <;> simp [hne, hname, hhash]

/-- `add_builtin_field` with a field that has a slot writes that slot. -/
theorem addBuiltinField_slot {field : BuiltInFields} (hfield : field.ctorIdx < BuiltInFields.arrayCount)
    {object : Option ℕ} (hadd : addBuiltinField hash o field object = some o') :
    o'.dict = o.dict ∧ (∀ g, o'.slotOf g = if g = field then some ⟨field, object⟩ else o.slotOf g) ∧
      ((∀ s ∈ o.builtInSlot, s.field.ctorIdx < BuiltInFields.arrayCount) →
        ∀ s ∈ o'.builtInSlot, s.field.ctorIdx < BuiltInFields.arrayCount) := by
  unfold addBuiltinField at hadd
  cases hupdate : updateSlot field object o.builtInSlot with
  | some builtInSlot =>
    rw [hupdate] at hadd
    obtain rfl := Option.some.inj hadd
    obtain ⟨hmap, hfind⟩ := updateSlot_spec hupdate
    refine ⟨rfl, hfind, fun hold s hs => ?_⟩
    have hmem : s.field ∈ o.builtInSlot.map BuiltInSlot.field := hmap ▸ List.mem_map_of_mem hs
    obtain ⟨s₁, hs₁, heq⟩ := List.mem_map.mp hmem
    exact heq ▸ hold s₁ hs₁
  | none =>
    rw [hupdate] at hadd
    dsimp only at hadd
    rw [if_neg (by omega)] at hadd
    split at hadd
    case isFalse => cases hadd
    case isTrue =>
      obtain rfl := Option.some.inj hadd
      have habsent := updateSlot_eq_none.mp hupdate
      refine ⟨rfl, fun g => ?_, fun hold s hs => ?_⟩
      · unfold ArgonObject.slotOf
        rw [List.find?_append]
        by_cases hg : g = field
        · simp [hg, habsent]
        · have hne : ¬field = g := fun hfg => hg hfg.symm
          simp [hne, hg]
      · rcases List.mem_append.mp hs with hs | hs
        · exact hold s hs
        · rw [List.mem_singleton.mp hs]
          exact hfield

theorem ArgonObject.Formed.addBuiltinField (h : o.Formed) {field : BuiltInFields} (hfield : field.IsField)
    {object : Option ℕ} (hadd : Chloride.addBuiltinField hash o field object = some o') :
    o'.Formed ∧ WritesBase hash o o' field.name object := by
  by_cases hslot : field.ctorIdx < BuiltInFields.arrayCount
  · obtain ⟨hdict, hfind, hfields⟩ := addBuiltinField_slot hslot hadd
    refine ⟨⟨hdict ▸ h.wf, hfields h.fields⟩, ?_⟩
    have hmem : field.name ∈ builtInFieldNames.take BuiltInFields.arrayCount := name_mem_take.mpr hslot
    unfold WritesBase ArgonObject.getBuiltinField ArgonObject.inDict Rebases
    rw [hfind, hdict]
    by_cases hbase : field = .__base__
    · simp [hbase]
    · have hne : ¬BuiltInFields.__base__ = field := fun hh => hbase hh.symm
      have hname : field.name ≠ BuiltInFields.__base__.name := BuiltInFields.name_injective.ne hbase
      simp [hne, hname, hmem]
  · -- No slot is of the field, so it goes to the hash map.
    have hne : field.ctorIdx ≠ BuiltInFields.arrayCount := fun heq => hfield (BuiltInFields.ctorIdx_injective heq)
    have habsent : updateSlot field object o.builtInSlot = none := by
      rw [updateSlot_eq_none, List.find?_eq_none]
      intro s hs hsf
      have hlt := h.fields s hs
      rw [decide_eq_true_iff.mp hsf] at hlt
      exact hslot hlt
    unfold Chloride.addBuiltinField at hadd
    rw [habsent] at hadd
    dsimp only at hadd
    rw [if_pos (by omega)] at hadd
    exact ⟨(h.insertDict hadd).1, h.writesBase_insertDict (by rwa [name_mem_take]) hadd⟩

theorem ArgonObject.Formed.addFieldL (h : o.Formed) {name : String} {object : Option ℕ}
    (hadd : Chloride.addFieldL hash o name object = some o') :
    o'.Formed ∧ WritesBase hash o o' name object := by
  by_cases hmem : name ∈ builtInFieldNames.take BuiltInFields.arrayCount
  · obtain ⟨field, hlt, rfl⟩ := exists_field_of_mem_take hmem
    rw [addFieldL_slot o hlt] at hadd
    refine h.addBuiltinField ?_ hadd
    rintro rfl
    exact lt_irrefl _ hlt
  · rw [addFieldL_dict o hmem] at hadd
    exact ⟨(h.insertDict hadd).1, h.writesBase_insertDict hmem hadd⟩

end Writes

/-! ## Runs -/

section Runs

variable {hash : String → UInt64} {objects objects' : ℕ → ArgonObject}

/-- The fuel does not change what a search through the classes finds. -/
theorem getFieldForClassL_unique {name : String} {binding c : Option ℕ} {fuel fuel' : ℕ}
    {r r' : Option Attribute} (h : getFieldForClassL hash objects name binding fuel c = some r)
    (h' : getFieldForClassL hash objects name binding fuel' c = some r') : r = r' := by
  induction fuel generalizing c fuel' with
  | zero =>
    cases c with
    | none => cases fuel' <;> exact Option.some.inj (h.symm.trans h')
    | some c => cases h
  | succ fuel ih =>
    cases c with
    | none => cases fuel' <;> exact Option.some.inj (h.symm.trans h')
    | some c =>
      cases fuel' with
      | zero => cases h'
      | succ fuel' =>
        rw [getFieldForClassL] at h h'
        cases hown : (objects c).getFieldL hash name with
        | some object =>
          rw [hown] at h h'
          exact Option.some.inj (h.symm.trans h')
        | none =>
          rw [hown] at h h'
          exact ih h h'

/-- Objects that differ in the base of one of them. -/
theorem bases_update (target : ℕ) (o : ArgonObject) :
    bases hash (Function.update objects target o) =
      Function.update (bases hash objects) target (o.getBuiltinField hash .__base__) := by
  funext a
  unfold bases
  by_cases ha : a = target
  · rw [ha, Function.update_self, Function.update_self]
  · rw [Function.update_of_ne ha, Function.update_of_ne ha]

/-- After a write every walk has an end exactly when the write does not close a circle. -/
theorem WritesBase.forall_ends_iff {target : ℕ} {o : ArgonObject} {name : String} {object : Option ℕ}
    (h : WritesBase hash (objects target) o name object) (hends : ∀ c, Links.Ends (bases hash objects) c) :
    (∀ c, Links.Ends (bases hash (Function.update objects target o)) c) ↔
      ¬(Rebases hash (objects target) name ∧ Links.Reaches (bases hash objects) target object) := by
  rw [bases_update, Links.forall_ends_update_iff hends]
  rcases h with ⟨hrebases, hbase⟩ | ⟨hrebases, hbase⟩
  · simp [hrebases, hbase]
  · -- the base is what it was, from where the walk has an end
    have hold : ¬Links.Reaches (bases hash objects) target (bases hash objects target) :=
      fun hreaches => Links.not_ends_of_reaches hreaches (hends (some target))
    rw [hbase]
    exact iff_of_true hold fun hcloses => hrebases hcloses.1

theorem formed_update (h : ∀ o, (objects o).Formed) {target : ℕ} {o : ArgonObject} (ho : o.Formed) (a : ℕ) :
    (Function.update objects target o a).Formed := by
  by_cases ha : a = target
  · rw [ha, Function.update_self]
    exact ho
  · rw [Function.update_of_ne ha]
    exact h a

/-- Nothing is reached from nowhere. -/
theorem not_reaches_none (next : ℕ → Option ℕ) (a : ℕ) : ¬Links.Reaches next a none := nofun

/-- A step keeps the objects formed, and the ends of the walks unless it closes a circle. -/
theorem HeapStep.Steps.spec {s : HeapStep} (h : s.Steps hash objects objects') (hformed : ∀ o, (objects o).Formed) :
    (∀ o, (objects' o).Formed) ∧ ((∀ c, Links.Ends (bases hash objects) c) →
      ((∀ c, Links.Ends (bases hash objects') c) ↔ ¬s.Closes hash objects)) := by
  cases h with
  | create address isFunction =>
    refine ⟨formed_update hformed (ArgonObject.formed_newObject isFunction), fun hends => ?_⟩
    have hbase : (newObject isFunction).getBuiltinField hash .__base__ = none := rfl
    rw [bases_update, hbase, Links.forall_ends_update_iff hends]
    simp [HeapStep.Closes, not_reaches_none]
  | @write target field object o hfield hadd =>
    obtain ⟨ho, hwrites⟩ := (hformed target).addBuiltinField hfield hadd
    exact ⟨formed_update hformed ho, hwrites.forall_ends_iff⟩
  | @setattr target value name outcome _ fuel hset =>
    unfold Chloride.setattr at hset
    obtain ⟨setter, hsetter, hset⟩ := Option.bind_eq_some_iff.mp hset
    cases setter with
    -- A setter is found: nothing is written.
    | some function =>
      cases hset
      have hhas : HasSetter hash objects target name := ⟨fuel, function, hsetter⟩
      refine ⟨hformed, fun hends => ?_⟩
      simp [HeapStep.Closes, hhas, hends]
    | none =>
      obtain ⟨o, hadd, hset⟩ := Option.bind_eq_some_iff.mp hset
      cases hset
      have hhas : ¬HasSetter hash objects target name := by
        rintro ⟨fuel', function, hfound⟩
        cases getFieldForClassL_unique hsetter hfound
      obtain ⟨ho, hwrites⟩ := (hformed target).addFieldL hadd
      refine ⟨formed_update hformed ho, fun hends => ?_⟩
      rw [hwrites.forall_ends_iff hends]
      simp [HeapStep.Closes, hhas]
  | @delattr target name outcome _ fuel hdelete =>
    unfold Chloride.delattr at hdelete
    obtain ⟨deleter, -, hdelete⟩ := Option.bind_eq_some_iff.mp hdelete
    cases deleter with
    | some function =>
      cases hdelete
      exact ⟨hformed, fun hends => by simp [HeapStep.Closes, hends]⟩
    | none =>
      obtain ⟨found, -, hdelete⟩ := Option.bind_eq_some_iff.mp hdelete
      cases found with
      | none =>
        cases hdelete
        exact ⟨hformed, fun hends => by simp [HeapStep.Closes, hends]⟩
      | some a =>
        obtain ⟨o, hadd, hdelete⟩ := Option.bind_eq_some_iff.mp hdelete
        cases hdelete
        obtain ⟨ho, hwrites⟩ := (hformed target).addFieldL hadd
        refine ⟨formed_update hformed ho, fun hends => ?_⟩
        rw [hwrites.forall_ends_iff hends]
        simp [HeapStep.Closes, not_reaches_none]

/-- In a run from objects whose walks all have ends, they have ends in every state exactly when no step closes a
circle. -/
theorem HeapRun.forall_walksEnd_iff {null : ℕ} {run : List (HeapStep × (ℕ → ArgonObject))}
    (h : HeapRun hash objects run) (hformed : ∀ o, (objects o).Formed)
    (hends : ∀ c, Links.Ends (bases hash objects) c) :
    (∀ e ∈ run, WalksEnd hash e.2 null) ↔ NeverCloses hash objects run := by
  induction h with
  | nil => simp [NeverCloses]
  | @cons objects objects' s run hstep _ ih =>
    obtain ⟨hformed', hiff⟩ := hstep.spec hformed
    rw [List.forall_mem_cons, NeverCloses, walksEnd_iff, hiff hends]
    constructor
    · rintro ⟨hcloses, hrest⟩
      exact ⟨hcloses, (ih hformed' ((hiff hends).mpr hcloses)).mp hrest⟩
    · rintro ⟨hcloses, hrest⟩
      exact ⟨hcloses, (ih hformed' ((hiff hends).mpr hcloses)).mpr hrest⟩

/-- In every run the walks along the bases end in every state exactly when no step gives an object a base from which
the object is reached. -/
theorem walks_end_iff {isFunction : ℕ → Bool} {null : ℕ} {run : List (HeapStep × (ℕ → ArgonObject))}
    (h : HeapRun hash (newObjects isFunction) run) :
    (∀ e ∈ run, WalksEnd hash e.2 null) ↔ NeverCloses hash (newObjects isFunction) run := by
  apply h.forall_walksEnd_iff
  · exact fun o => ArgonObject.formed_newObject (isFunction o)
  · intro c
    cases c with
    | none => exact .stop
    | some a => exact .link .stop

/-- The steps that make an object close no circle: it is not reached from anything else. -/
theorem HeapRun.neverCloses_of_fresh {address : ℕ} {run : List (HeapStep × (ℕ → ArgonObject))}
    (h : HeapRun hash objects run) (hformed : ∀ o, (objects o).Formed)
    (hfresh : ∀ a, bases hash objects a ≠ some address)
    (hsteps : ∀ e ∈ run, (∃ isFunction, e.1 = .create address isFunction) ∨
      ∃ field object, e.1 = .write address field object ∧ object ≠ some address) :
    NeverCloses hash objects run := by
  induction h with
  | nil => exact trivial
  | @cons objects objects' s run hstep _ ih =>
    obtain ⟨hhead, hrest⟩ := List.forall_mem_cons.mp hsteps
    have hformed' := (hstep.spec hformed).1
    -- the links to the object stay as they are: there is none
    have hlinks : ∀ o v, objects' = Function.update objects address o →
        o.getBuiltinField hash .__base__ = v → v ≠ some address →
        ∀ a, bases hash objects' a ≠ some address := by
      rintro o v rfl rfl hv a
      rw [bases_update]
      by_cases ha : a = address
      · rwa [ha, Function.update_self]
      · rw [Function.update_of_ne ha]
        exact hfresh a
    rcases hhead with ⟨isFunction, rfl⟩ | ⟨field, object, rfl, hobject⟩
    · cases hstep with
      | create =>
        exact ⟨not_false, ih hformed' (hlinks (newObject isFunction) none rfl rfl nofun) hrest⟩
    · have hcloses : ¬(HeapStep.write address field object).Closes hash objects := by
        rintro ⟨-, hreaches⟩
        cases object with
        | none => exact not_reaches_none _ _ hreaches
        | some b => exact hobject (congrArg some (hreaches.eq_of_unlinked hfresh))
      cases hstep with
      | @write _ _ _ o hfield hadd =>
        refine ⟨hcloses, ih hformed' ?_ hrest⟩
        rcases ((hformed address).addBuiltinField hfield hadd).2 with ⟨-, hbase⟩ | ⟨-, hbase⟩
        · exact hlinks o object rfl hbase hobject
        · exact hlinks o _ rfl hbase (hfresh address)

/-- A class that is made of others closes no circle. -/
theorem createClass_neverCloses {typeType baseClass dirFunction : Option ℕ} {register0 name address : ℕ}
    {run : List (HeapStep × (ℕ → ArgonObject))} (h : HeapRun hash objects run)
    (hrun : run.map Prod.fst = createClass typeType baseClass dirFunction register0 name address)
    (hformed : ∀ o, (objects o).Formed) (hfresh : ∀ a, bases hash objects a ≠ some address)
    (hothers : ∀ o ∈ [typeType, baseClass, dirFunction, some register0, some name], o ≠ some address) :
    NeverCloses hash objects run := by
  apply h.neverCloses_of_fresh hformed hfresh
  intro e he
  have hmem : e.1 ∈ createClass typeType baseClass dirFunction register0 name address :=
    hrun ▸ List.mem_map_of_mem he
  simp only [createClass, newClass, List.cons_append, List.nil_append, List.mem_cons, List.not_mem_nil,
    or_false] at hmem
  rcases hmem with hs | hs | hs | hs | hs | hs
  · exact Or.inl ⟨false, hs⟩
  · exact Or.inr ⟨_, _, hs, hothers _ (by simp)⟩
  · exact Or.inr ⟨_, _, hs, hothers _ (by simp)⟩
  · exact Or.inr ⟨_, _, hs, hothers _ (by simp)⟩
  · exact Or.inr ⟨_, _, hs, hothers _ (by simp)⟩
  · exact Or.inr ⟨_, _, hs, hothers _ (by simp)⟩

end Runs

/-- A class and an instance of it are made, and a program writes `__base__` of the instance. -/
theorem walks_end_class : ∃ run, HeapRun nameIndex (newObjects fun _ => false) run ∧
    run.map Prod.fst = newClass (some 1) (some 0) (some 2) 3 ++ newInstance (some 3) false 4 ++
      [.setattr 4 "__base__" 3] ∧
    ((∀ e ∈ run, WalksEnd nameIndex e.2 5) ↔ NeverCloses nameIndex (newObjects fun _ => false) run) := by
  obtain ⟨run, hrun, hsteps⟩ : ∃ run, HeapRun nameIndex (newObjects fun _ => false) run ∧
      run.map Prod.fst = newClass (some 1) (some 0) (some 2) 3 ++ newInstance (some 3) false 4 ++
        [.setattr 4 "__base__" 3] := by
    refine ⟨_, .cons (.create 3 false) (.cons (.write (by exact nofun) rfl) (.cons (.write (by exact nofun) rfl)
      (.cons (.write (by exact nofun) rfl) (.cons (.create 4 false) (.cons (.write (by exact nofun) rfl)
        (.cons (.setattr 9 rfl) .nil)))))), rfl⟩
  exact ⟨run, hrun, hsteps, walks_end_iff hrun⟩

/-- A program makes a class its own base, after which the walks from it go in a circle. -/
theorem not_forall_walks_end :
    ¬∀ (hash : String → UInt64) (isFunction : ℕ → Bool) (null : ℕ) (run : List (HeapStep × (ℕ → ArgonObject))),
      HeapRun hash (newObjects isFunction) run → ∀ e ∈ run, WalksEnd hash e.2 null := by
  intro hall
  obtain ⟨run, objects, hrun, hlast, hbase⟩ : ∃ run objects, HeapRun nameIndex (newObjects fun _ => false) run ∧
      (run.map Prod.fst = newClass (some 1) (some 0) (some 2) 3 ++ [.setattr 3 "__base__" 3] ∧
        run.getLast? = some (.setattr 3 "__base__" 3, objects)) ∧ bases nameIndex objects 3 = some 3 := by
    refine ⟨_, _, .cons (.create 3 false) (.cons (.write (by exact nofun) rfl) (.cons (.write (by exact nofun) rfl)
      (.cons (.write (by exact nofun) rfl) (.cons (.setattr 9 rfl) .nil)))), ⟨rfl, rfl⟩, rfl⟩
  have hends := walksEnd_iff.mp (hall _ _ 5 _ hrun _ (List.mem_of_getLast? hlast.2)) (some 3)
  refine Links.not_ends_of_reaches ?_ hends
  rw [hbase]
  exact .here

end Chloride
