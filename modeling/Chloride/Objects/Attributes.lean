import Chloride.Containers.Runs
import Chloride.Hashmap.History

/-!
# Attributes of objects

How `src/runtime/objects/object.c` keeps the attributes of an object and finds them: the first three
of the built-in fields go to an array of slots in the order in which they arrive, everything else to
a hash map. `add_builtin_field` and `get_builtin_field_with_recursion_support` go by the enumerator
of a field, `add_field_l` and `get_field_l` by its name.

`get_field_l` compares the name with the name of the field whose enumerator is the slot's place,
which is the field in the slot only when the slots were filled in the order of the enumeration. And
`get_builtin_field_with_recursion_support` looks the class of the object up in the hash map, where it
never is, so it inherits nothing. The last theorem says that the two routes agree exactly when
neither shows.

An object is named by its address, and the null pointer is `none`. The loops along the base classes
take fuel, as nothing keeps the bases from going in circles.
-/

namespace Chloride

/-- `built_in_fields`, with the names the source gives the enumerators. -/
inductive BuiltInFields where
  | __base__ | __class__ | __name__ | BUILT_IN_ARRAY_COUNT | __binding__ | __function__ | __add__
  | __string__ | __subtract__ | __multiply__ | __exponent__ | __division__ | __floor_division__
  | __modulo__ | __equal__ | __not_equal__ | __less_than__ | __less_than_equal__ | __greater_than__
  | __greater_than_equal__ | __new__ | __init__ | __boolean__ | __getattr__ | __call__ | __number__
  | get_length | set_length | of_size | extend | from_string | to_string | partition
  | __getattribute__ | __negation__ | __setattr__ | __delattr__ | __getitem__ | __setitem__
  | __delitem__ | value_get | __hash__ | __repr__ | __dir__ | append | insert | pop | __contains__
  | __iter__ | of | __next__ | __template__ | message | stack_trace | indices | start | step | stop
  | split | join | chr | ord | upper | lower | title | replace | «repeat» | strip | index_of
  | last_index_of | map | filter | sort | starts_with | ends_with | from_byte | to_byte
  | field__address
  deriving DecidableEq

/-- `built_in_field_names`. -/
def builtInFieldNames : List String :=
  ["__base__", "__class__", "__name__", "BUILT_IN_ARRAY_COUNT", "__binding__", "__function__",
    "__add__", "__string__", "__subtract__", "__multiply__", "__exponent__", "__division__",
    "__floor_division__", "__modulo__", "__equal__", "__not_equal__", "__less_than__",
    "__less_than_equal__", "__greater_than__", "__greater_than_equal__", "__new__", "__init__",
    "__boolean__", "__getattr__", "__call__", "__number__", "get_length", "set_length", "of_size",
    "extend", "from_string", "to_string", "partition", "__getattribute__", "__negation__",
    "__setattr__", "__delattr__", "__getitem__", "__setitem__", "__delitem__", "value_get",
    "__hash__", "__repr__", "__dir__", "append", "insert", "pop", "__contains__", "__iter__", "of",
    "__next__", "__template__", "message", "stack_trace", "indices", "start", "step", "stop",
    "split", "join", "chr", "ord", "upper", "lower", "title", "replace", "repeat", "strip",
    "index_of", "last_index_of", "map", "filter", "sort", "starts_with", "ends_with", "from_byte",
    "to_byte", "address"]

namespace BuiltInFields

/-- `built_in_field_names[field]`. -/
def name (field : BuiltInFields) : String := builtInFieldNames.getD field.ctorIdx ""

/-- `BUILT_IN_ARRAY_COUNT` as the number it stands for: how many fields have a slot. -/
def arrayCount : ℕ := BUILT_IN_ARRAY_COUNT.ctorIdx

/-- The enumerator that only counts the fields before it is none. -/
def IsField (field : BuiltInFields) : Prop := field ≠ BUILT_IN_ARRAY_COUNT

theorem ctorIdx_lt (field : BuiltInFields) : field.ctorIdx < builtInFieldNames.length := by
  cases field <;> decide

theorem ctorIdx_injective : Function.Injective BuiltInFields.ctorIdx :=
  Function.LeftInverse.injective BuiltInFields.ofNat_ctorIdx

theorem names_nodup : builtInFieldNames.Nodup := by decide

/-- A field's name stands at the place of its enumerator. -/
theorem getElem?_name (field : BuiltInFields) :
    builtInFieldNames[field.ctorIdx]? = some field.name := by
  rw [name, List.getD_eq_getElem _ _ field.ctorIdx_lt, List.getElem?_eq_getElem field.ctorIdx_lt]

/-- Different fields have different names. -/
theorem name_injective : Function.Injective BuiltInFields.name := by
  intro f g h
  obtain ⟨_, hf⟩ := List.getElem?_eq_some_iff.mp f.getElem?_name
  obtain ⟨_, hg⟩ := List.getElem?_eq_some_iff.mp g.getElem?_name
  rw [h, ← hg, names_nodup.getElem_inj_iff] at hf
  exact ctorIdx_injective hf

end BuiltInFields

/-- `struct built_in_slot`. -/
structure BuiltInSlot where
  field : BuiltInFields
  value : Option ℕ
  deriving DecidableEq

/-- The attributes of a `struct ArgonObject`, and whether its type is that of a function or of a
native function; `built_in_slot_length` is the length of `builtInSlot`. -/
structure ArgonObject where
  isFunction : Bool
  builtInSlot : List BuiltInSlot
  dict : Option (HashmapGC String (Option ℕ))
  deriving DecidableEq

/-- `new_object`. -/
def newObject (isFunction : Bool) : ArgonObject where
  isFunction := isFunction
  builtInSlot := []
  dict := none

/-- What a pointer to an attribute's value points to: an object, or the method object that
`bind_object_to_function` makes for a function found in a class. -/
inductive Attribute where
  | object (address : ℕ)
  | method (binding function : ℕ)
  deriving DecidableEq

/-- Give the slot of a field another value; `none` when the field has no slot. The loop of
`add_builtin_field`. -/
def updateSlot (field : BuiltInFields) (object : Option ℕ) :
    List BuiltInSlot → Option (List BuiltInSlot)
  | [] => none
  | s :: ss =>
    if s.field = field then some ({ s with value := object } :: ss)
    else (updateSlot field object ss).map (s :: ·)

section Access

variable (hash : String → UInt64)

/-- Insertion into the hash map of an object, which is made when it is missing. -/
def ArgonObject.insertDict (target : ArgonObject) (name : String) (object : Option ℕ) :
    Option ArgonObject :=
  ((target.dict.getD .create).insert (hash name) name object 0).map fun dict =>
    { target with dict := some dict }

/-- `add_builtin_field`; `none` where the slots are full or the hash map cannot grow. -/
def addBuiltinField (target : ArgonObject) (field : BuiltInFields) (object : Option ℕ) :
    Option ArgonObject :=
  match updateSlot field object target.builtInSlot with
  | some builtInSlot => some { target with builtInSlot := builtInSlot }
  | none =>
    if BuiltInFields.arrayCount < field.ctorIdx then target.insertDict hash field.name object
    else if target.builtInSlot.length < BuiltInFields.arrayCount then
      some { target with builtInSlot := target.builtInSlot ++ [⟨field, object⟩] }
    else none

/-- `add_field_l`: the names of the fields with a slot go to `add_builtin_field`. -/
def addFieldL (target : ArgonObject) (name : String) (object : Option ℕ) : Option ArgonObject :=
  match (builtInFieldNames.take BuiltInFields.arrayCount).findIdx? (· = name) with
  | some i => addBuiltinField hash target (BuiltInFields.ofNat i) object
  | none => target.insertDict hash name object

/-- The loop over the slots in `get_builtin_field_with_recursion_support`. -/
def ArgonObject.slotOf (target : ArgonObject) (field : BuiltInFields) : Option BuiltInSlot :=
  target.builtInSlot.find? fun s => s.field = field

/-- The loop over the slots in `get_field_l`, which compares the name with the name at the place of
the slot in the enumeration. -/
def ArgonObject.slotAt (target : ArgonObject) (name : String) : Option BuiltInSlot :=
  ((builtInFieldNames.zip target.builtInSlot).find? fun e => e.1 = name).map Prod.snd

/-- The value that the hash map of an object has for a name. -/
def ArgonObject.inDict (target : ArgonObject) (name : String) : Option ℕ :=
  target.dict.bind fun dict => (dict.lookup (hash name)).join

/-- `get_builtin_field`. -/
def ArgonObject.getBuiltinField (target : ArgonObject) (field : BuiltInFields) : Option ℕ :=
  match target.slotOf field with
  | some slot => slot.value
  | none => target.inDict hash field.name

/-- `get_field_l` without recursion. -/
def ArgonObject.getFieldL (target : ArgonObject) (name : String) : Option ℕ :=
  match target.slotAt name with
  | some slot => slot.value
  | none => target.inDict hash name

variable (objects : ℕ → ArgonObject)

/-- An object found in a class: a function is bound to the object whose attribute was asked for. -/
def bindFound (binding : Option ℕ) (object : ℕ) : Attribute :=
  match binding with
  | some binding => if (objects object).isFunction then .method binding object else .object object
  | none => .object object

/-- `get_field_for_class_l`; `none` without enough fuel. -/
def getFieldForClassL (name : String) (binding : Option ℕ) :
    ℕ → Option ℕ → Option (Option Attribute)
  | _, none => some none
  | 0, some _ => none
  | fuel + 1, some target =>
    match (objects target).getFieldL hash name with
    | some object => some (some (bindFound objects binding object))
    | none =>
      getFieldForClassL name binding fuel ((objects target).getBuiltinField hash .__base__)

/-- `get_field_l`. -/
def getFieldL (fuel target : ℕ) (name : String) (recursive disableMethodWrapper : Bool) :
    Option (Option Attribute) :=
  match (objects target).slotAt name with
  | some slot => some (slot.value.map .object)
  | none =>
    match (objects target).inDict hash name with
    | some object => some (some (.object object))
    | none =>
      if recursive then
        getFieldForClassL hash objects name (if disableMethodWrapper then none else some target) fuel
          ((objects target).getBuiltinField hash .__class__)
      else some none

/-- `get_builtin_field_for_class`; `none` without enough fuel. -/
def getBuiltinFieldForClass (field : BuiltInFields) (binding : Option ℕ) :
    ℕ → Option ℕ → Option (Option Attribute)
  | _, none => some none
  | 0, some _ => none
  | fuel + 1, some target =>
    match (objects target).getBuiltinField hash field with
    | some object => some (some (bindFound objects binding object))
    | none =>
      getBuiltinFieldForClass field binding fuel ((objects target).getBuiltinField hash .__base__)

/-- `get_builtin_field_with_recursion_support`: the class comes from the hash map. -/
def getBuiltinFieldWithRecursionSupport (fuel target : ℕ) (field : BuiltInFields)
    (recursive disableMethodWrapper : Bool) : Option (Option Attribute) :=
  match (objects target).slotOf field with
  | some slot => some (slot.value.map .object)
  | none =>
    match (objects target).dict with
    | none => some none
    | some _ =>
      match (objects target).inDict hash field.name with
      | some object => some (some (.object object))
      | none =>
        if recursive then
          getBuiltinFieldForClass hash objects field
            (if disableMethodWrapper then none else some target) fuel
            ((objects target).inDict hash BuiltInFields.__class__.name)
        else some none

/-- A write of an attribute, by the enumerator or by the name. -/
inductive AttributeWrite where
  | addBuiltinField (target : ℕ) (field : BuiltInFields) (object : Option ℕ)
  | addFieldL (target : ℕ) (name : String) (object : Option ℕ)
  deriving DecidableEq

/-- One write. -/
def writeStep : AttributeWrite → Option (ℕ → ArgonObject)
  | .addBuiltinField target field object =>
    (addBuiltinField hash (objects target) field object).map (Function.update objects target)
  | .addFieldL target name object =>
    (addFieldL hash (objects target) name object).map (Function.update objects target)

end Access

/-! ## Attributes as a partial function -/

/-- What every object was last given under every name: a write of the null pointer takes the
attribute away. -/
def AttributeWrite.apply (attributes : ℕ → String → Option ℕ) :
    AttributeWrite → ℕ → String → Option ℕ
  | .addBuiltinField target field object =>
    Function.update attributes target (Function.update (attributes target) field.name object)
  | .addFieldL target name object =>
    Function.update attributes target (Function.update (attributes target) name object)

/-- The attribute that a class has or inherits from its bases, `none` where the chain of the bases
ends without one. -/
inductive Inherits (attributes : ℕ → String → Option ℕ) (name : String) :
    Option ℕ → Option ℕ → Prop where
  | done : Inherits attributes name none none
  | here {c v : ℕ} : attributes c name = some v → Inherits attributes name (some c) (some v)
  | base {c : ℕ} {r : Option ℕ} : attributes c name = none →
      Inherits attributes name (attributes c "__base__") r → Inherits attributes name (some c) r

/-- What an attribute access should give: the object's own attribute, or the one of its class, with
a function of the class bound to the object. -/
inductive Reads (objects : ℕ → ArgonObject) (attributes : ℕ → String → Option ℕ) (target : ℕ)
    (name : String) (disableMethodWrapper : Bool) : Bool → Option Attribute → Prop where
  | own {recursive : Bool} {v : ℕ} : attributes target name = some v →
      Reads objects attributes target name disableMethodWrapper recursive (some (.object v))
  | absent : attributes target name = none →
      Reads objects attributes target name disableMethodWrapper false none
  | inherited {r : Option ℕ} : attributes target name = none →
      Inherits attributes name (attributes target "__class__") r →
      Reads objects attributes target name disableMethodWrapper true
        (r.map (bindFound objects (if disableMethodWrapper then none else some target)))

/-! ## One object -/

section Object

variable {hash : String → UInt64} {S : Set String}

/-- Updating a slot keeps the fields of the slots, and changes what the field is found to have. -/
theorem updateSlot_spec {field : BuiltInFields} {object : Option ℕ} {ss ss' : List BuiltInSlot}
    (h : updateSlot field object ss = some ss') :
    ss'.map BuiltInSlot.field = ss.map BuiltInSlot.field ∧ ∀ g,
      ss'.find? (fun s => s.field = g) =
        if g = field then some ⟨field, object⟩ else ss.find? fun s => s.field = g := by
  induction ss generalizing ss' with
  | nil => cases h
  | cons s ss ih =>
    rw [updateSlot] at h
    split at h
    case isTrue hs =>
      obtain rfl := Option.some.inj h
      refine ⟨rfl, fun g => ?_⟩
      by_cases hg : g = field
      · simp [hg, hs]
      · have hne : ¬s.field = g := fun hsg => hg (hsg.symm.trans hs)
        simp [hg, hne]
    case isFalse hs =>
      obtain ⟨ss₁, hss₁, rfl⟩ := Option.map_eq_some_iff.mp h
      obtain ⟨hfields, hfind⟩ := ih hss₁
      refine ⟨by simp [hfields], fun g => ?_⟩
      by_cases hg : s.field = g
      · have hne : ¬g = field := fun hgf => hs (hg.trans hgf)
        simp [hg, hne]
      · simp [hg, hfind]

/-- No slot is updated only when there is none of the field. -/
theorem updateSlot_eq_none {field : BuiltInFields} {object : Option ℕ} {ss : List BuiltInSlot} :
    updateSlot field object ss = none ↔ ss.find? (fun s => s.field = field) = none := by
  induction ss with
  | nil => simp [updateSlot]
  | cons s ss ih =>
    rw [updateSlot]
    by_cases hs : s.field = field
    · simp [hs]
    · simp [hs, ih]

variable (hash S) in
/-- How the slots and the hash map of an object hold its attributes. -/
structure ArgonObject.Holds (o : ArgonObject) (a : String → Option ℕ) : Prop where
  wf : ∀ dict, o.dict = some dict → dict.Wf
  length : o.builtInSlot.length ≤ BuiltInFields.arrayCount
  fields : ∀ s ∈ o.builtInSlot, s.field.ctorIdx < BuiltInFields.arrayCount
  slots : ∀ field : BuiltInFields, field.ctorIdx < BuiltInFields.arrayCount →
    a field.name = (o.slotOf field).bind BuiltInSlot.value ∧ o.inDict hash field.name = none
  dict : ∀ name ∈ S, name ∉ builtInFieldNames.take BuiltInFields.arrayCount →
    a name = o.inDict hash name

/-- A new object has no attributes. -/
theorem holds_newObject (isFunction : Bool) :
    (newObject isFunction).Holds hash S fun _ => none where
  wf := nofun
  length := Nat.zero_le _
  fields := nofun
  slots _ _ := ⟨rfl, rfl⟩
  dict _ _ _ := rfl

/-- The fields with a slot are those with the first names. -/
theorem name_mem_take {field : BuiltInFields} :
    field.name ∈ builtInFieldNames.take BuiltInFields.arrayCount ↔
      field.ctorIdx < BuiltInFields.arrayCount := by
  cases field <;> decide

/-- The first names are those of fields with a slot. -/
theorem exists_field_of_mem_take {name : String}
    (h : name ∈ builtInFieldNames.take BuiltInFields.arrayCount) :
    ∃ field : BuiltInFields, field.ctorIdx < BuiltInFields.arrayCount ∧ field.name = name := by
  have hnames : builtInFieldNames.take BuiltInFields.arrayCount =
      ["__base__", "__class__", "__name__"] := rfl
  rw [hnames] at h
  simp only [List.mem_cons, List.not_mem_nil, or_false] at h
  rcases h with rfl | rfl | rfl
  · exact ⟨.__base__, by decide, rfl⟩
  · exact ⟨.__class__, by decide, rfl⟩
  · exact ⟨.__name__, by decide, rfl⟩

/-- `add_field_l` sends the name of a field with a slot to `add_builtin_field`. -/
theorem addFieldL_slot (o : ArgonObject) {field : BuiltInFields}
    (hfield : field.ctorIdx < BuiltInFields.arrayCount) (object : Option ℕ) :
    addFieldL hash o field.name object = addBuiltinField hash o field object := by
  have hidx : (builtInFieldNames.take BuiltInFields.arrayCount).findIdx?
      (fun name => name = field.name) = some field.ctorIdx := by
    revert hfield
    cases field <;> decide
  rw [addFieldL, hidx]
  dsimp only
  rw [BuiltInFields.ofNat_ctorIdx]

/-- `add_field_l` puts every other name into the hash map. -/
theorem addFieldL_dict (o : ArgonObject) {name : String}
    (hname : name ∉ builtInFieldNames.take BuiltInFields.arrayCount) (object : Option ℕ) :
    addFieldL hash o name object = o.insertDict hash name object := by
  have hidx : (builtInFieldNames.take BuiltInFields.arrayCount).findIdx? (· = name) = none := by
    rw [List.findIdx?_eq_none_iff]
    intro other hother
    rw [decide_eq_false_iff_not]
    rintro rfl
    exact hname hother
  rw [addFieldL, hidx]

variable (hS : S.InjOn hash) (hnames : ∀ field : BuiltInFields, field.name ∈ S)

include hS hnames

/-- An insertion into the hash map of an object writes the attribute. -/
theorem ArgonObject.Holds.insertDict {o o' : ArgonObject} {a : String → Option ℕ}
    (h : o.Holds hash S a) {name : String} (hname : name ∈ S)
    (hfree : name ∉ builtInFieldNames.take BuiltInFields.arrayCount) {object : Option ℕ}
    (hins : o.insertDict hash name object = some o') :
    o'.Holds hash S (Function.update a name object) := by
  obtain ⟨dict, hdict, rfl⟩ := Option.map_eq_some_iff.mp hins
  have hwf : (o.dict.getD .create).Wf := by
    cases hd : o.dict with
    | none => exact HashmapGC.Wf.create
    | some d => exact h.wf d hd
  obtain ⟨hwf', hlookup⟩ := hwf.lookup_insert hdict
  -- what the hash map has afterwards
  have hinDict : ∀ other ∈ S, ({ o with dict := some dict } : ArgonObject).inDict hash other =
      if other = name then object else o.inDict hash other := by
    intro other hother
    have hold : o.inDict hash other = ((o.dict.getD .create).lookup (hash other)).join := by
      unfold ArgonObject.inDict
      cases o.dict with
      | none => rfl
      | some d => rfl
    have hnew : ({ o with dict := some dict } : ArgonObject).inDict hash other =
        (dict.lookup (hash other)).join := rfl
    rw [hnew, hlookup, hold]
    by_cases heq : other = name
    · rw [if_pos heq, heq, Function.update_self]
      rfl
    · have hne : hash other ≠ hash name := fun hh => heq (hS hother hname hh)
      rw [if_neg heq, Function.update_of_ne hne]
  constructor
  · -- The hash map is well formed.
    intro dict' hdict'
    obtain rfl := Option.some.inj hdict'
    exact hwf'
  · exact h.length
  · exact h.fields
  · -- A field with a slot is not the name, so its entry is what it was.
    intro field hfield
    have hne : field.name ≠ name := by
      rintro rfl
      exact hfree (name_mem_take.mpr hfield)
    rw [Function.update_of_ne hne, hinDict _ (hnames field), if_neg hne]
    exact h.slots field hfield
  · -- A name without a slot is found in the hash map.
    intro other hother hotherfree
    rw [hinDict other hother]
    by_cases heq : other = name
    · rw [heq, Function.update_self, if_pos rfl]
    · rw [Function.update_of_ne heq, if_neg heq, h.dict other hother hotherfree]

/-- `add_builtin_field` writes the attribute of the field's name. -/
theorem ArgonObject.Holds.addBuiltinField {o o' : ArgonObject} {a : String → Option ℕ}
    (h : o.Holds hash S a) {field : BuiltInFields} (hfield : field.IsField) {object : Option ℕ}
    (hadd : Chloride.addBuiltinField hash o field object = some o') :
    o'.Holds hash S (Function.update a field.name object) := by
  -- writing the slots gives the field its value, and the others keep theirs
  have hslots : ∀ builtInSlot, field.ctorIdx < BuiltInFields.arrayCount →
      (∀ g, builtInSlot.find? (fun s => s.field = g) =
        if g = field then some ⟨field, object⟩ else o.slotOf g) →
      builtInSlot.length ≤ BuiltInFields.arrayCount →
      (∀ s ∈ builtInSlot, s.field.ctorIdx < BuiltInFields.arrayCount) →
      ({ o with builtInSlot := builtInSlot } : ArgonObject).Holds hash S
        (Function.update a field.name object) := by
    intro builtInSlot hlt hfind hlength hfields
    refine ⟨h.wf, hlength, hfields, fun g hg => ?_, fun other hother hfree => ?_⟩
    · refine ⟨?_, (h.slots g hg).2⟩
      rw [ArgonObject.slotOf, hfind]
      by_cases heq : g = field
      · rw [if_pos heq, heq, Function.update_self]
        rfl
      · rw [if_neg heq, Function.update_of_ne (BuiltInFields.name_injective.ne heq)]
        exact (h.slots g hg).1
    · have hne : other ≠ field.name := by
        rintro rfl
        exact hfree (name_mem_take.mpr hlt)
      rw [Function.update_of_ne hne]
      exact h.dict other hother hfree
  unfold Chloride.addBuiltinField at hadd
  cases hupdate : updateSlot field object o.builtInSlot with
  -- The field has a slot, which is overwritten.
  | some builtInSlot =>
    rw [hupdate] at hadd
    obtain rfl := Option.some.inj hadd
    obtain ⟨hmap, hfind⟩ := updateSlot_spec hupdate
    have hlength : builtInSlot.length = o.builtInSlot.length := by
      simpa using congrArg List.length hmap
    have hmem : ∀ s ∈ builtInSlot, s.field.ctorIdx < BuiltInFields.arrayCount := by
      intro s hs
      have hsf : s.field ∈ o.builtInSlot.map BuiltInSlot.field := hmap ▸ List.mem_map_of_mem hs
      obtain ⟨s₁, hs₁, heq⟩ := List.mem_map.mp hsf
      exact heq ▸ h.fields s₁ hs₁
    have hlt : field.ctorIdx < BuiltInFields.arrayCount := by
      have hself := hfind field
      rw [if_pos rfl] at hself
      exact hmem _ (List.mem_of_find?_eq_some hself)
    exact hslots builtInSlot hlt hfind (hlength ▸ h.length) hmem
  | none =>
    rw [hupdate] at hadd
    dsimp only at hadd
    have habsent := updateSlot_eq_none.mp hupdate
    split at hadd
    -- The field is not one of those with slots and goes to the hash map.
    case isTrue hgt =>
      refine h.insertDict hS hnames (hnames field) ?_ hadd
      rw [name_mem_take]
      omega
    case isFalse hle =>
      split at hadd
      -- The field gets the next slot.
      case isTrue hroom =>
        obtain rfl := Option.some.inj hadd
        have hlt : field.ctorIdx < BuiltInFields.arrayCount := by
          have hne : field.ctorIdx ≠ BuiltInFields.arrayCount :=
            fun heq => hfield (BuiltInFields.ctorIdx_injective heq)
          omega
        refine hslots _ hlt (fun g => ?_) ?_ ?_
        · rw [List.find?_append]
          by_cases heq : g = field
          · rw [if_pos heq, heq, habsent]
            simp
          · have hne : ¬field = g := fun hfg => heq hfg.symm
            simp [hne, heq, ArgonObject.slotOf]
        · rw [List.length_append, List.length_singleton]
          omega
        · intro s hs
          rcases List.mem_append.mp hs with hs | hs
          · exact h.fields s hs
          · rw [List.mem_singleton.mp hs]
            exact hlt
      case isFalse => cases hadd

/-- `add_field_l` writes the attribute of the name. -/
theorem ArgonObject.Holds.addFieldL {o o' : ArgonObject} {a : String → Option ℕ}
    (h : o.Holds hash S a) {name : String} (hname : name ∈ S) {object : Option ℕ}
    (hadd : Chloride.addFieldL hash o name object = some o') :
    o'.Holds hash S (Function.update a name object) := by
  by_cases hmem : name ∈ builtInFieldNames.take BuiltInFields.arrayCount
  · obtain ⟨field, hlt, rfl⟩ := exists_field_of_mem_take hmem
    rw [addFieldL_slot o hlt] at hadd
    refine h.addBuiltinField hS hnames ?_ hadd
    rintro rfl
    exact absurd hlt (lt_irrefl _)
  · rw [addFieldL_dict o hmem] at hadd
    exact h.insertDict hS hnames hname hmem hadd

end Object

/-! ## Reading -/

/-- In a list of different names, the loop over the slots stops at the slot of the name's place. -/
theorem find?_zip {β : Type} {names : List String} (hnodup : names.Nodup) {j : ℕ} {name : String}
    (hname : names[j]? = some name) (ss : List β) :
    ((names.zip ss).find? fun e => e.1 = name).map Prod.snd = ss[j]? := by
  induction names generalizing j ss with
  | nil => cases hname
  | cons n names ih =>
    obtain ⟨hn, hnodup'⟩ := List.nodup_cons.mp hnodup
    cases ss with
    | nil => rfl
    | cons s ss =>
      cases j with
      | zero =>
        obtain rfl := Option.some.inj hname
        simp
      | succ j =>
        have hmem : name ∈ names := List.mem_of_getElem? hname
        have hne : ¬n = name := by
          rintro rfl
          exact hn hmem
        rw [List.zip_cons_cons, List.find?_cons_of_neg (by simpa using hne)]
        exact ih hnodup' hname ss

/-- The slot that `get_field_l` takes for a field is the one at the place of its enumerator. -/
theorem ArgonObject.slotAt_name (o : ArgonObject) (field : BuiltInFields) :
    o.slotAt field.name = o.builtInSlot[field.ctorIdx]? :=
  find?_zip BuiltInFields.names_nodup field.getElem?_name o.builtInSlot

/-- At the place of each of the first fields there is what the slot of the field holds. -/
def ArgonObject.InPlace (o : ArgonObject) : Prop :=
  ∀ field : BuiltInFields, field.ctorIdx < BuiltInFields.arrayCount →
    o.builtInSlot[field.ctorIdx]?.bind BuiltInSlot.value = (o.slotOf field).bind BuiltInSlot.value

/-- Slots that were filled in the order of the enumeration are in place. -/
theorem ArgonObject.inPlace_of_order {o : ArgonObject}
    (horder : ∀ (i : ℕ) (s : BuiltInSlot), o.builtInSlot[i]? = some s → s.field.ctorIdx = i) :
    o.InPlace := by
  intro field _
  have hsame : o.builtInSlot[field.ctorIdx]? = o.slotOf field := by
    ext s
    constructor
    · -- The slot in the place of the field is the first of the field: no slot before it is.
      intro hs
      have hfield : s.field = field := BuiltInFields.ctorIdx_injective (horder _ _ hs)
      unfold ArgonObject.slotOf
      rw [List.find?_eq_some_iff_getElem]
      obtain ⟨hlt, hget⟩ := List.getElem?_eq_some_iff.mp hs
      refine ⟨by simpa using hfield, field.ctorIdx, hlt, hget, fun j hj => ?_⟩
      have hjlt : j < o.builtInSlot.length := by omega
      have hjth := horder j _ (List.getElem?_eq_getElem hjlt)
      rw [Bool.not_eq_true', decide_eq_false_iff_not]
      intro heq
      rw [heq] at hjth
      omega
    · intro hs
      -- The slot of the field is in some place, which is that of the field.
      obtain ⟨i, hi⟩ := List.mem_iff_getElem?.mp (List.mem_of_find?_eq_some hs)
      have hfield : s.field = field := by simpa using List.find?_some hs
      have hidx := horder i s hi
      rw [hfield] at hidx
      rwa [hidx]
  rw [hsame]

section Reading

variable {hash : String → UInt64} {S : Set String}

/-- A field without a slot of its own has none at all. -/
theorem ArgonObject.Holds.slotOf_eq_none {o : ArgonObject} {a : String → Option ℕ}
    (h : o.Holds hash S a) {field : BuiltInFields}
    (hfield : ¬field.ctorIdx < BuiltInFields.arrayCount) : o.slotOf field = none := by
  unfold ArgonObject.slotOf
  rw [List.find?_eq_none]
  intro s hs hsf
  have hs_lt := h.fields s hs
  rw [decide_eq_true_iff.mp hsf] at hs_lt
  exact hfield hs_lt

/-- Past the first fields there is no slot. -/
theorem ArgonObject.Holds.slotAt_eq_none {o : ArgonObject} {a : String → Option ℕ}
    (h : o.Holds hash S a) {field : BuiltInFields}
    (hfield : ¬field.ctorIdx < BuiltInFields.arrayCount) : o.slotAt field.name = none := by
  have hlength := h.length
  rw [o.slotAt_name, List.getElem?_eq_none_iff]
  omega

/-- The hash map has the fields without a slot. -/
theorem ArgonObject.Holds.inDict (hnames : ∀ field : BuiltInFields, field.name ∈ S)
    {o : ArgonObject} {a : String → Option ℕ} (h : o.Holds hash S a) {field : BuiltInFields}
    (hfield : ¬field.ctorIdx < BuiltInFields.arrayCount) :
    o.inDict hash field.name = a field.name :=
  (h.dict field.name (hnames field) (fun hmem => hfield (name_mem_take.mp hmem))).symm

/-- `get_builtin_field` finds the object's own attribute. -/
theorem ArgonObject.Holds.getBuiltinField (hnames : ∀ field : BuiltInFields, field.name ∈ S)
    {o : ArgonObject} {a : String → Option ℕ} (h : o.Holds hash S a) (field : BuiltInFields) :
    o.getBuiltinField hash field = a field.name := by
  unfold ArgonObject.getBuiltinField
  by_cases hfield : field.ctorIdx < BuiltInFields.arrayCount
  · obtain ⟨hslot, hdict⟩ := h.slots field hfield
    rw [hslot]
    cases o.slotOf field with
    | some slot => rfl
    | none => exact hdict
  · rw [h.slotOf_eq_none hfield]
    exact h.inDict hnames hfield

/-- `get_field_l` finds what the slot at the place of the field holds. -/
theorem ArgonObject.Holds.getFieldL {o : ArgonObject} {a : String → Option ℕ}
    (h : o.Holds hash S a) {field : BuiltInFields}
    (hfield : field.ctorIdx < BuiltInFields.arrayCount) :
    o.getFieldL hash field.name = o.builtInSlot[field.ctorIdx]?.bind BuiltInSlot.value := by
  unfold ArgonObject.getFieldL
  rw [o.slotAt_name]
  cases o.builtInSlot[field.ctorIdx]? with
  | some slot => rfl
  | none => exact (h.slots field hfield).2

/-- With every slot in its place, `get_field_l` finds the object's own attribute. -/
theorem ArgonObject.Holds.getFieldL_of_inPlace (hnames : ∀ field : BuiltInFields, field.name ∈ S)
    {o : ArgonObject} {a : String → Option ℕ} (h : o.Holds hash S a) (hplace : o.InPlace)
    (field : BuiltInFields) : o.getFieldL hash field.name = a field.name := by
  by_cases hfield : field.ctorIdx < BuiltInFields.arrayCount
  · rw [h.getFieldL hfield, hplace field hfield]
    exact (h.slots field hfield).1.symm
  · unfold ArgonObject.getFieldL
    rw [h.slotAt_eq_none hfield]
    exact h.inDict hnames hfield

/-! ## All objects -/

variable {objects : ℕ → ArgonObject} {attributes : ℕ → String → Option ℕ}

/-- The class of an object is not in its hash map, so this route inherits nothing. -/
theorem getBuiltinFieldWithRecursionSupport_eq (hnames : ∀ field : BuiltInFields, field.name ∈ S)
    (h : ∀ o, (objects o).Holds hash S (attributes o)) (fuel target : ℕ) (field : BuiltInFields)
    (recursive disableMethodWrapper : Bool) :
    getBuiltinFieldWithRecursionSupport hash objects fuel target field recursive
      disableMethodWrapper = some ((attributes target field.name).map .object) := by
  have hown := (h target).getBuiltinField hnames field
  have hclass := ((h target).slots .__class__ (by decide)).2
  unfold ArgonObject.getBuiltinField at hown
  unfold getBuiltinFieldWithRecursionSupport
  cases hslot : (objects target).slotOf field with
  -- The object has a slot for the field.
  | some slot =>
    rw [hslot] at hown
    exact congrArg (fun v => some (Option.map Attribute.object v)) hown
  | none =>
    rw [hslot] at hown
    rw [← hown]
    cases hdict : (objects target).dict with
    | none =>
      have hnone : (objects target).inDict hash field.name = none := by
        unfold ArgonObject.inDict
        rw [hdict]
        rfl
      dsimp only
      rw [hnone]
      rfl
    -- It has not, and its hash map is asked; a class is never gone to.
    | some dict =>
      dsimp only
      cases hin : (objects target).inDict hash field.name with
      | some object => rfl
      | none =>
        dsimp only
        rw [hclass]
        split
        · cases fuel <;> rfl
        · rfl

/-- With every slot in its place, the search through the classes finds what is inherited. -/
theorem getFieldForClassL_of_inherits (hnames : ∀ field : BuiltInFields, field.name ∈ S)
    (h : ∀ o, (objects o).Holds hash S (attributes o)) (hplace : ∀ o, (objects o).InPlace)
    {field : BuiltInFields} (binding : Option ℕ) {c r : Option ℕ}
    (hinherits : Inherits attributes field.name c r) :
    ∃ fuel, getFieldForClassL hash objects field.name binding fuel c =
      some (r.map (bindFound objects binding)) := by
  induction hinherits with
  | done => exact ⟨0, rfl⟩
  | @here c v hv =>
    refine ⟨1, ?_⟩
    rw [getFieldForClassL, (h c).getFieldL_of_inPlace hnames (hplace c), hv]
    rfl
  | @base c r hnone _ ih =>
    obtain ⟨fuel, hfuel⟩ := ih
    refine ⟨fuel + 1, ?_⟩
    have hbase : (objects c).getBuiltinField hash .__base__ = attributes c "__base__" :=
      (h c).getBuiltinField hnames .__base__
    rw [getFieldForClassL, (h c).getFieldL_of_inPlace hnames (hplace c), hnone, hbase]
    exact hfuel

/-- Without recursion `get_field_l` answers at once. -/
theorem getFieldL_false (fuel target : ℕ) (name : String) (disableMethodWrapper : Bool) :
    getFieldL hash objects fuel target name false disableMethodWrapper =
      some (((objects target).getFieldL hash name).map .object) := by
  unfold getFieldL ArgonObject.getFieldL
  cases (objects target).slotAt name with
  | some slot => rfl
  | none =>
    dsimp only
    cases (objects target).inDict hash name with
    | some object => rfl
    | none => rfl

/-- An attribute that the object has, or that nothing is inherited for, is what `get_field_l`
answers. -/
theorem getFieldL_of_inPlace (hnames : ∀ field : BuiltInFields, field.name ∈ S)
    (h : ∀ o, (objects o).Holds hash S (attributes o)) (hplace : ∀ o, (objects o).InPlace)
    (target : ℕ) (field : BuiltInFields) (recursive disableMethodWrapper : Bool)
    (hinherits : attributes target field.name = none →
      Inherits attributes field.name (attributes target "__class__") none) :
    ∃ fuel, getFieldL hash objects fuel target field.name recursive disableMethodWrapper =
      some ((attributes target field.name).map .object) := by
  have hown := (h target).getFieldL_of_inPlace hnames (hplace target) field
  have hclass : (objects target).getBuiltinField hash .__class__ = attributes target "__class__" :=
    (h target).getBuiltinField hnames .__class__
  unfold ArgonObject.getFieldL at hown
  unfold getFieldL
  cases hslot : (objects target).slotAt field.name with
  | some slot =>
    rw [hslot] at hown
    exact ⟨0, congrArg (fun v => some (Option.map Attribute.object v)) hown⟩
  | none =>
    rw [hslot] at hown
    dsimp only at hown ⊢
    rw [hown, hclass]
    cases ha : attributes target field.name with
    | some v => exact ⟨0, rfl⟩
    | none =>
      -- The object does not have the attribute: its classes are searched.
      obtain ⟨fuel, hfuel⟩ := getFieldForClassL_of_inherits hnames h hplace
        (if disableMethodWrapper then none else some target) (hinherits ha)
      refine ⟨fuel, ?_⟩
      dsimp only
      split
      · exact hfuel
      · rfl

variable (hash) in
/-- For every object, every field and every kind of access, both routes return what they should. -/
def AccessAgrees (objects : ℕ → ArgonObject) (attributes : ℕ → String → Option ℕ) : Prop :=
  ∀ target (field : BuiltInFields) recursive disableMethodWrapper, field.IsField →
    ∃ r, Reads objects attributes target field.name disableMethodWrapper recursive r ∧
      (∃ fuel, getFieldL hash objects fuel target field.name recursive disableMethodWrapper =
        some r) ∧
      ∃ fuel, getBuiltinFieldWithRecursionSupport hash objects fuel target field recursive
        disableMethodWrapper = some r

/-- No object inherits a field that it does not have, and every search for one ends. -/
def NothingInherited (attributes : ℕ → String → Option ℕ) : Prop :=
  ∀ target (field : BuiltInFields), field.IsField → attributes target field.name = none →
    Inherits attributes field.name (attributes target "__class__") none

/-- Whether the two routes agree, for objects that hold their attributes. -/
theorem accessAgrees_iff_of_holds (hnames : ∀ field : BuiltInFields, field.name ∈ S)
    (h : ∀ o, (objects o).Holds hash S (attributes o)) :
    AccessAgrees hash objects attributes ↔
      (∀ o, (objects o).InPlace) ∧ NothingInherited attributes := by
  have hinjective : Function.Injective (Option.map Attribute.object) :=
    Option.map_injective fun a b hab => Attribute.object.inj hab
  constructor
  · intro hagrees
    refine ⟨fun target field hfield => ?_, fun target field hfield hnone => ?_⟩
    · -- an access by name without recursion shows what is at the field's place
      have hisField : field.IsField := by
        rintro rfl
        exact lt_irrefl _ hfield
      obtain ⟨r, -, ⟨fuel, hname⟩, ⟨fuel', henum⟩⟩ := hagrees target field false true hisField
      rw [getFieldL_false, (h target).getFieldL hfield] at hname
      rw [getBuiltinFieldWithRecursionSupport_eq hnames h] at henum
      rw [← ((h target).slots field hfield).1]
      exact hinjective (Option.some.inj (hname.trans henum.symm))
    · -- an access by the enumerator with recursion never finds anything in the class
      obtain ⟨r, hreads, -, ⟨fuel, henum⟩⟩ := hagrees target field true true hfield
      rw [getBuiltinFieldWithRecursionSupport_eq hnames h, hnone] at henum
      obtain rfl := Option.some.inj henum
      generalize hr : (Option.map Attribute.object none : Option Attribute) = r at hreads
      cases hreads with
      | own hsome => cases hr
      | @inherited r _ hinherits =>
        cases r with
        | none => exact hinherits
        | some v => cases hr
  · rintro ⟨hplace, hnothing⟩ target field recursive disableMethodWrapper hfield
    -- Both accesses give the attribute of the object itself.
    refine ⟨(attributes target field.name).map .object, ?_, ?_, 0,
      getBuiltinFieldWithRecursionSupport_eq hnames h _ _ _ _ _⟩
    · cases ha : attributes target field.name with
      | some v => exact .own ha
      | none =>
        cases recursive with
        | false => exact .absent ha
        | true => exact .inherited ha (hnothing target field hfield ha)
    · exact getFieldL_of_inPlace hnames h hplace target field recursive disableMethodWrapper
        (hnothing target field hfield)

/-! ## Sequences of writes -/

/-- The objects before anything is written. -/
def newObjects (isFunction : ℕ → Bool) (o : ℕ) : ArgonObject := newObject (isFunction o)

/-- What the objects have after a sequence of writes. -/
def attributesOf (ops : List AttributeWrite) : ℕ → String → Option ℕ :=
  ops.foldl AttributeWrite.apply fun _ _ => none

variable (S) in
/-- A write of a field by its enumerator, or of a name of `S`. -/
def AttributeWrite.Valid : AttributeWrite → Prop
  | .addBuiltinField _ field _ => field.IsField
  | .addFieldL _ name _ => name ∈ S

/-- A write keeps the objects and their attributes together. -/
theorem writeStep_holds (hS : S.InjOn hash) (hnames : ∀ field : BuiltInFields, field.name ∈ S)
    (h : ∀ o, (objects o).Holds hash S (attributes o)) {op : AttributeWrite} (hop : op.Valid S)
    {objects' : ℕ → ArgonObject} (hstep : writeStep hash objects op = some objects') (o : ℕ) :
    (objects' o).Holds hash S (op.apply attributes o) := by
  cases op with
  | addBuiltinField target field object =>
    obtain ⟨o', hadd, rfl⟩ := Option.map_eq_some_iff.mp hstep
    by_cases ho : o = target
    · rw [ho, AttributeWrite.apply, Function.update_self, Function.update_self]
      exact (h target).addBuiltinField hS hnames hop hadd
    · rw [AttributeWrite.apply, Function.update_of_ne ho, Function.update_of_ne ho]
      exact h o
  | addFieldL target name object =>
    obtain ⟨o', hadd, rfl⟩ := Option.map_eq_some_iff.mp hstep
    by_cases ho : o = target
    · rw [ho, AttributeWrite.apply, Function.update_self, Function.update_self]
      exact (h target).addFieldL hS hnames hop hadd
    · rw [AttributeWrite.apply, Function.update_of_ne ho, Function.update_of_ne ho]
      exact h o

/-- After every sequence of writes the objects hold what was last written. -/
theorem run_holds (hS : S.InjOn hash) (hnames : ∀ field : BuiltInFields, field.name ∈ S)
    (h : ∀ o, (objects o).Holds hash S (attributes o)) {ops : List AttributeWrite}
    (hops : ∀ op ∈ ops, op.Valid S) {objects' : ℕ → ArgonObject}
    (hrun : Runs.run (writeStep hash) objects ops = some objects') (o : ℕ) :
    (objects' o).Holds hash S (ops.foldl AttributeWrite.apply attributes o) := by
  induction ops generalizing objects attributes with
  | nil =>
    obtain rfl := Option.some.inj hrun
    exact h o
  | cons op ops ih =>
    obtain ⟨objects₁, hstep, hrest⟩ := Runs.run_cons.mp hrun
    exact ih (writeStep_holds hS hnames h (hops op List.mem_cons_self) hstep)
      (fun op hop => hops op (List.mem_cons_of_mem _ hop)) hrest

/-- After a sequence of writes the access by name and the access by the enumerator both return what
was last written, or what is inherited, exactly when every slot is in the place of its field and
nothing is inherited. -/
theorem attribute_access_iff {hash : String → UInt64} {S : Set String} (hS : S.InjOn hash)
    (hnames : ∀ field : BuiltInFields, field.name ∈ S) {isFunction : ℕ → Bool}
    {ops : List AttributeWrite} (hops : ∀ op ∈ ops, op.Valid S) {objects : ℕ → ArgonObject}
    (hrun : Runs.run (writeStep hash) (newObjects isFunction) ops = some objects) :
    AccessAgrees hash objects (attributesOf ops) ↔
      (∀ o, (objects o).InPlace) ∧ NothingInherited (attributesOf ops) :=
  accessAgrees_iff_of_holds hnames
    (run_holds hS hnames (fun o => holds_newObject (isFunction o)) hops hrun)

end Reading

/-- A hash without collisions on the names of the fields. -/
def nameIndex (name : String) : UInt64 := (builtInFieldNames.idxOf name).toUInt64

theorem nameIndex_injOn : Set.InjOn nameIndex {name | name ∈ builtInFieldNames} := by
  intro a ha b hb hab
  have hlength : builtInFieldNames.length < 2^64 := by decide
  have hlt_a : builtInFieldNames.idxOf a < 2^64 :=
    (List.idxOf_lt_length_iff.mpr ha).trans hlength
  have hlt_b : builtInFieldNames.idxOf b < 2^64 :=
    (List.idxOf_lt_length_iff.mpr hb).trans hlength
  have hidx : builtInFieldNames.idxOf a = builtInFieldNames.idxOf b := by
    have hnat := congrArg UInt64.toNat hab
    unfold nameIndex at hnat
    simp only [Nat.toUInt64_eq, UInt64.toNat_ofNat'] at hnat
    omega
  exact (List.idxOf_inj ha).mp hidx

theorem name_mem_builtInFieldNames (field : BuiltInFields) :
    field.name ∈ {name | name ∈ builtInFieldNames} :=
  List.mem_of_getElem? field.getElem?_name

/-- Three writes, two of them by name. -/
theorem attribute_access_three_writes : ∃ objects,
    Runs.run (writeStep nameIndex) (newObjects fun _ => false)
      [.addBuiltinField 0 .__base__ (some 1), .addFieldL 0 "__class__" (some 2),
        .addFieldL 0 "message" (some 3)] = some objects ∧
    (AccessAgrees nameIndex objects (attributesOf [.addBuiltinField 0 .__base__ (some 1),
        .addFieldL 0 "__class__" (some 2), .addFieldL 0 "message" (some 3)]) ↔
      (∀ o, (objects o).InPlace) ∧ NothingInherited (attributesOf
        [.addBuiltinField 0 .__base__ (some 1), .addFieldL 0 "__class__" (some 2),
          .addFieldL 0 "message" (some 3)])) := by
  have hsome : (Runs.run (writeStep nameIndex) (newObjects fun _ => false)
      [.addBuiltinField 0 .__base__ (some 1), .addFieldL 0 "__class__" (some 2),
        .addFieldL 0 "message" (some 3)]).isSome := by decide
  obtain ⟨objects, hrun⟩ := Option.isSome_iff_exists.mp hsome
  refine ⟨objects, hrun, attribute_access_iff nameIndex_injOn name_mem_builtInFieldNames ?_ hrun⟩
  simp [AttributeWrite.Valid, BuiltInFields.IsField, builtInFieldNames]

/-- An instance of a class, whose first slot is that of the class: by name, the class stands under
`__base__`. -/
theorem not_forall_attribute_access :
    ¬∀ (hash : String → UInt64) (S : Set String) (isFunction : ℕ → Bool)
      (ops : List AttributeWrite) (objects : ℕ → ArgonObject), S.InjOn hash →
      (∀ field : BuiltInFields, field.name ∈ S) → (∀ op ∈ ops, op.Valid S) →
      Runs.run (writeStep hash) (newObjects isFunction) ops = some objects →
      AccessAgrees hash objects (attributesOf ops) := by
  intro hall
  have hrun : Runs.run (writeStep nameIndex) (newObjects fun _ => false)
      [.addBuiltinField 0 .__class__ (some 1)] = some (Function.update (newObjects fun _ => false) 0
        ⟨false, [⟨.__class__, some 1⟩], none⟩) := rfl
  have hops : ∀ op ∈ [AttributeWrite.addBuiltinField 0 .__class__ (some 1)],
      op.Valid {name | name ∈ builtInFieldNames} := by
    simp [AttributeWrite.Valid, BuiltInFields.IsField]
  have hagrees := hall nameIndex _ _ _ _ nameIndex_injOn name_mem_builtInFieldNames hops hrun
  have hholds := run_holds nameIndex_injOn name_mem_builtInFieldNames
    (fun o => holds_newObject false) hops hrun
  have hplace := ((accessAgrees_iff_of_holds name_mem_builtInFieldNames hholds).mp hagrees).1 0
  have hbase := hplace .__base__ (by decide)
  simp [ArgonObject.slotOf, BuiltInFields.ctorIdx] at hbase

end Chloride
