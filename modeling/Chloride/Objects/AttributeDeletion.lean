import Chloride.Objects.Attributes

/-!
# Deleting attributes

`__delattr__` of the base class writes the null pointer under the name and returns the third of its two
arguments, and `__dir__` lists what has a slot or a node along the classes of an object. A deletion that
finds its attribute is never right, as what it returns is outside of its arguments; `history_right` says that
in a history without one every deletion fails and leaves the objects as they were, and that `__dir__` lists
what the classes hold if the places of their slots do.
-/

namespace Chloride

/-! ## `__delattr__` -/

/-- An argument of a native method. -/
inductive MethodArgument where
  | object (address : ℕ)
  | name (s : String)
  deriving DecidableEq

/-- How `__delattr__` ends. A result is what `argv[2]` has. -/
inductive DelattrOutcome where
  | wrongCount (argc : ℕ)
  | deleter (function : Attribute)
  | missing (name : String)
  | deleted (result : Option MethodArgument)
  deriving DecidableEq

section

variable (hash : String → UInt64) (objects : ℕ → ArgonObject)

/-- `__delattr__` of the base class; `none` without enough fuel for the classes. -/
def delattr (fuel : ℕ) (argv : List MethodArgument) : Option (DelattrOutcome × (ℕ → ArgonObject)) :=
  match argv with
  | [.object target, .name name] => do
    let deleter ← getFieldForClassL hash objects ("del_" ++ name) (some target) fuel
      ((objects target).getBuiltinField hash .__class__)
    match deleter with
    | some function => return (.deleter function, objects)
    | none =>
      match ← getFieldL hash objects fuel target name true true with
      | none => return (.missing name, objects)
      | some _ =>
        let o ← addFieldL hash (objects target) name none
        return (.deleted argv[2]?, Function.update objects target o)
  | _ => return (.wrongCount argv.length, objects)

/-! ## `__dir__` -/

/-- The names that are listed so far, and the hashes of `used`. -/
abbrev Listing := List String × List UInt64

/-- A name that has not been used is listed. -/
def Listing.add (l : Listing) (e : String × UInt64) : Listing :=
  if e.2 ∈ l.2 then l else (l.1 ++ [e.1], e.2 :: l.2)

/-- What `strlen` takes of a key. -/
def cString (s : String) : String := String.ofList (s.toList.takeWhile fun c => c ≠ Char.ofNat 0)

/-- What the loops over the slots and the nodes of an object come to: a slot counts under the name at its
place. -/
def ownFields (o : ArgonObject) : List (String × UInt64) :=
  ((builtInFieldNames.zip o.builtInSlot).filter fun e => e.2.value.isSome).map (fun e => (e.1, hash e.1)) ++
    match o.dict with
    | none => []
    | some dict => dict.toArray.map fun n => (cString n.key, n.hash)

/-- `append_objects_fields_recursively`; `none` without enough fuel. -/
def appendObjectsFields : ℕ → Option ℕ → Listing → Option Listing
  | _, none, l => some l
  | 0, some _, _ => none
  | fuel + 1, some o, l =>
    (appendObjectsFields fuel ((objects o).getBuiltinField hash .__base__) l).map
      fun l => (ownFields hash (objects o)).foldl Listing.add l

/-- `__dir__`, for an object whose class is not a function: that would be bound to the object. -/
def dir (fuel self : ℕ) : Option (List String) := do
  match ← getBuiltinFieldForClass hash objects .__class__ (some self) fuel (some self) with
  | none => return []
  | some (.object c) => return (← appendObjectsFields hash objects fuel (some c) ([], [])).1
  | some (.method _ _) => none

end

/-! ## Histories -/

/-- A write or a deletion of an attribute. -/
inductive AttributeStep where
  | write (w : AttributeWrite)
  | delete (target : ℕ) (name : String)
  deriving DecidableEq

/-- The value of a write. -/
def AttributeWrite.value : AttributeWrite → Option ℕ
  | .addBuiltinField _ _ object => object
  | .addFieldL _ _ object => object

/-- The name of a write. -/
def AttributeWrite.key : AttributeWrite → String
  | .addBuiltinField _ field _ => field.name
  | .addFieldL _ name _ => name

/-- The name of a deleter. -/
def IsDeleter (name : String) : Prop := ∃ rest, name = "del_" ++ rest

/-- The steps without accessors: the writes write objects, and their names are of a set. -/
def AttributeStep.Valid (S : Set String) : AttributeStep → Prop
  | .write w => w.Valid S ∧ w.value ≠ none ∧ ¬IsDeleter w.key
  | .delete _ name => name ∈ S ∧ "del_" ++ name ∈ S

/-- A history, the objects after it, and what they should have: a deletion takes the attribute away when it
does not fail. -/
inductive History (hash : String → UInt64) (isFunction : ℕ → Bool) :
    List AttributeStep → (ℕ → ArgonObject) → (ℕ → String → Option ℕ) → Prop where
  | nil : History hash isFunction [] (newObjects isFunction) fun _ _ => none
  | write {steps : List AttributeStep} {objects objects' : ℕ → ArgonObject}
      {attributes : ℕ → String → Option ℕ} {w : AttributeWrite}
      (h : History hash isFunction steps objects attributes)
      (hstep : writeStep hash objects w = some objects') :
      History hash isFunction (steps ++ [.write w]) objects' (w.apply attributes)
  | deleted {steps : List AttributeStep} {objects objects' : ℕ → ArgonObject}
      {attributes : ℕ → String → Option ℕ} {target fuel : ℕ} {name : String} {result : Option MethodArgument}
      (h : History hash isFunction steps objects attributes)
      (hstep : delattr hash objects fuel [.object target, .name name] = some (.deleted result, objects')) :
      History hash isFunction (steps ++ [.delete target name]) objects'
        (AttributeWrite.apply attributes (.addFieldL target name none))
  | missing {steps : List AttributeStep} {objects objects' : ℕ → ArgonObject}
      {attributes : ℕ → String → Option ℕ} {target fuel : ℕ} {name : String}
      (h : History hash isFunction steps objects attributes)
      (hstep : delattr hash objects fuel [.object target, .name name] = some (.missing name, objects')) :
      History hash isFunction (steps ++ [.delete target name]) objects' attributes

/-- The classes along which an object inherits. -/
inductive ClassChain (attributes : ℕ → String → Option ℕ) : Option ℕ → List ℕ → Prop where
  | nil : ClassChain attributes none []
  | cons {c : ℕ} {cs : List ℕ} (h : ClassChain attributes (attributes c "__base__") cs) :
      ClassChain attributes (some c) (c :: cs)

section

variable (hash : String → UInt64) (objects : ℕ → ArgonObject) (attributes : ℕ → String → Option ℕ)

/-- The deletion does not find the attribute. -/
def NotFound (target : ℕ) (name : String) : Prop :=
  ∀ fuel a, getFieldL hash objects fuel target name true true ≠ some (some a)

/-- Along the classes of an instance, the places of the slots in use are those of their fields. -/
def PlacesListed : Prop :=
  ∀ o c cs, attributes o "__class__" = some c → ClassChain attributes (some c) cs →
    ∀ field : BuiltInFields, field.ctorIdx < BuiltInFields.arrayCount →
      ((∃ k ∈ cs, (objects k).builtInSlot[field.ctorIdx]?.bind BuiltInSlot.value ≠ none) ↔
        ∃ k ∈ cs, ((objects k).slotOf field).bind BuiltInSlot.value ≠ none)

end

/-! ## What the objects keep -/

/-- A node after an insertion is one of before, or the one that has the value. -/
theorem HashmapGC.Wf.mem_nodes_insert {κ υ : Type*} {t t' : HashmapGC κ υ} (ht : t.Wf) {hash : UInt64}
    {key : κ} {val : υ} (h : t.insert hash key val 0 = some t') {n : NodeGC κ υ} (hn : n ∈ t'.nodes) :
    n ∈ t.nodes ∨ n.val = val ∧ n.hash = hash ∧
      (n.key = key ∨ ∃ m ∈ t.nodes, m.hash = hash ∧ m.key = n.key) := by
  rw [HashmapGC.insert, if_pos rfl] at h
  have hnodes : nodes { t with order := t.order + 1 } = t.nodes := rfl
  rcases (insertOrdered_spec ht.succ_order.shaped h).nodes with ⟨-, hp⟩ | ⟨-, hp⟩
  · rw [hnodes] at hp
    obtain ⟨m, hm, rfl⟩ := List.mem_map.mp (hp.mem_iff.mp hn)
    by_cases hhash : m.hash = hash
    · exact Or.inr (by simp [setVal, hhash]; exact Or.inr ⟨m, hm, hhash, rfl⟩)
    · exact Or.inl (by simpa [setVal, hhash] using hm)
  · rw [hnodes] at hp
    rcases List.mem_cons.mp (hp.mem_iff.mp hn) with rfl | hm
    · exact Or.inr ⟨rfl, rfl, Or.inl rfl⟩
    · exact Or.inl hm

section

variable {hash : String → UInt64} {S : Set String} {o o' : ArgonObject} {a : String → Option ℕ}

variable (hash S) in
/-- A name that an object has a node for. -/
structure Listed (n : NodeGC String (Option ℕ)) : Prop where
  hash_eq : n.hash = hash n.key
  mem : n.key ∈ S
  free : n.key ∉ builtInFieldNames.take BuiltInFields.arrayCount
  value : n.val ≠ none
  spelling : cString n.key = n.key

variable (hash S) in
/-- An object without deleters, whose nodes have what was written under their names. -/
structure Kept (o : ArgonObject) (a : String → Option ℕ) : Prop where
  holds : o.Holds hash S a
  names : ∀ name ∉ S, a name = none
  deleters : ∀ name, IsDeleter name → a name = none
  nodes : ∀ dict, o.dict = some dict → ∀ n ∈ dict.nodes, Listed hash S n

theorem kept_newObject (isFunction : Bool) : Kept hash S (newObject isFunction) fun _ => none where
  holds := holds_newObject isFunction
  names _ _ := rfl
  deleters _ _ := rfl
  nodes := nofun

/-- An insertion of an object under a name keeps the nodes. -/
theorem Kept.insertDict_nodes (hS : S.InjOn hash) (h : Kept hash S o a) {name : String} (hname : name ∈ S)
    (hfree : name ∉ builtInFieldNames.take BuiltInFields.arrayCount) (hspelling : cString name = name)
    {object : Option ℕ} (hobject : object ≠ none) (hins : o.insertDict hash name object = some o') :
    ∀ dict, o'.dict = some dict → ∀ n ∈ dict.nodes, Listed hash S n := by
  obtain ⟨dict, hdict, rfl⟩ := Option.map_eq_some_iff.mp hins
  have hold : ∀ n ∈ (o.dict.getD .create).nodes, Listed hash S n := by
    cases hd : o.dict with
    | none => exact nofun
    | some d => exact h.nodes d hd
  have hwf : (o.dict.getD .create).Wf := by
    cases hd : o.dict with
    | none => exact HashmapGC.Wf.create
    | some d => exact h.holds.wf d hd
  intro dict' hdict' n hn
  obtain rfl := Option.some.inj hdict'
  rcases hwf.mem_nodes_insert hdict hn with hn | ⟨hval, hhash, hkey⟩
  · exact hold n hn
  · -- A node of the hash has the name as its key already.
    have hkey' : n.key = name := by
      rcases hkey with hkey | ⟨m, hm, hmhash, hmkey⟩
      · exact hkey
      · have hlisted := hold m hm
        rw [← hmkey]
        exact hS hlisted.mem hname (hlisted.hash_eq.symm.trans hmhash)
    exact ⟨by rw [hhash, hkey'], hkey' ▸ hname, hkey' ▸ hfree, hval ▸ hobject, by rw [hkey', hspelling]⟩

/-- `add_builtin_field` changes the slots, or it inserts into the hash map. -/
theorem addBuiltinField_dict {field : BuiltInFields} {object : Option ℕ}
    (h : addBuiltinField hash o field object = some o') :
    o'.dict = o.dict ∨ BuiltInFields.arrayCount < field.ctorIdx ∧
      o.insertDict hash field.name object = some o' := by
  unfold addBuiltinField at h
  split at h
  case h_1 =>
    obtain rfl := Option.some.inj h
    exact Or.inl rfl
  case h_2 =>
    split at h
    case isTrue hlt => exact Or.inr ⟨hlt, h⟩
    case isFalse =>
      split at h
      case isTrue =>
        obtain rfl := Option.some.inj h
        exact Or.inl rfl
      case isFalse => cases h

/-- What a write does to the attributes of its object. -/
theorem Kept.update_none {key : String} {value : Option ℕ} (h : Kept hash S o a) (hkey : key ∈ S)
    (hdeleter : ¬IsDeleter key) :
    (∀ name ∉ S, Function.update a key value name = none) ∧
      ∀ name, IsDeleter name → Function.update a key value name = none := by
  constructor
  · intro name hname
    rw [Function.update_of_ne (by rintro rfl; exact hname hkey)]
    exact h.names name hname
  · intro name hname
    rw [Function.update_of_ne (by rintro rfl; exact hdeleter hname)]
    exact h.deleters name hname

theorem Kept.addBuiltinField (hS : S.InjOn hash) (hnames : ∀ field : BuiltInFields, field.name ∈ S)
    (h : Kept hash S o a) {field : BuiltInFields} (hfield : field.IsField)
    (hspelling : cString field.name = field.name) (hdeleter : ¬IsDeleter field.name) {object : Option ℕ}
    (hobject : object ≠ none) (hadd : Chloride.addBuiltinField hash o field object = some o') :
    Kept hash S o' (Function.update a field.name object) where
  holds := h.holds.addBuiltinField hS hnames hfield hadd
  names := (h.update_none (hnames field) hdeleter).1
  deleters := (h.update_none (hnames field) hdeleter).2
  nodes := by
    rcases addBuiltinField_dict hadd with hdict | ⟨hlt, hins⟩
    · rw [hdict]
      exact h.nodes
    · exact h.insertDict_nodes hS (hnames field) (by rw [name_mem_take]; omega) hspelling hobject hins

theorem Kept.addFieldL (hS : S.InjOn hash) (hnames : ∀ field : BuiltInFields, field.name ∈ S)
    (h : Kept hash S o a) {name : String} (hname : name ∈ S) (hspelling : cString name = name)
    (hdeleter : ¬IsDeleter name) {object : Option ℕ} (hobject : object ≠ none)
    (hadd : Chloride.addFieldL hash o name object = some o') :
    Kept hash S o' (Function.update a name object) := by
  by_cases hmem : name ∈ builtInFieldNames.take BuiltInFields.arrayCount
  · obtain ⟨field, hlt, rfl⟩ := exists_field_of_mem_take hmem
    rw [addFieldL_slot o hlt] at hadd
    refine h.addBuiltinField hS hnames ?_ hspelling hdeleter hobject hadd
    rintro rfl
    exact lt_irrefl _ hlt
  · have hupdate := @Kept.update_none hash S o a name object h hname hdeleter
    refine ⟨h.holds.addFieldL hS hnames hname hadd, hupdate.1, hupdate.2, ?_⟩
    rw [addFieldL_dict o hmem] at hadd
    exact h.insertDict_nodes hS hname hmem hspelling hobject hadd

variable {objects : ℕ → ArgonObject} {attributes : ℕ → String → Option ℕ}

/-- No built-in field is a deleter. -/
theorem not_isDeleter {name : String} (h : name ∈ builtInFieldNames) : ¬IsDeleter name := by
  have hnames : ∀ n ∈ builtInFieldNames, n.toList.take 4 ≠ "del_".toList := by decide
  rintro ⟨rest, rfl⟩
  refine hnames _ h ?_
  rw [String.toList_append]
  rfl

theorem slotAt_deleter (o : ArgonObject) {name : String} (hname : IsDeleter name) : o.slotAt name = none := by
  rw [ArgonObject.slotAt, Option.map_eq_none_iff, List.find?_eq_none]
  rintro ⟨n, slot⟩ hmem
  rw [decide_eq_true_iff]
  rintro rfl
  exact not_isDeleter (List.of_mem_zip hmem).1 hname

/-- No search for a deleter finds one. -/
theorem getFieldForClassL_deleter (h : ∀ o, Kept hash S (objects o) (attributes o)) {name : String}
    (hname : IsDeleter name) (hS : name ∈ S) {binding c : Option ℕ} {fuel : ℕ} {r : Option Attribute}
    (hr : getFieldForClassL hash objects name binding fuel c = some r) : r = none := by
  induction fuel generalizing c with
  | zero =>
    cases c with
    | none => exact (Option.some.inj hr).symm
    | some c => cases hr
  | succ fuel ih =>
    cases c with
    | none => exact (Option.some.inj hr).symm
    | some c =>
      have hnone : (objects c).getFieldL hash name = none := by
        have hfree : name ∉ builtInFieldNames.take BuiltInFields.arrayCount :=
          fun hmem => not_isDeleter (List.mem_of_mem_take hmem) hname
        rw [ArgonObject.getFieldL, slotAt_deleter _ hname]
        exact ((h c).holds.dict name hS hfree).symm.trans ((h c).deleters name hname)
      rw [getFieldForClassL, hnone] at hr
      exact ih hr

/-- A deletion that does not find the attribute fails, and leaves everything as it is. -/
theorem delattr_of_notFound (h : ∀ o, Kept hash S (objects o) (attributes o)) {target fuel : ℕ}
    {name : String} (hdeleter : "del_" ++ name ∈ S) (hnot : NotFound hash objects target name)
    {outcome : DelattrOutcome} {objects' : ℕ → ArgonObject}
    (hr : delattr hash objects fuel [.object target, .name name] = some (outcome, objects')) :
    outcome = .missing name ∧ objects' = objects := by
  unfold delattr at hr
  simp only [Option.bind_eq_bind, Option.bind_eq_some_iff] at hr
  obtain ⟨deleter, hdel, hr⟩ := hr
  obtain rfl := getFieldForClassL_deleter h ⟨name, rfl⟩ hdeleter hdel
  obtain ⟨found, hfound, hr⟩ := Option.bind_eq_some_iff.mp hr
  cases found with
  | some v => exact absurd hfound (hnot fuel v)
  | none =>
    obtain ⟨rfl, rfl⟩ := Prod.mk.inj (Option.some.inj hr)
    exact ⟨rfl, rfl⟩

/-! ## Listing -/

variable (hash S) in
/-- A list of different names with their hashes. -/
structure Listing.Proper (l : Listing) : Prop where
  nodup : l.1.Nodup
  mem : ∀ n ∈ l.1, n ∈ S
  used : ∀ h, h ∈ l.2 ↔ ∃ n ∈ l.1, hash n = h

theorem Listing.Proper.add (hS : S.InjOn hash) {l : Listing} (hl : l.Proper hash S) {name : String}
    (hname : name ∈ S) : (l.add (name, hash name)).Proper hash S ∧
      ∀ n, n ∈ (l.add (name, hash name)).1 ↔ n ∈ l.1 ∨ n = name := by
  by_cases hused : hash name ∈ l.2
  · have hmem : name ∈ l.1 := by
      obtain ⟨n, hn, heq⟩ := (hl.used _).mp hused
      rwa [← hS (hl.mem n hn) hname heq]
    rw [Listing.add, if_pos hused]
    refine ⟨hl, fun n => ⟨Or.inl, ?_⟩⟩
    rintro (hn | rfl)
    · exact hn
    · exact hmem
  · have hnot : name ∉ l.1 := fun hmem => hused ((hl.used _).mpr ⟨name, hmem, rfl⟩)
    rw [Listing.add, if_neg hused]
    refine ⟨⟨?_, ?_, ?_⟩, fun n => by simp⟩
    · rw [List.nodup_append]
      refine ⟨hl.nodup, by simp, fun n hn m hm heq => hnot ?_⟩
      obtain rfl : m = name := List.mem_singleton.mp hm
      rwa [← heq]
    · intro n hn
      rcases List.mem_append.mp hn with hn | hn
      · exact hl.mem n hn
      · rwa [List.mem_singleton.mp hn]
    · intro h
      simp only [List.mem_cons, hl.used, List.mem_append, List.not_mem_nil, or_false, or_and_right,
        exists_or, exists_eq_left]
      constructor
      · rintro (rfl | hn)
        · exact Or.inr rfl
        · exact Or.inl hn
      · rintro (hn | rfl)
        · exact Or.inr hn
        · exact Or.inl rfl

theorem Listing.Proper.foldl (hS : S.InjOn hash) {ns : List String} (hns : ∀ n ∈ ns, n ∈ S) {l : Listing}
    (hl : l.Proper hash S) :
    ((ns.map fun n => (n, hash n)).foldl Listing.add l).Proper hash S ∧
      ∀ n, n ∈ ((ns.map fun n => (n, hash n)).foldl Listing.add l).1 ↔ n ∈ l.1 ∨ n ∈ ns := by
  induction ns generalizing l with
  | nil => exact ⟨hl, by simp⟩
  | cons name ns ih =>
    obtain ⟨hname, hrest⟩ := List.forall_mem_cons.mp hns
    obtain ⟨hadd, hmem⟩ := hl.add hS hname
    obtain ⟨hproper, hall⟩ := ih hrest hadd
    refine ⟨hproper, fun n => ?_⟩
    rw [List.map_cons, List.foldl_cons, hall, hmem, List.mem_cons, or_assoc]

/-- The nodes of an object are what it has without a slot. -/
theorem Kept.mem_keys (hS : S.InjOn hash) (h : Kept hash S o a) {name : String} :
    (∃ dict, o.dict = some dict ∧ ∃ n ∈ dict.nodes, n.key = name) ↔
      name ∉ builtInFieldNames.take BuiltInFields.arrayCount ∧ a name ≠ none := by
  constructor
  · rintro ⟨dict, hdict, n, hn, rfl⟩
    have hlisted := h.nodes dict hdict n hn
    have hwf := h.holds.wf dict hdict
    have hlookup : dict.lookupNode (hash n.key) = some n := by
      rw [hwf.lookupNode, HashmapGC.find?_eq_some hwf.toArray_hashes]
      exact ⟨dict.toArray_perm.mem_iff.mpr hn, hlisted.hash_eq⟩
    refine ⟨hlisted.free, ?_⟩
    rw [h.holds.dict n.key hlisted.mem hlisted.free, ArgonObject.inDict, hdict, Option.bind_some,
      HashmapGC.lookup, hlookup]
    exact hlisted.value
  · rintro ⟨hfree, hne⟩
    have hmem : name ∈ S := by
      by_contra hmem
      exact hne (h.names name hmem)
    rw [h.holds.dict name hmem hfree, ArgonObject.inDict] at hne
    cases hdict : o.dict with
    | none =>
      rw [hdict] at hne
      exact absurd rfl hne
    | some dict =>
      have hwf := h.holds.wf dict hdict
      rw [hdict, Option.bind_some, HashmapGC.lookup] at hne
      cases hlookup : dict.lookupNode (hash name) with
      | none =>
        rw [hlookup] at hne
        exact absurd rfl hne
      | some n =>
        rw [hwf.lookupNode, HashmapGC.find?_eq_some hwf.toArray_hashes] at hlookup
        have hn := dict.toArray_perm.mem_iff.mp hlookup.1
        have hlisted := h.nodes dict hdict n hn
        exact ⟨dict, rfl, n, hn, hS hlisted.mem hmem (hlisted.hash_eq.symm.trans hlookup.2)⟩

end

/-! ## Right histories -/

section

variable (hash : String → UInt64) (isFunction : ℕ → Bool) (null : ℕ) (steps : List AttributeStep)

/-- The names that are written have no null character. At every point of the history its next deletion finds
nothing, and the places of slots along the classes of instances are those of their fields. -/
def HistoryHarmless : Prop :=
  (∀ w, .write w ∈ steps → cString w.key = w.key) ∧
    ∀ before objects attributes, before <+: steps → History hash isFunction before objects attributes →
      (∀ target name, before ++ [.delete target name] <+: steps → NotFound hash objects target name) ∧
        PlacesListed objects attributes

end

/-- The objects keep what they should as long as no deletion finds its attribute. -/
theorem History.kept {hash : String → UInt64} {S : Set String} {isFunction : ℕ → Bool}
    {steps before : List AttributeStep} {objects : ℕ → ArgonObject} {attributes : ℕ → String → Option ℕ}
    (hS : S.InjOn hash) (hnames : ∀ field : BuiltInFields, field.name ∈ S)
    (hvalid : ∀ step ∈ steps, step.Valid S) (hharmless : HistoryHarmless hash isFunction steps)
    (h : History hash isFunction before objects attributes) (hbefore : before <+: steps) (o : ℕ) :
    Kept hash S (objects o) (attributes o) := by
  induction h generalizing o with
  | nil => exact kept_newObject (isFunction o)
  | @write before objects objects' attributes w h hstep ih =>
    have hkept := ih ((List.prefix_append _ _).trans hbefore)
    have hmem : AttributeStep.write w ∈ steps := hbefore.subset (by simp)
    obtain ⟨hw, hvalue, hdeleter⟩ : AttributeStep.Valid S (.write w) := hvalid _ hmem
    have hspelling := hharmless.1 w hmem
    cases w with
    | addBuiltinField target field object =>
      obtain ⟨o', hadd, rfl⟩ := Option.map_eq_some_iff.mp hstep
      by_cases ho : o = target
      · rw [ho, AttributeWrite.apply, Function.update_self, Function.update_self]
        exact (hkept target).addBuiltinField hS hnames hw hspelling hdeleter hvalue hadd
      · rw [AttributeWrite.apply, Function.update_of_ne ho, Function.update_of_ne ho]
        exact hkept o
    | addFieldL target name object =>
      obtain ⟨o', hadd, rfl⟩ := Option.map_eq_some_iff.mp hstep
      by_cases ho : o = target
      · rw [ho, AttributeWrite.apply, Function.update_self, Function.update_self]
        exact (hkept target).addFieldL hS hnames hw hspelling hdeleter hvalue hadd
      · rw [AttributeWrite.apply, Function.update_of_ne ho, Function.update_of_ne ho]
        exact hkept o
  | @deleted before objects objects' attributes target fuel name result h hstep ih =>
    have hbefore' : before <+: steps := (List.prefix_append _ _).trans hbefore
    obtain ⟨-, hdeleter⟩ : AttributeStep.Valid S (.delete target name) :=
      hvalid _ (hbefore.subset (by simp))
    have hnot := (hharmless.2 before objects attributes hbefore' h).1 target name hbefore
    cases (delattr_of_notFound (ih hbefore') hdeleter hnot hstep).1
  | @missing before objects objects' attributes target fuel name h hstep ih =>
    have hbefore' : before <+: steps := (List.prefix_append _ _).trans hbefore
    obtain ⟨-, hdeleter⟩ : AttributeStep.Valid S (.delete target name) :=
      hvalid _ (hbefore.subset (by simp))
    have hnot := (hharmless.2 before objects attributes hbefore' h).1 target name hbefore
    obtain ⟨-, rfl⟩ := delattr_of_notFound (ih hbefore') hdeleter hnot hstep
    exact ih hbefore' o

end Chloride
