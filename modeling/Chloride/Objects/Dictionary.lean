import Chloride.Hashmap.History
import Chloride.Objects.Number

/-!
# Dictionaries

The item methods of `src/runtime/objects/dictionary/dictionary.c` on number and string keys. A
dictionary is a hash map on the hashes of its keys; the keys themselves are stored beside the values
but never compared, unlike the arena of the translator (`arena_push`), which compares the bytes behind
equal hashes. So two keys are kept apart exactly when their hashes are different, and every rational
and every string shares its hash with an integer.
-/

namespace Chloride

/-- A number or a string object as a dictionary key; a string is its bytes. -/
inductive Key where
  | number (n : Number)
  | string (data : List UInt8)
  deriving DecidableEq

/-- The `__equal__` methods of `ARGON_NUMBER_TYPE` and `ARGON_STRING_TYPE`, which `==` calls: objects
of different types are not equal, and strings are compared by length and bytes. -/
def Key.equal : Key → Key → Bool
  | .number a, .number b => a.equal b
  | .string a, .string b => a = b
  | _, _ => false

/-- `hash_object`: the number that the `__hash__` method of the key's class answers, a 64-bit integer
for both classes, as the unsigned hash the hash map takes. `siphash64` is the hash of the bytes of a
string. -/
def hashObject (siphash64 : List UInt8 → UInt64) : Key → UInt64
  | .number n => n.hash
  | .string data => siphash64 data

/-- The dictionary object: `value.as_hashmap`. -/
abbrev Dictionary (υ : Type*) := HashmapGC Key υ

namespace Dictionary

variable {υ : Type*} (siphash64 : List UInt8 → UInt64) (keyString : Key → String)

/-- The error of a key that has no item; `keyString` is `argon_object_to_null_terminated_string`. -/
def noItem (key : Key) : ArErr := ⟨"AttributeError", "Dictionary has no item " ++ keyString key⟩

/-- `ARGON_DICTIONARY_TYPE___contains__`. -/
def contains (d : Dictionary υ) (key : Key) : Bool :=
  (HashmapGC.lookup d (hashObject siphash64 key)).isSome

/-- `ARGON_DICTIONARY_TYPE___getitem__`. -/
def getitem (d : Dictionary υ) (key : Key) : Except ArErr υ :=
  match HashmapGC.lookup d (hashObject siphash64 key) with
  | none => .error (noItem keyString key)
  | some result => .ok result

/-- `ARGON_DICTIONARY_TYPE___setitem__`; `none` when the hash map cannot grow. -/
def setitem (d : Dictionary υ) (key : Key) (value : υ) : Option (Dictionary υ) :=
  HashmapGC.insert d (hashObject siphash64 key) key value 0

/-- `ARGON_DICTIONARY_TYPE___delitem__`: the error of a key that has no item, and the dictionary
afterwards. -/
def delitem (d : Dictionary υ) (key : Key) : Except ArErr Unit × Dictionary υ :=
  let (removed, d) := HashmapGC.remove d (hashObject siphash64 key)
  (if removed then .ok () else .error (noItem keyString key), d)

/-- The dictionaries that a sequence of operations makes, from the empty one. -/
inductive Reachable : Dictionary υ → Prop where
  | create : Reachable HashmapGC.create
  | setitem {d d' : Dictionary υ} {key : Key} {value : υ} :
    Reachable d → setitem siphash64 d key value = some d' → Reachable d'
  | delitem {d : Dictionary υ} {key : Key} :
    Reachable d → Reachable (delitem siphash64 keyString d key).2

/-- Two keys are kept apart in every dictionary: what is done with `k₁` is not seen through `k₂`, and
both can be present with a value each. -/
structure Separate (υ : Type*) (k₁ k₂ : Key) : Prop where
  setitem_getitem : ∀ d d' : Dictionary υ, Reachable siphash64 keyString d → ∀ v,
    setitem siphash64 d k₁ v = some d' →
      getitem siphash64 keyString d' k₂ = getitem siphash64 keyString d k₂
  delitem_getitem : ∀ d : Dictionary υ, Reachable siphash64 keyString d →
    getitem siphash64 keyString (delitem siphash64 keyString d k₁).2 k₂ =
      getitem siphash64 keyString d k₂
  setitem_contains : ∀ d d' : Dictionary υ, Reachable siphash64 keyString d → ∀ v,
    setitem siphash64 d k₁ v = some d' → contains siphash64 d k₂ = false →
      contains siphash64 d' k₂ = false
  both : ∀ d d₁ d₂ : Dictionary υ, Reachable siphash64 keyString d → ∀ v₁ v₂,
    setitem siphash64 d k₁ v₁ = some d₁ → setitem siphash64 d₁ k₂ v₂ = some d₂ →
      getitem siphash64 keyString d₂ k₁ = .ok v₁ ∧ getitem siphash64 keyString d₂ k₂ = .ok v₂

variable {siphash64 keyString}

/-- Every dictionary refines an ordered map. -/
theorem Reachable.refines {d : Dictionary υ} (h : Reachable siphash64 keyString d) :
    ∃ m, HashmapGC.Refines d m := by
  induction h with
  | create => exact ⟨_, HashmapGC.Refines.create⟩
  | setitem _ hset ih =>
    obtain ⟨m, hm⟩ := ih
    exact ⟨_, (hm.insert hset).1⟩
  | delitem _ ih =>
    obtain ⟨m, hm⟩ := ih
    exact ⟨_, (hm.remove _).1⟩

/-- The hash of an item just set has the new value. -/
theorem lookup_setitem_self {d d' : Dictionary υ} (h : Reachable siphash64 keyString d) {k : Key}
    {v : υ} (hset : setitem siphash64 d k v = some d') :
    HashmapGC.lookup d' (hashObject siphash64 k) = some v := by
  obtain ⟨m, hm⟩ := h.refines
  rw [(hm.insert hset).1.lookup, HashmapGC.specInsert, OrderedMap.lookup_insert_self]
  rfl

/-- Setting an item leaves the values of the other hashes alone. -/
theorem lookup_setitem_of_ne {d d' : Dictionary υ} (h : Reachable siphash64 keyString d) {k : Key}
    {v : υ} (hset : setitem siphash64 d k v = some d') {hash : UInt64}
    (hne : hash ≠ hashObject siphash64 k) : HashmapGC.lookup d' hash = HashmapGC.lookup d hash := by
  obtain ⟨m, hm⟩ := h.refines
  rw [(hm.insert hset).1.lookup, hm.lookup, HashmapGC.specInsert,
    OrderedMap.lookup_insert_of_ne _ hne]

/-- Deleting an item leaves the values of the other hashes alone. -/
theorem lookup_delitem_of_ne {d : Dictionary υ} (h : Reachable siphash64 keyString d) {k : Key}
    {hash : UInt64} (hne : hash ≠ hashObject siphash64 k) :
    HashmapGC.lookup (delitem siphash64 keyString d k).2 hash = HashmapGC.lookup d hash := by
  obtain ⟨m, hm⟩ := h.refines
  have hrem := (hm.remove (hashObject siphash64 k)).1
  rw [hm.lookup, ← OrderedMap.lookup_erase_of_ne m hne]
  exact hrem.lookup hash

/-- Keys with different hashes are kept apart. -/
theorem separate_of_hash_ne {k₁ k₂ : Key} (hne : hashObject siphash64 k₁ ≠ hashObject siphash64 k₂) :
    Separate siphash64 keyString υ k₁ k₂ where
  setitem_getitem d d' h v hset := by
    rw [getitem, getitem, lookup_setitem_of_ne h hset hne.symm]
  delitem_getitem d h := by
    rw [getitem, getitem, lookup_delitem_of_ne h hne.symm]
  setitem_contains d d' h v hset hnot := by
    rw [contains, lookup_setitem_of_ne h hset hne.symm]
    exact hnot
  both d d₁ d₂ h v₁ v₂ hset₁ hset₂ := by
    have h₁ : Reachable siphash64 keyString d₁ := h.setitem hset₁
    constructor
    · rw [getitem, lookup_setitem_of_ne h₁ hset₂ hne, lookup_setitem_self h hset₁]
    · rw [getitem, lookup_setitem_self h₁ hset₂]

/-- Keys with one hash are conflated: setting one of them in the empty dictionary makes the other
present. -/
theorem not_separate_of_hash_eq {k₁ k₂ : Key}
    (heq : hashObject siphash64 k₁ = hashObject siphash64 k₂) (v : υ) :
    ¬Separate siphash64 keyString υ k₁ k₂ := by
  intro hsep
  have hsome : (setitem siphash64 (HashmapGC.create : Dictionary υ) k₁ v).isSome :=
    HashmapGC.insert_isSome (by simp [HashmapGC.create, HashmapGC.capacity]) _ _ _
  obtain ⟨d', hset⟩ := Option.isSome_iff_exists.mp hsome
  have hnot : contains siphash64 (HashmapGC.create : Dictionary υ) k₂ = false := rfl
  have hcontains := hsep.setitem_contains _ _ .create v hset hnot
  have hempty : Reachable siphash64 keyString (HashmapGC.create : Dictionary υ) := .create
  rw [contains, ← heq, lookup_setitem_self hempty hset] at hcontains
  cases hcontains

/-- Two keys that are not equal are kept apart exactly when their hashes are different. -/
theorem separate_iff (v : υ) (k₁ k₂ : Key) :
    (k₁.equal k₂ = false → Separate siphash64 keyString υ k₁ k₂) ↔
      (k₁.equal k₂ = false → hashObject siphash64 k₁ ≠ hashObject siphash64 k₂) := by
  constructor
  · intro h hne heq
    exact not_separate_of_hash_eq heq v (h hne)
  · intro h hne
    exact separate_of_hash_ne (h hne)

/-- The number one half. -/
def half : Key := .number (.mpq ⟨1, 2, by decide⟩)

/-- The integer whose mixed value is the hash of one half. -/
def halfTwin : Key := .number (.i64 4116927638767172641)

/-- One half and its twin are different numbers, and a dictionary confuses them. -/
theorem not_forall_separate :
    ¬∀ (siphash64 : List UInt8 → UInt64) (keyString : Key → String) (k₁ k₂ : Key),
      k₁.equal k₂ = false → Separate siphash64 keyString ℕ k₁ k₂ := by
  intro h
  have hne : half.equal halfTwin = false := by decide
  have heq : hashObject (fun _ => 0) half = hashObject (fun _ => 0) halfTwin := by decide
  exact not_separate_of_hash_eq heq 0 (h (fun _ => 0) (fun _ => "") half halfTwin hne)

/-- Every string shares its hash with an integer, which is not equal to it, whatever the hash of
strings is. -/
theorem exists_number_twin (v : υ) (data : List UInt8) :
    ∃ n : Int64, (Key.number (.i64 n)).equal (.string data) = false ∧
      ¬Separate siphash64 keyString υ (.number (.i64 n)) (.string data) := by
  obtain ⟨n, hn⟩ := exists_i64_hash (siphash64 data)
  exact ⟨n, rfl, not_separate_of_hash_eq hn v⟩

end Dictionary

end Chloride
