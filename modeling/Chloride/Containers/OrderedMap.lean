import Mathlib

/-!
# Insertion-ordered finite maps

A finite map that remembers the order in which its keys arrived: updating a key that is present
keeps its place, and a key that is removed and inserted again goes to the end. The map is the list of
its entries, with the distinctness of the keys as a field, so that no map with a repeated key can be
built. The file gives the operations, their laws for `lookup`, and their effect on the keys.
-/

/-- An insertion-ordered finite map from `κ` to `υ`. -/
structure OrderedMap (κ υ : Type*) where
  /-- The entries, the earliest first. -/
  entries : List (κ × υ)
  /-- No key has two entries. -/
  nodup : (entries.map Prod.fst).Nodup

namespace OrderedMap

variable {κ υ : Type*}

/-- The keys in the order of their insertion. -/
def keys (m : OrderedMap κ υ) : List κ := m.entries.map Prod.fst

/-- The map without entries. -/
def empty : OrderedMap κ υ := ⟨[], by simp⟩

@[ext]
theorem ext {m m' : OrderedMap κ υ} (h : m.entries = m'.entries) : m = m' := by
  cases m
  cases m'
  simpa using h

variable [DecidableEq κ]

/-- The value of `k`, if `k` is a key. -/
def lookup (m : OrderedMap κ υ) (k : κ) : Option υ :=
  (m.entries.find? fun e => e.1 = k).map Prod.snd

/-- Replacing the value of one key leaves the keys as they were. -/
theorem map_fst_replace (es : List (κ × υ)) (k : κ) (v : υ) :
    (es.map fun e => if e.1 = k then (k, v) else e).map Prod.fst = es.map Prod.fst := by
  rw [List.map_map]
  apply List.map_congr_left
  intro e _
  by_cases h : e.1 = k
  · simp [h]
  · simp [h]

/-- Give `k` the value `v`: in its place when `k` is a key, at the end otherwise. -/
def insert (m : OrderedMap κ υ) (k : κ) (v : υ) : OrderedMap κ υ :=
  if h : k ∈ m.keys then
    ⟨m.entries.map fun e => if e.1 = k then (k, v) else e, by
      rw [map_fst_replace]
      exact m.nodup⟩
  else
    ⟨m.entries ++ [(k, v)], by
      rw [List.map_append, List.nodup_append]
      refine ⟨m.nodup, by simp, ?_⟩
      rintro a ha b hb rfl
      simp only [List.map_cons, List.map_nil, List.mem_singleton] at hb
      subst hb
      exact h ha⟩

/-- Remove `k`. -/
def erase (m : OrderedMap κ υ) (k : κ) : OrderedMap κ υ :=
  ⟨m.entries.filter fun e => e.1 ≠ k, m.nodup.sublist (List.filter_sublist.map Prod.fst)⟩

@[simp]
theorem lookup_empty (k : κ) : (empty : OrderedMap κ υ).lookup k = none := rfl

/-- A present key is given its value in place. -/
theorem entries_insert_of_mem {m : OrderedMap κ υ} {k : κ} (h : k ∈ m.keys) (v : υ) :
    (m.insert k v).entries = m.entries.map fun e => if e.1 = k then (k, v) else e := by
  rw [insert, dif_pos h]

/-- An absent key goes to the end. -/
theorem entries_insert_of_not_mem {m : OrderedMap κ υ} {k : κ} (h : k ∉ m.keys) (v : υ) :
    (m.insert k v).entries = m.entries ++ [(k, v)] := by
  rw [insert, dif_neg h]

@[simp]
theorem keys_insert_of_mem {m : OrderedMap κ υ} {k : κ} (h : k ∈ m.keys) (v : υ) :
    (m.insert k v).keys = m.keys := by
  rw [keys, entries_insert_of_mem h, map_fst_replace, keys]

@[simp]
theorem keys_insert_of_not_mem {m : OrderedMap κ υ} {k : κ} (h : k ∉ m.keys) (v : υ) :
    (m.insert k v).keys = m.keys ++ [k] := by
  rw [keys, entries_insert_of_not_mem h, List.map_append, keys]
  rfl

theorem entries_erase (m : OrderedMap κ υ) (k : κ) :
    (m.erase k).entries = m.entries.filter fun e => e.1 ≠ k := rfl

@[simp]
theorem keys_erase (m : OrderedMap κ υ) (k : κ) :
    (m.erase k).keys = m.keys.filter fun j => j ≠ k := by
  simp only [erase, keys, List.filter_map]
  rfl

/-- A key has a value exactly when it is among the keys. -/
theorem lookup_isSome {m : OrderedMap κ υ} {k : κ} : (m.lookup k).isSome ↔ k ∈ m.keys := by
  simp [lookup, keys]

/-- The value of a key is the one its entry holds. -/
theorem lookup_eq_some {m : OrderedMap κ υ} {k : κ} {v : υ} :
    m.lookup k = some v ↔ (k, v) ∈ m.entries := by
  unfold lookup
  rw [Option.map_eq_some_iff]
  constructor
  · rintro ⟨e, he, rfl⟩
    have hk : e.1 = k := by simpa using List.find?_some he
    rw [← hk]
    exact List.mem_of_find?_eq_some he
  · intro hmem
    obtain ⟨e, he⟩ : ∃ e, (m.entries.find? fun e => e.1 = k) = some e := by
      rw [← Option.isSome_iff_exists, List.find?_isSome]
      exact ⟨(k, v), hmem, by simp⟩
    have hk : e.1 = k := by simpa using List.find?_some he
    have heq : e = (k, v) :=
      List.inj_on_of_nodup_map m.nodup (List.mem_of_find?_eq_some he) hmem hk
    exact ⟨e, he, by rw [heq]⟩

/-- Looking a key up right after it was inserted gives the inserted value. -/
@[simp]
theorem lookup_insert_self (m : OrderedMap κ υ) (k : κ) (v : υ) :
    (m.insert k v).lookup k = some v := by
  rw [lookup_eq_some]
  by_cases h : k ∈ m.keys
  · rw [entries_insert_of_mem h]
    obtain ⟨e, he, hek⟩ := List.mem_map.mp h
    exact List.mem_map.mpr ⟨e, he, if_pos hek⟩
  · rw [entries_insert_of_not_mem h]
    exact List.mem_append_right _ (List.mem_singleton_self _)

/-- Inserting one key leaves the value of every other key alone. -/
@[simp]
theorem lookup_insert_of_ne (m : OrderedMap κ υ) {k j : κ} (hne : j ≠ k) (v : υ) :
    (m.insert k v).lookup j = m.lookup j := by
  ext w
  rw [lookup_eq_some, lookup_eq_some]
  by_cases h : k ∈ m.keys
  · rw [entries_insert_of_mem h, List.mem_map]
    constructor
    · rintro ⟨e, he, heq⟩
      by_cases hek : e.1 = k
      · rw [if_pos hek, Prod.mk.injEq] at heq
        exact absurd heq.1.symm hne
      · rw [if_neg hek] at heq
        rwa [← heq]
    · intro hmem
      exact ⟨(j, w), hmem, if_neg hne⟩
  · rw [entries_insert_of_not_mem h, List.mem_append, List.mem_singleton, Prod.mk.injEq]
    constructor
    · rintro (hmem | ⟨hjk, _⟩)
      · exact hmem
      · exact absurd hjk hne
    · intro hmem
      exact Or.inl hmem

/-- A removed key has no value. -/
@[simp]
theorem lookup_erase_self (m : OrderedMap κ υ) (k : κ) : (m.erase k).lookup k = none := by
  rw [← Option.not_isSome_iff_eq_none, lookup_isSome, keys_erase, List.mem_filter]
  simp

/-- Removing one key leaves the value of every other key alone. -/
@[simp]
theorem lookup_erase_of_ne (m : OrderedMap κ υ) {k j : κ} (hne : j ≠ k) :
    (m.erase k).lookup j = m.lookup j := by
  ext w
  rw [lookup_eq_some, lookup_eq_some, entries_erase, List.mem_filter]
  simp [hne]

end OrderedMap
