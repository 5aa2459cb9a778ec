import Chloride.Hashmap.Hashmap
import Chloride.Containers.HashTable

/-!
# What the hash map of the compiler finds

`hashmap_lookup` of `src/hashmap/hashmap.c`. Whatever the count of the nodes was when the map was made, a map that was
only inserted into finds under every hash the last value that was inserted under it, across its resizes.
-/

namespace Chloride.Hashmap

variable {κ υ : Type*}

/-- `hashmap_lookup`; no value is `NULL`. -/
def lookup (t : Hashmap κ υ) (hash : UInt64) : Option υ :=
  ((t.list.getD (t.hashCode hash) []).find? fun n => n.hash = hash).map NodeGC.val

/-- What an insertion relies on and keeps, with any count. -/
structure Sound (t : Hashmap κ υ) : Prop where
  hashes : (t.nodes.map NodeGC.hash).Nodup
  placed : HashmapGC.Placed t.size t.list

theorem Sound.create (count : UInt64) : (create count : Hashmap κ υ).Sound where
  hashes := by
    rw [show (Hashmap.create count : Hashmap κ υ).nodes = [] from List.flatten_replicate_nil]
    exact List.nodup_nil
  placed := HashmapGC.placed_replicate 3

theorem lookup_create (count : UInt64) (hash : UInt64) : (create count : Hashmap κ υ).lookup hash = none := by
  have hbucket : ∀ i, (List.replicate 8 ([] : List (NodeGC κ υ))).getD i [] = [] := by
    intro i
    rw [List.getD_eq_getElem?_getD, List.getElem?_replicate]
    split <;> rfl
  simp only [lookup, Hashmap.create, hbucket, List.find?_nil, Option.map_none]

/-- The chain of a hash has all nodes of the hash. -/
theorem Sound.lookup_eq_some {t : Hashmap κ υ} (ht : t.Sound) {hash : UInt64} {val : υ} :
    t.lookup hash = some val ↔ ∃ n ∈ t.nodes, n.hash = hash ∧ n.val = val := by
  have hpos : t.hashCode hash = hash.toNat % t.size := by
    rw [← toGC_hashCode ht.placed]
    exact HashmapGC.hashCode_eq (t := t.toGC) ht.placed.pow hash
  have hlt : hash.toNat % t.size < t.list.length := by
    rw [ht.placed.length]
    exact Nat.mod_lt _ ht.placed.size_pos
  have hsub : (t.list.getD (hash.toNat % t.size) []).Sublist t.list.flatten := by
    rw [List.getD_eq_getElem _ _ hlt]
    exact List.sublist_flatten_of_mem (List.getElem_mem hlt)
  rw [lookup, hpos, Option.map_eq_some_iff]
  refine exists_congr fun n => ?_
  rw [HashmapGC.find?_eq_some (ht.hashes.sublist (hsub.map _)), and_assoc]
  -- A node of the hash is in the chain if it is anywhere.
  constructor
  · rintro ⟨hn, rfl, hval⟩
    exact ⟨hsub.subset hn, rfl, hval⟩
  · rintro ⟨hn, rfl, hval⟩
    exact ⟨ht.placed.mem_flatten.mp hn, rfl, hval⟩

/-- Two maps whose nodes agree on a hash find the same under it. -/
theorem Sound.lookup_congr {t t' : Hashmap κ υ} (ht : t.Sound) (ht' : t'.Sound) {hash : UInt64}
    (h : ∀ val, (∃ n ∈ t'.nodes, n.hash = hash ∧ n.val = val) ↔ ∃ n ∈ t.nodes, n.hash = hash ∧ n.val = val) :
    t'.lookup hash = t.lookup hash := by
  ext val
  rw [ht.lookup_eq_some, ht'.lookup_eq_some, h]

theorem Sound.insertBucket {t : Hashmap κ υ} (ht : t.Sound) (hash : UInt64) (key : κ) (val : υ) (order : ℕ) :
    (t.insertBucket hash key val order).Sound := by
  obtain ⟨hnodes, hplaced, hsize⟩ := insertBucket_spec ht.placed ht.hashes hash key val order
  exact ⟨hnodes.hashes ht.hashes, hsize ▸ hplaced⟩

/-- A node in its bucket is what is found under its hash, and nothing else changes. -/
theorem Sound.lookup_insertBucket {t : Hashmap κ υ} (ht : t.Sound) (hash : UInt64) (key : κ) (val : υ) (order : ℕ)
    (hash' : UInt64) : (t.insertBucket hash key val order).lookup hash' =
      if hash = hash' then some val else t.lookup hash' := by
  have hnodes := (insertBucket_spec ht.placed ht.hashes hash key val order).1
  have ht' := ht.insertBucket hash key val order
  by_cases heq : hash = hash'
  · subst heq
    rw [if_pos rfl, ht'.lookup_eq_some]
    rcases hnodes with ⟨⟨m, hm, hmh⟩, hp⟩ | ⟨-, hp⟩
    · refine ⟨HashmapGC.setVal hash val m, hp.mem_iff.mpr (List.mem_map_of_mem hm), ?_, ?_⟩
      · rw [HashmapGC.setVal_hash, hmh]
      · exact HashmapGC.setVal_val hmh
    · exact ⟨_, hp.mem_iff.mpr List.mem_cons_self, rfl, rfl⟩
  · rw [if_neg heq]
    refine ht.lookup_congr ht' fun w => ?_
    rcases hnodes with ⟨-, hp⟩ | ⟨-, hp⟩
    · simp only [hp.mem_iff, List.mem_map]
      constructor
      · rintro ⟨-, ⟨m, hm, rfl⟩, hmh, rfl⟩
        rw [HashmapGC.setVal_hash] at hmh
        rw [HashmapGC.setVal_of_ne (hmh ▸ Ne.symm heq)]
        exact ⟨m, hm, hmh, rfl⟩
      · rintro ⟨m, hm, hmh, rfl⟩
        exact ⟨m, ⟨m, hm, HashmapGC.setVal_of_ne (hmh ▸ Ne.symm heq)⟩, hmh, rfl⟩
    · simp only [hp.mem_iff, List.mem_cons, exists_eq_or_imp]
      rw [or_iff_right fun h => heq h.1]

/-- What an insertion of a value under a hash does to a map. -/
structure Stores (t t' : Hashmap κ υ) (hash : UInt64) (val : υ) : Prop where
  sound : t'.Sound
  lookup : ∀ hash', t'.lookup hash' = if hash = hash' then some val else t.lookup hash'

/-- What a resize does to a map: it finds the same. -/
structure Keeps (t t' : Hashmap κ υ) : Prop where
  sound : t'.Sound
  lookup : ∀ hash, t'.lookup hash = t.lookup hash

/-- An insertion stores the value if the resize it may make keeps what is found. -/
theorem Sound.insertWith {t t' : Hashmap κ υ} (ht : t.Sound) {resize : Hashmap κ υ → Option (Hashmap κ υ)}
    (hresize : ∀ t t' : Hashmap κ υ, t.Sound → resize t = some t' → Keeps t t') {hash : UInt64} {key : κ} {val : υ}
    {order : ℕ} (h : insertWith resize t hash key val order = some t') : Stores t t' hash val := by
  obtain ⟨c, o, heq⟩ := insertWith_eq resize t hash key val order
  have htc : Sound { t with order := c } := ⟨ht.hashes, ht.placed⟩
  rw [heq] at h
  split at h
  · obtain ⟨u, hu, rfl⟩ := Option.map_eq_some_iff.mp h
    obtain ⟨hsound, hlookup⟩ := hresize _ _ htc hu
    refine ⟨hsound.insertBucket _ _ _ _, fun hash' => ?_⟩
    rw [hsound.lookup_insertBucket, hlookup]
    rfl
  · obtain rfl := Option.some.inj h
    exact ⟨htc.insertBucket _ _ _ _, htc.lookup_insertBucket _ _ _ _⟩

/-- Nodes with hashes of their own, inserted one after the other, are found, and what was there under other hashes. -/
theorem Sound.foldlM_insertWith {resize : Hashmap κ υ → Option (Hashmap κ υ)}
    (hresize : ∀ t t' : Hashmap κ υ, t.Sound → resize t = some t' → Keeps t t') {ns : List (NodeGC κ υ)}
    {t t' : Hashmap κ υ} (ht : t.Sound) (hnodup : (ns.map NodeGC.hash).Nodup)
    (h : ns.foldlM (fun t temp => Hashmap.insertWith resize t temp.hash temp.key temp.val temp.order) t = some t') :
    t'.Sound ∧ ∀ hash, t'.lookup hash =
      ((ns.find? fun n => n.hash = hash).map NodeGC.val).or (t.lookup hash) := by
  induction ns generalizing t with
  | nil =>
    obtain rfl := Option.some.inj h
    exact ⟨ht, fun hash => rfl⟩
  | cons n ns ih =>
    rw [List.map_cons, List.nodup_cons] at hnodup
    rw [List.foldlM_cons] at h
    obtain ⟨u, hu, h⟩ := Option.bind_eq_some_iff.mp h
    obtain ⟨hsound, hlookup⟩ := ht.insertWith hresize hu
    obtain ⟨hsound', hlookup'⟩ := ih hsound hnodup.2 h
    refine ⟨hsound', fun hash => ?_⟩
    rw [hlookup', hlookup, List.find?_cons]
    by_cases heq : n.hash = hash
    · -- No later node has this hash.
      have hnone : ns.find? (fun n => n.hash = hash) = none := by
        rw [List.find?_eq_none]
        intro m hm hmh
        exact hnodup.1 (List.mem_map.mpr ⟨m, hm, (of_decide_eq_true hmh).trans heq.symm⟩)
      simp [heq, hnone]
    · simp [heq]

/-- A resize finds the same, however many resizes the insertions that it makes come to. -/
theorem Sound.resizeWithin (depth : ℕ) : ∀ t t' : Hashmap κ υ, t.Sound → resizeWithin depth t = some t' → Keeps t t' := by
  induction depth with
  | zero =>
    intro t t' ht h
    cases h
  | succ depth ih =>
    intro t t' ht h
    rw [Hashmap.resizeWithin] at h
    split at h
    case isTrue => cases h
    case isFalse =>
      obtain ⟨k, hk⟩ := ht.placed.pow
      have hnodes : t.emptied.nodes = [] := List.flatten_replicate_nil
      have hempty : t.emptied.Sound := by
        refine ⟨?_, ?_⟩
        · rw [hnodes]
          exact List.nodup_nil
        · show HashmapGC.Placed (t.size * 2) (List.replicate (t.size * 2) [])
          rw [hk, ← Nat.pow_succ]
          exact HashmapGC.placed_replicate (k + 1)
      obtain ⟨hsound, hlookup⟩ := hempty.foldlM_insertWith ih ht.hashes h
      refine ⟨hsound, fun hash => ?_⟩
      have hnone : t.emptied.lookup hash = none := by
        rw [Option.eq_none_iff_forall_ne_some]
        intro val hval
        obtain ⟨n, hn, -⟩ := hempty.lookup_eq_some.mp hval
        rw [hnodes] at hn
        cases hn
      rw [hlookup, hnone, Option.or_none]
      ext val
      rw [ht.lookup_eq_some, Option.map_eq_some_iff]
      refine exists_congr fun n => ?_
      rw [HashmapGC.find?_eq_some ht.hashes, and_assoc]

/-- An insertion stores its value. -/
theorem Sound.insert {t t' : Hashmap κ υ} (ht : t.Sound) {hash : UInt64} {key : κ} {val : υ} {order : ℕ}
    (h : t.insert hash key val order = some t') : Stores t t' hash val :=
  ht.insertWith (Sound.resizeWithin 32) h

end Chloride.Hashmap
