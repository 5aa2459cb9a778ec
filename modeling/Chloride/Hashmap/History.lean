import Chloride.Hashmap.Refinement

/-!
# Histories of a hash map

The hash map against the insertion-ordered map, operation by operation and then over whole
histories. `Refines` relates a hash map to the `OrderedMap` from hashes to keys and values that its
sorted array lists. Every operation keeps the relation and answers as the ordered map does, so after
any history the answers are those of the ordered map; the only way for a history not to reach its end
is the resize that would need more than `INT_MAX` buckets, which fewer than `3 · 2^28` insertions
cannot cause.
-/

namespace Chloride.HashmapGC

variable {κ υ : Type*}

/-! ## One operation -/

/-- The entry of a node in the ordered map. -/
def entry (n : NodeGC κ υ) : UInt64 × κ × υ := (n.hash, n.key, n.val)

/-- The ordered map lists the nodes of the hash map in the order of its sorted array. -/
structure Refines (t : HashmapGC κ υ) (m : OrderedMap UInt64 (κ × υ)) : Prop where
  wf : t.Wf
  entries : m.entries = t.toArray.map entry

/-- Insertion in the ordered map: a present hash keeps its place and its key. -/
def specInsert (m : OrderedMap UInt64 (κ × υ)) (hash : UInt64) (key : κ) (val : υ) :
    OrderedMap UInt64 (κ × υ) :=
  m.insert hash (((m.lookup hash).map Prod.fst).getD key, val)

theorem toArray_perm (t : HashmapGC κ υ) : t.toArray.Perm t.nodes :=
  Stamped.sortByStamp_perm _ _

theorem Wf.toArray_hashes {t : HashmapGC κ υ} (ht : t.Wf) : (t.toArray.map NodeGC.hash).Nodup :=
  (t.toArray_perm.map NodeGC.hash).nodup_iff.mpr ht.hashes

theorem Refines.keys {t : HashmapGC κ υ} {m : OrderedMap UInt64 (κ × υ)} (h : Refines t m) :
    m.keys = t.toArray.map NodeGC.hash := by
  rw [OrderedMap.keys, h.entries, List.map_map]
  rfl

theorem Refines.mem_keys {t : HashmapGC κ υ} {m : OrderedMap UInt64 (κ × υ)} (h : Refines t m)
    {hash : UInt64} : hash ∈ m.keys ↔ ∃ n ∈ t.nodes, n.hash = hash := by
  rw [h.keys, List.mem_map]
  simp only [t.toArray_perm.mem_iff]

/-- The search of `hashmap_lookup_node_GC` is a search through all nodes. -/
theorem Wf.lookupNode {t : HashmapGC κ υ} (ht : t.Wf) (hash : UInt64) :
    t.lookupNode hash = t.toArray.find? fun n => n.hash = hash := by
  rw [← find?_perm ht.hashes t.toArray_perm.symm, nodes, List.find?_append,
    HashmapGC.lookupNode]
  cases t.inlineValues.find? fun n => n.hash = hash with
  | some n => rfl
  -- No inline node has the hash. Its chain is searched, which has all nodes with the hash.
  | none =>
    cases hlist : t.list with
    | none => rfl
    | some bs =>
      have hplaced := ht.placed bs hlist
      have hhashes := ht.hashes
      rw [nodes_eq hlist, List.map_append, List.nodup_append] at hhashes
      have hlt : hash.toNat % t.size < bs.length := by
        rw [hplaced.length]
        exact Nat.mod_lt _ hplaced.size_pos
      have hsub : (bs.getD (hash.toNat % t.size) []).Sublist bs.flatten := by
        rw [List.getD_eq_getElem _ _ hlt]
        exact List.sublist_flatten_of_mem (List.getElem_mem hlt)
      simp only [hashCode_eq hplaced.pow, Option.getD_some, Option.none_or]
      ext n
      rw [find?_eq_some (hhashes.2.1.sublist (hsub.map _)), find?_eq_some hhashes.2.1,
        hplaced.mem_flatten]
      constructor
      · rintro ⟨hn, rfl⟩
        exact ⟨hn, rfl⟩
      · rintro ⟨hn, rfl⟩
        exact ⟨hn, rfl⟩

/-- The two maps find the same nodes. -/
theorem Refines.lookupNode {t : HashmapGC κ υ} {m : OrderedMap UInt64 (κ × υ)} (h : Refines t m)
    (hash : UInt64) : (t.lookupNode hash).map (fun n => (n.key, n.val)) = m.lookup hash := by
  rw [h.wf.lookupNode, OrderedMap.lookup, h.entries, List.find?_map, Option.map_map]
  rfl

/-- The two maps find the same values. -/
theorem Refines.lookup {t : HashmapGC κ υ} {m : OrderedMap UInt64 (κ × υ)} (h : Refines t m)
    (hash : UInt64) : t.lookup hash = (m.lookup hash).map Prod.snd := by
  rw [← h.lookupNode, Option.map_map]
  rfl

theorem Refines.create : Refines (create : HashmapGC κ υ) OrderedMap.empty where
  wf := Wf.create
  entries := by simp [OrderedMap.empty, toArray, nodes, HashmapGC.create, Stamped.sortByStamp]

/-- An insertion in the order of the counter keeps the relation. -/
theorem Refines.insert {t t' : HashmapGC κ υ} {m : OrderedMap UInt64 (κ × υ)} (h : Refines t m)
    {hash : UInt64} {key : κ} {val : υ} (hins : t.insert hash key val 0 = some t') :
    Refines t' (specInsert m hash key val) ∧ t'.hashmapCount ≤ t.hashmapCount + 1 := by
  rw [HashmapGC.insert, if_pos rfl] at hins
  have hspec := insertOrdered_spec h.wf.succ_order.shaped hins
  refine ⟨?_, hspec.count⟩
  have hnodes : nodes { t with order := t.order + 1 } = t.nodes := rfl
  have horder : t'.order = t.order + 1 := hspec.order
  rcases hspec.nodes with ⟨hpresent, hp⟩ | ⟨habsent, hp⟩
  · -- the hash is present: the nodes are those of before, one of them with the new value
    rw [hnodes] at hpresent hp
    -- The order of the nodes is the same, so the entries are too.
    have hmap : t'.toArray = t.toArray.map (setVal hash val) := by
      rw [toArray, toArray, ← Stamped.sortByStamp_map NodeGC.order _ (setVal_order hash val)
        h.wf.orders]
      refine Stamped.sortByStamp_congr NodeGC.order ?_ hp
      simpa [List.map_map, Function.comp_def] using h.wf.orders
    refine ⟨⟨?_, ?_, ?_, ?_, hspec.inline, hspec.size, hspec.placed, hspec.load⟩, ?_⟩
    · refine (hp.map NodeGC.hash).nodup_iff.mpr ?_
      simpa [List.map_map, Function.comp_def] using h.wf.hashes
    · refine (hp.map NodeGC.order).nodup_iff.mpr ?_
      simpa [List.map_map, Function.comp_def] using h.wf.orders
    · intro n hn
      obtain ⟨m, hm, rfl⟩ := List.mem_map.mp (hp.mem_iff.mp hn)
      rw [setVal_order, horder]
      exact Nat.lt_succ_of_lt (h.wf.fresh m hm)
    · rw [horder]
      exact Nat.succ_pos _
    · have hmem : hash ∈ m.keys := h.mem_keys.mpr hpresent
      rw [specInsert, OrderedMap.entries_insert_of_mem hmem, hmap, h.entries, List.map_map,
        List.map_map]
      refine List.map_congr_left fun n hn => ?_
      by_cases hnh : n.hash = hash
      · have hlookup : m.lookup hash = some (n.key, n.val) := by
          rw [← h.lookupNode, h.wf.lookupNode,
            (find?_eq_some h.wf.toArray_hashes).mpr ⟨hn, hnh⟩]
          rfl
        simp [entry, setVal, hnh, hlookup]
      · simp [entry, setVal, hnh]
  · -- the hash is absent: there is one node more, with an order above all others
    rw [hnodes] at habsent hp
    -- The new node comes last in the order.
    have hcons : t'.toArray = t.toArray ++ [⟨hash, key, val, t.order⟩] := by
      rw [toArray, toArray, ← Stamped.sortByStamp_cons_of_lt NodeGC.order h.wf.orders h.wf.fresh]
      refine Stamped.sortByStamp_congr NodeGC.order ?_ hp
      refine List.nodup_cons.mpr ⟨?_, h.wf.orders⟩
      intro hmem
      obtain ⟨n, hn, hno⟩ := List.mem_map.mp hmem
      exact absurd (h.wf.fresh n hn) (by simp only at hno; omega)
    refine ⟨⟨?_, ?_, ?_, ?_, hspec.inline, hspec.size, hspec.placed, hspec.load⟩, ?_⟩
    · refine (hp.map NodeGC.hash).nodup_iff.mpr (List.nodup_cons.mpr ⟨?_, h.wf.hashes⟩)
      intro hmem
      obtain ⟨n, hn, hnh⟩ := List.mem_map.mp hmem
      exact habsent n hn hnh
    · refine (hp.map NodeGC.order).nodup_iff.mpr (List.nodup_cons.mpr ⟨?_, h.wf.orders⟩)
      intro hmem
      obtain ⟨n, hn, hno⟩ := List.mem_map.mp hmem
      exact absurd (h.wf.fresh n hn) (by simp only at hno; omega)
    · intro n hn
      rw [horder]
      rcases List.mem_cons.mp (hp.mem_iff.mp hn) with rfl | hn
      · exact Nat.lt_succ_self _
      · exact Nat.lt_succ_of_lt (h.wf.fresh n hn)
    · rw [horder]
      exact Nat.succ_pos _
    · have hmem : hash ∉ m.keys := by
        rw [h.mem_keys]
        rintro ⟨n, hn, hnh⟩
        exact habsent n hn hnh
      have hlookup : m.lookup hash = none := by
        rw [← Option.not_isSome_iff_eq_none, OrderedMap.lookup_isSome]
        exact hmem
      rw [specInsert, OrderedMap.entries_insert_of_not_mem hmem, hcons, hlookup, h.entries,
        List.map_append]
      rfl

/-- The nodes that a removal leaves. -/
theorem Shaped.remove_nodes {t : HashmapGC κ υ} (ht : t.Shaped) (hash : UInt64) :
    (t.remove hash).2.nodes = t.nodes.filter fun n => n.hash ≠ hash := by
  have hchains := ht.chain_hashes
  rw [HashmapGC.remove]
  split
  case isTrue hany =>
    obtain ⟨m, hm, hmh⟩ := List.any_eq_true.mp hany
    rw [decide_eq_true_eq] at hmh
    have habsent := ht.absent_of_inline ⟨m, hm, hmh⟩
    have hkept : ((t.list.getD []).flatten.filter fun n => n.hash ≠ hash) =
        (t.list.getD []).flatten :=
      List.filter_eq_self.mpr fun n hn => by simpa using habsent n hn
    rw [nodes, nodes, List.filter_append, eraseP_eq_filter ht.inline_hashes, hkept]
  -- No inline node has the hash, so all of them stay.
  case isFalse hnone =>
    have hkept : (t.inlineValues.filter fun n => n.hash ≠ hash) = t.inlineValues := by
      rw [List.filter_eq_self]
      intro n hn
      by_contra hnh
      exact hnone (List.any_eq_true.mpr ⟨n, hn, by simpa using hnh⟩)
    cases hlist : t.list with
    | none => simpa [nodes, hlist] using hkept.symm
    | some bs =>
      have hplaced := ht.placed bs hlist
      rw [hlist, Option.getD_some] at hchains
      -- Taking the hash out of its chain is taking it out of all chains.
      have hset := set_eq_map bs (hash.toNat % t.size)
        (List.filter fun n => decide (n.hash ≠ hash)) fun i hi =>
          List.filter_eq_self.mpr fun n hn => by simpa using hplaced.absent hi n hn
      have hfilter : (bs.map (List.filter fun n => decide (n.hash ≠ hash))).flatten =
          bs.flatten.filter fun n => n.hash ≠ hash := List.filter_flatten.symm
      have hlt : hash.toNat % t.size < bs.length := by
        rw [hplaced.length]
        exact Nat.mod_lt _ hplaced.size_pos
      have hbucket : ((bs.getD (hash.toNat % t.size) []).map NodeGC.hash).Nodup := by
        rw [List.getD_eq_getElem _ _ hlt]
        exact hchains.sublist
          (List.Sublist.map _ (List.sublist_flatten_of_mem (List.getElem_mem hlt)))
      simp only [hashCode_eq hplaced.pow]
      split
      case isTrue hany =>
        rw [eraseP_eq_filter hbucket, hset, nodes_eq hlist, List.filter_append, hkept, ← hfilter]
        rfl
      -- The chain does not have it, and so no chain does.
      case isFalse hnone' =>
        rw [nodes_eq hlist, List.filter_append, hkept]
        congr 1
        symm
        rw [List.filter_eq_self]
        intro n hn
        by_contra hnh
        rw [decide_eq_true_eq, not_not] at hnh
        rw [hplaced.mem_flatten, hnh] at hn
        exact hnone' (List.any_eq_true.mpr ⟨n, hn, by simpa using hnh⟩)

/-- A removal leaves everything but the nodes alone. -/
theorem remove_frame (t : HashmapGC κ υ) (hash : UInt64) :
    (t.remove hash).2.order = t.order ∧ (t.remove hash).2.size = t.size ∧
      (t.remove hash).2.hashmapCount = t.hashmapCount ∧
      (t.remove hash).2.inlineValues.length ≤ t.inlineValues.length ∧
      ((t.remove hash).2.list = none ↔ t.list = none) := by
  rw [HashmapGC.remove]
  split
  · exact ⟨rfl, rfl, rfl, List.length_eraseP_le, Iff.rfl⟩
  · cases hlist : t.list with
    | none => exact ⟨rfl, rfl, rfl, le_refl _, by simp [hlist]⟩
    | some bs =>
      simp only
      split
      · exact ⟨rfl, rfl, rfl, le_refl _, by simp⟩
      · exact ⟨rfl, rfl, rfl, le_refl _, by simp [hlist]⟩

/-- A removal keeps every node in the bucket of its hash. -/
theorem Shaped.remove_placed {t : HashmapGC κ υ} (ht : t.Shaped) (hash : UInt64) :
    ∀ bs, (t.remove hash).2.list = some bs → Placed t.size bs := by
  intro bs' hbs'
  rw [HashmapGC.remove] at hbs'
  split at hbs'
  · exact ht.placed bs' hbs'
  · cases hlist : t.list with
    | none =>
      rw [hlist] at hbs'
      simp only at hbs'
      exact ht.placed bs' hbs'
    | some bs =>
      have hplaced := ht.placed bs hlist
      simp only [hlist] at hbs'
      split at hbs'
      · -- A chain that loses a node still has nodes of its own place only.
        have hset := set_eq_map bs (t.hashCode hash)
          (List.eraseP fun n => decide (n.hash = hash)) fun i hi =>
            List.eraseP_of_forall_not fun n hn => by
              rw [hashCode_eq hplaced.pow] at hi
              simpa using hplaced.absent hi n hn
        rw [Option.some.injEq, hset] at hbs'
        subst hbs'
        exact hplaced.map _ fun b n hn => ⟨n, List.mem_of_mem_eraseP hn, rfl⟩
      · exact ht.placed bs' hbs'

/-- The answer of a removal tells whether there was a node to remove. -/
theorem remove_answer (t : HashmapGC κ υ) (hash : UInt64) :
    (t.remove hash).1 = (t.lookupNode hash).isSome := by
  rw [HashmapGC.remove, HashmapGC.lookupNode, ← List.isSome_find?]
  cases t.inlineValues.find? fun n => n.hash = hash with
  | some n => rfl
  | none =>
    cases t.list with
    | none => rfl
    | some bs =>
      simp only [← List.isSome_find?]
      cases (bs.getD (t.hashCode hash) []).find? fun n => n.hash = hash <;> rfl

theorem Refines.remove {t : HashmapGC κ υ} {m : OrderedMap UInt64 (κ × υ)} (h : Refines t m)
    (hash : UInt64) :
    Refines (t.remove hash).2 (m.erase hash) ∧ (t.remove hash).1 = (m.lookup hash).isSome := by
  have hnodes := h.wf.shaped.remove_nodes hash
  obtain ⟨horder, hsize, hcount, hlength, hnone⟩ := t.remove_frame hash
  -- The nodes that are left are some of those that were there.
  have hsub : (t.remove hash).2.nodes.Sublist t.nodes := by
    rw [hnodes]
    exact List.filter_sublist
  refine ⟨⟨⟨?_, ?_, ?_, ?_, ?_, ?_, ?_, ?_⟩, ?_⟩, ?_⟩
  · exact h.wf.hashes.sublist (hsub.map _)
  · exact h.wf.orders.sublist (hsub.map _)
  · intro n hn
    rw [horder]
    exact h.wf.fresh n (hsub.subset hn)
  · rw [horder]
    exact h.wf.order_pos
  · exact hlength.trans h.wf.inline
  · rw [hnone, hsize]
    exact h.wf.size
  · rw [hsize]
    exact h.wf.shaped.remove_placed hash
  · rw [hcount, hsize]
    exact h.wf.load
  · rw [toArray, hnodes, Stamped.sortByStamp_filter NodeGC.order _ h.wf.orders,
      OrderedMap.entries_erase, h.entries, List.filter_map]
    rfl
  · rw [remove_answer, ← h.lookupNode, Option.isSome_map]

/-- Emptied buckets hold nothing. -/
theorem clear_nodes (t : HashmapGC κ υ) : t.clear.nodes = [] := by
  cases hlist : t.list <;> simp [nodes, HashmapGC.clear, hlist]

theorem Refines.clear {t : HashmapGC κ υ} {m : OrderedMap UInt64 (κ × υ)} (h : Refines t m) :
    Refines t.clear OrderedMap.empty := by
  refine ⟨⟨?_, ?_, ?_, ?_, ?_, ?_, ?_, ?_⟩, ?_⟩
  · simp [clear_nodes]
  · simp [clear_nodes]
  · simp [clear_nodes]
  · simp [HashmapGC.clear]
  · simp [HashmapGC.clear]
  · simpa [HashmapGC.clear] using h.wf.size
  · intro bs hbs
    obtain ⟨bs', hbs', rfl⟩ := Option.map_eq_some_iff.mp hbs
    have hplaced := h.wf.placed bs' hbs'
    obtain ⟨k, hk⟩ := hplaced.pow
    have hsize : t.clear.size = 2^k := hk
    rw [hplaced.length, hk, hsize]
    exact placed_replicate k
  · simp [HashmapGC.clear]
  · simp [toArray, clear_nodes, OrderedMap.empty, Stamped.sortByStamp]

/-! ## The map as a partial function -/

/-- Every well-formed hash map refines an ordered map: the one of its sorted array. -/
theorem Wf.refines {t : HashmapGC κ υ} (ht : t.Wf) : ∃ m, Refines t m := by
  have hnodup : ((t.toArray.map entry).map Prod.fst).Nodup := by
    rw [List.map_map]
    exact ht.toArray_hashes
  exact ⟨⟨t.toArray.map entry, hnodup⟩, ht, rfl⟩

/-- After an insertion the hash has the new value, and the other hashes have theirs. -/
theorem Wf.lookup_insert {t t' : HashmapGC κ υ} (ht : t.Wf) {hash : UInt64} {key : κ} {val : υ}
    (hins : t.insert hash key val 0 = some t') :
    t'.Wf ∧ t'.lookup = Function.update t.lookup hash (some val) := by
  obtain ⟨m, hm⟩ := ht.refines
  have hm' := (hm.insert hins).1
  refine ⟨hm'.wf, funext fun hash' => ?_⟩
  rw [hm'.lookup, specInsert]
  by_cases heq : hash' = hash
  · rw [heq, OrderedMap.lookup_insert_self, Function.update_self]
    rfl
  · rw [OrderedMap.lookup_insert_of_ne m heq, Function.update_of_ne heq, hm.lookup]

/-- After a removal the hash has no value, and the other hashes have theirs. -/
theorem Wf.lookup_remove {t : HashmapGC κ υ} (ht : t.Wf) (hash : UInt64) :
    (t.remove hash).2.Wf ∧ (t.remove hash).2.lookup = Function.update t.lookup hash none := by
  obtain ⟨m, hm⟩ := ht.refines
  have hm' := (hm.remove hash).1
  refine ⟨hm'.wf, funext fun hash' => ?_⟩
  rw [hm'.lookup]
  by_cases heq : hash' = hash
  · rw [heq, OrderedMap.lookup_erase_self, Function.update_self]
    rfl
  · rw [OrderedMap.lookup_erase_of_ne m heq, Function.update_of_ne heq, hm.lookup]

/-- A removal that finds nothing leaves the map as it was. -/
theorem remove_absent {t : HashmapGC κ υ} {hash : UInt64} (h : (t.remove hash).1 = false) :
    (t.remove hash).2 = t := by
  unfold HashmapGC.remove at h ⊢
  by_cases hany : (t.inlineValues.any fun n => n.hash = hash) = true
  · rw [if_pos hany] at h
    cases h
  · rw [if_neg hany] at h ⊢
    cases hlist : t.list with
    | none => rfl
    | some bs =>
      simp only [hlist] at h ⊢
      split at h
      case isTrue => cases h
      case isFalse hnone => rw [if_neg hnone]

@[simp]
theorem lookup_create : (create : HashmapGC κ υ).lookup = fun _ => none := rfl

/-- A removal finds the hashes that have a value. -/
theorem remove_fst (t : HashmapGC κ υ) (hash : UInt64) :
    (t.remove hash).1 = (t.lookup hash).isSome := by
  rw [remove_answer, HashmapGC.lookup, Option.isSome_map]

/-! ## Histories -/

/-- An operation on a hash map. -/
inductive Op (κ υ : Type*) where
  | insert (hash : UInt64) (key : κ) (val : υ)
  | lookup (hash : UInt64)
  | lookupNode (hash : UInt64)
  | remove (hash : UInt64)
  | clear
  | toArray

/-- The answer of an operation. -/
inductive Answer (κ υ : Type*) where
  | done
  | value (val : Option υ)
  | node (node : Option (κ × υ))
  | removed (result : Bool)
  | array (entries : List (UInt64 × κ × υ))
  deriving DecidableEq

/-- One operation on the hash map, insertions with the order 0. -/
def step (t : HashmapGC κ υ) : Op κ υ → Option (Answer κ υ × HashmapGC κ υ)
  | .insert hash key val => (t.insert hash key val 0).map fun t => (.done, t)
  | .lookup hash => some (.value (t.lookup hash), t)
  | .lookupNode hash => some (.node ((t.lookupNode hash).map fun n => (n.key, n.val)), t)
  | .remove hash => some (.removed (t.remove hash).1, (t.remove hash).2)
  | .clear => some (.done, t.clear)
  | .toArray => some (.array (t.toArray.map entry), t)

/-- The answers of a history, up to a resize that fails. -/
def run (t : HashmapGC κ υ) : List (Op κ υ) → List (Answer κ υ)
  | [] => []
  | op :: ops =>
    match t.step op with
    | none => []
    | some (answer, t) => answer :: run t ops

/-- One operation on the ordered map. -/
def specStep (m : OrderedMap UInt64 (κ × υ)) : Op κ υ → Answer κ υ × OrderedMap UInt64 (κ × υ)
  | .insert hash key val => (.done, specInsert m hash key val)
  | .lookup hash => (.value ((m.lookup hash).map Prod.snd), m)
  | .lookupNode hash => (.node (m.lookup hash), m)
  | .remove hash => (.removed (m.lookup hash).isSome, m.erase hash)
  | .clear => (.done, OrderedMap.empty)
  | .toArray => (.array m.entries, m)

/-- The answers of a history of the ordered map. -/
def specRun (m : OrderedMap UInt64 (κ × υ)) : List (Op κ υ) → List (Answer κ υ)
  | [] => []
  | op :: ops => (specStep m op).1 :: specRun (specStep m op).2 ops

/-- Whether an operation is an insertion. -/
def Op.isInsert : Op κ υ → Bool
  | .insert .. => true
  | _ => false

/-- The number of insertions the map has room for at any rate: three quarters of the `2^30` buckets
that an `int` can count. -/
def capacity : ℕ := 3 * 2^28

/-- An insertion fails only when a full map would need more buckets than an `int` counts. -/
theorem insert_isSome {t : HashmapGC κ υ} (hload : t.hashmapCount < capacity) (hash : UInt64)
    (key : κ) (val : υ) : (t.insert hash key val 0).isSome := by
  rw [HashmapGC.insert, if_pos rfl, insertOrdered]
  split
  · rfl
  · split
    · rfl
    · split
      case isTrue hcrowded =>
        have hfits : ¬intMax < (if t.size ≠ 0 then t.size * 2 else 8) := by
          unfold capacity at hload
          simp only at hcrowded
          unfold intMax
          split <;> omega
        rw [Option.isSome_map, resize, if_neg hfits]
        split <;> rfl
      case isFalse hroomy => rfl

/-- One operation that succeeds answers as the ordered map does and keeps the relation. -/
theorem Refines.step {t t' : HashmapGC κ υ} {m : OrderedMap UInt64 (κ × υ)} (h : Refines t m)
    {op : Op κ υ} {answer : Answer κ υ} (hstep : t.step op = some (answer, t')) :
    answer = (specStep m op).1 ∧ Refines t' (specStep m op).2 ∧
      t'.hashmapCount ≤ t.hashmapCount + op.isInsert.toNat := by
  cases op with
  | insert hash key val =>
    obtain ⟨t₁, hins, heq⟩ := Option.map_eq_some_iff.mp hstep
    simp only [Prod.mk.injEq] at heq
    obtain ⟨rfl, rfl⟩ := heq
    obtain ⟨href, hcount⟩ := h.insert hins
    exact ⟨rfl, href, hcount⟩
  | lookup hash =>
    simp only [HashmapGC.step, Option.some.injEq, Prod.mk.injEq] at hstep
    obtain ⟨rfl, rfl⟩ := hstep
    exact ⟨by rw [h.lookup]; rfl, h, Nat.le_add_right _ _⟩
  | lookupNode hash =>
    simp only [HashmapGC.step, Option.some.injEq, Prod.mk.injEq] at hstep
    obtain ⟨rfl, rfl⟩ := hstep
    exact ⟨by rw [h.lookupNode]; rfl, h, Nat.le_add_right _ _⟩
  | remove hash =>
    simp only [HashmapGC.step, Option.some.injEq, Prod.mk.injEq] at hstep
    obtain ⟨rfl, rfl⟩ := hstep
    obtain ⟨href, hanswer⟩ := h.remove hash
    exact ⟨by rw [hanswer]; rfl, href, (t.remove_frame hash).2.2.1.le⟩
  | clear =>
    simp only [HashmapGC.step, Option.some.injEq, Prod.mk.injEq] at hstep
    obtain ⟨rfl, rfl⟩ := hstep
    exact ⟨rfl, h.clear, Nat.zero_le _⟩
  | toArray =>
    simp only [HashmapGC.step, Option.some.injEq, Prod.mk.injEq] at hstep
    obtain ⟨rfl, rfl⟩ := hstep
    exact ⟨by rw [← h.entries]; rfl, h, Nat.le_add_right _ _⟩

/-- An operation fails only as an insertion into a full map. -/
theorem step_isSome {t : HashmapGC κ υ} {op : Op κ υ}
    (hload : op.isInsert = true → t.hashmapCount < capacity) : (t.step op).isSome := by
  cases op with
  | insert hash key val =>
    rw [step, Option.isSome_map]
    exact insert_isSome (hload rfl) hash key val
  | lookup | lookupNode | remove | clear | toArray => rfl

/-- From related maps, a history's answers are those of the ordered map as far as they go. -/
theorem Refines.run_prefix {t : HashmapGC κ υ} {m : OrderedMap UInt64 (κ × υ)} (h : Refines t m)
    (ops : List (Op κ υ)) : t.run ops <+: specRun m ops := by
  induction ops generalizing t m with
  | nil => exact List.prefix_rfl
  | cons op ops ih =>
    rw [run, specRun]
    cases hstep : t.step op with
    | none => exact List.nil_prefix
    | some result =>
      obtain ⟨answer, t'⟩ := result
      obtain ⟨rfl, href, _⟩ := h.step hstep
      exact (List.prefix_cons_inj _).mpr (ih href)

/-- From related maps, a history within the capacity is answered to its end. -/
theorem Refines.run_eq {t : HashmapGC κ υ} {m : OrderedMap UInt64 (κ × υ)} (h : Refines t m)
    (ops : List (Op κ υ)) (hcap : t.hashmapCount + ops.countP Op.isInsert ≤ capacity) :
    t.run ops = specRun m ops := by
  induction ops generalizing t m with
  | nil => rfl
  | cons op ops ih =>
    have hsome : (t.step op).isSome := by
      refine step_isSome fun hop => ?_
      rw [List.countP_cons_of_pos hop] at hcap
      omega
    obtain ⟨⟨answer, t'⟩, hstep⟩ := Option.isSome_iff_exists.mp hsome
    obtain ⟨rfl, href, hcount⟩ := h.step hstep
    rw [run, specRun, hstep]
    refine congrArg _ (ih href ?_)
    rw [List.countP_cons] at hcap
    cases hop : op.isInsert <;> simp [hop] at hcap hcount <;> omega

/-- After any history the hash map answers as the insertion-ordered map does, up to a resize beyond
`INT_MAX` buckets, which does not happen within the capacity. -/
theorem run_refines_specRun (ops : List (Op κ υ)) :
    (create : HashmapGC κ υ).run ops <+: specRun OrderedMap.empty ops ∧
      (ops.countP Op.isInsert ≤ capacity →
        (create : HashmapGC κ υ).run ops = specRun OrderedMap.empty ops) := by
  refine ⟨Refines.create.run_prefix ops, fun hcap => Refines.create.run_eq ops ?_⟩
  simpa [create] using hcap

end Chloride.HashmapGC
