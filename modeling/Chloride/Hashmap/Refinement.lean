import Chloride.Containers.OrderedMap
import Chloride.Hashmap.HashmapGC

/-!
# The hash map is an insertion-ordered map

The invariant `Wf` of the hash map, what each function does to the nodes as a whole, wherever they
are kept, and from these the refinement: after any sequence of operations the map's answers are those
of an `OrderedMap` from hashes to keys and values. Updates and removals act on the nodes as a map and
a filter, an insertion adds one node with the highest order, and a resize permutes the nodes; the
sorted array follows by the laws of `Stamped.sortByStamp`.
-/

namespace Chloride.HashmapGC

variable {κ υ : Type*}

/-! ## Chains -/

/-- The effect of an update on one node. -/
def setVal (hash : UInt64) (val : υ) (n : NodeGC κ υ) : NodeGC κ υ :=
  if n.hash = hash then { n with val := val } else n

@[simp]
theorem setVal_hash (hash : UInt64) (val : υ) (n : NodeGC κ υ) :
    (setVal hash val n).hash = n.hash := by
  unfold setVal
  split <;> rfl

@[simp]
theorem setVal_order (hash : UInt64) (val : υ) (n : NodeGC κ υ) :
    (setVal hash val n).order = n.order := by
  unfold setVal
  split <;> rfl

theorem setVal_val {hash : UInt64} {n : NodeGC κ υ} (h : n.hash = hash) {val : υ} :
    (setVal hash val n).val = val := by
  rw [setVal, if_pos h]

theorem setVal_of_ne {hash : UInt64} {n : NodeGC κ υ} (h : n.hash ≠ hash) {val : υ} :
    setVal hash val n = n := if_neg h

/-- An update leaves a chain without the hash alone. -/
theorem map_setVal_of_absent {hash : UInt64} {ns : List (NodeGC κ υ)}
    (h : ∀ n ∈ ns, n.hash ≠ hash) (val : υ) : ns.map (setVal hash val) = ns := by
  conv_rhs => rw [← List.map_id ns]
  apply List.map_congr_left
  intro n hn
  simp [setVal, h n hn]

/-- The update fails exactly on the chains without the hash. -/
theorem updateVal_eq_none {hash : UInt64} {val : υ} {ns : List (NodeGC κ υ)} :
    updateVal hash val ns = none ↔ ∀ n ∈ ns, n.hash ≠ hash := by
  induction ns with
  | nil => simp [updateVal]
  | cons n ns ih =>
    by_cases h : n.hash = hash
    · simp [updateVal, h]
    · simp [updateVal, h, ih]

/-- Where hashes are distinct, updating the first node with the hash updates every such node. -/
theorem updateVal_eq_some {hash : UInt64} {val : υ} {ns ns' : List (NodeGC κ υ)}
    (hnodup : (ns.map NodeGC.hash).Nodup) (h : updateVal hash val ns = some ns') :
    ns' = ns.map (setVal hash val) ∧ ∃ n ∈ ns, n.hash = hash := by
  induction ns generalizing ns' with
  | nil => simp [updateVal] at h
  | cons n ns ih =>
    obtain ⟨hn, hns⟩ := List.nodup_cons.mp hnodup
    by_cases heq : n.hash = hash
    · have habsent : ∀ m ∈ ns, m.hash ≠ hash := by
        intro m hm hmh
        exact hn (by rw [heq, ← hmh]; exact List.mem_map_of_mem hm)
      rw [updateVal, if_pos heq, Option.some.injEq] at h
      subst h
      refine ⟨?_, n, List.mem_cons_self, heq⟩
      rw [List.map_cons, map_setVal_of_absent habsent]
      simp [setVal, heq]
    · rw [updateVal, if_neg heq, Option.map_eq_some_iff] at h
      obtain ⟨ns'', hns'', rfl⟩ := h
      obtain ⟨rfl, m, hm, hmh⟩ := ih hns hns''
      refine ⟨?_, m, List.mem_cons_of_mem _ hm, hmh⟩
      simp [setVal, heq]

/-- Where hashes are distinct, removing the first node with the hash removes every such node. -/
theorem eraseP_eq_filter {hash : UInt64} {ns : List (NodeGC κ υ)}
    (hnodup : (ns.map NodeGC.hash).Nodup) :
    (ns.eraseP fun n => n.hash = hash) = ns.filter fun n => n.hash ≠ hash := by
  induction ns with
  | nil => rfl
  | cons n ns ih =>
    obtain ⟨hn, hns⟩ := List.nodup_cons.mp hnodup
    by_cases heq : n.hash = hash
    · have habsent : ∀ m ∈ ns, m.hash ≠ hash := by
        intro m hm hmh
        exact hn (by rw [heq, ← hmh]; exact List.mem_map_of_mem hm)
      rw [List.eraseP_cons_of_pos (by simpa using heq), List.filter_cons_of_neg (by simpa using heq)]
      exact (List.filter_eq_self.mpr fun m hm => by simpa using habsent m hm).symm
    · rw [List.eraseP_cons_of_neg (by simpa using heq), List.filter_cons_of_pos (by simpa using heq),
        ih hns]

/-- Where hashes are distinct, the search finds the one node with the hash. -/
theorem find?_eq_some {hash : UInt64} {ns : List (NodeGC κ υ)} {n : NodeGC κ υ}
    (hnodup : (ns.map NodeGC.hash).Nodup) :
    (ns.find? fun n => n.hash = hash) = some n ↔ n ∈ ns ∧ n.hash = hash :=
  Stamped.find?_eq_some hnodup

/-- Searching does not depend on the arrangement of the nodes. -/
theorem find?_perm {hash : UInt64} {ns ns' : List (NodeGC κ υ)}
    (hnodup : (ns.map NodeGC.hash).Nodup) (hp : ns.Perm ns') :
    (ns.find? fun n => n.hash = hash) = ns'.find? fun n => n.hash = hash :=
  Stamped.find?_perm hnodup hp hash

/-- The two halves of a chain hold its nodes, each node in the half its bit tells. -/
theorem splitBucket_eq (oldSize : ℕ) (ns : List (NodeGC κ υ)) :
    splitBucket oldSize ns = (ns.filter fun n => n.hash.toNat &&& oldSize = 0,
      ns.filter fun n => ¬n.hash.toNat &&& oldSize = 0) := by
  induction ns with
  | nil => rfl
  | cons n ns ih =>
    by_cases h : n.hash.toNat &&& oldSize = 0
    · simp [splitBucket, h, ih]
    · simp [splitBucket, h, ih]

/-! ## Buckets -/

/-- Every node is in the bucket of its hash, and the number of buckets is a power of two. -/
structure Placed (size : ℕ) (bs : List (List (NodeGC κ υ))) : Prop where
  pow : ∃ k, size = 2^k
  length : bs.length = size
  mem : ∀ i, ∀ n ∈ bs.getD i [], n.hash.toNat % size = i

theorem Placed.size_pos {size : ℕ} {bs : List (List (NodeGC κ υ))} (h : Placed size bs) :
    0 < size := by
  obtain ⟨k, rfl⟩ := h.pow
  exact Nat.two_pow_pos k

/-- The mask of the source takes the remainder by the number of buckets. -/
theorem hashCode_eq {t : HashmapGC κ υ} (hpow : ∃ k, t.size = 2^k) (hash : UInt64) :
    t.hashCode hash = hash.toNat % t.size := by
  obtain ⟨k, hk⟩ := hpow
  have hne : t.size ≠ 0 := by rw [hk]; exact (Nat.two_pow_pos k).ne'
  rw [hashCode, if_pos hne, hk, Nat.and_two_pow_sub_one_eq_mod]

/-- A change of one bucket is a change of all, when the others do not notice it. -/
theorem set_eq_map (bs : List (List (NodeGC κ υ))) (pos : ℕ)
    (f : List (NodeGC κ υ) → List (NodeGC κ υ)) (hf : ∀ i ≠ pos, f (bs.getD i []) = bs.getD i []) :
    bs.set pos (f (bs.getD pos [])) = bs.map f := by
  apply List.ext_getElem
  · simp
  · intro i h _
    have hi : i < bs.length := by simpa using h
    rw [List.getElem_set, List.getElem_map]
    by_cases hpos : pos = i
    · subst hpos
      rw [if_pos rfl, List.getD_eq_getElem _ _ hi]
    · have h' := hf i (Ne.symm hpos)
      rw [List.getD_eq_getElem _ _ hi] at h'
      rw [if_neg hpos, h']

/-- A node added to one bucket is added to the nodes. -/
theorem flatten_set_cons {bs : List (List (NodeGC κ υ))} {pos : ℕ} (hpos : pos < bs.length)
    (n : NodeGC κ υ) : (bs.set pos (n :: bs.getD pos [])).flatten.Perm (n :: bs.flatten) := by
  induction bs generalizing pos with
  | nil => simp at hpos
  | cons b bs ih =>
    cases pos with
    | zero => simp
    | succ pos =>
      have h := ih (by simpa using hpos)
      simp only [List.set_cons_succ, List.getD_cons_succ, List.flatten_cons]
      exact (h.append_left b).trans List.perm_middle

namespace Placed

variable {size : ℕ} {bs : List (List (NodeGC κ υ))} (h : Placed size bs)
include h

/-- A hash occurs in no bucket but its own. -/
theorem absent {i : ℕ} {hash : UInt64} (hi : i ≠ hash.toNat % size) :
    ∀ n ∈ bs.getD i [], n.hash ≠ hash := by
  rintro n hn rfl
  exact hi (h.mem i n hn).symm

theorem mem_flatten {n : NodeGC κ υ} :
    n ∈ bs.flatten ↔ n ∈ bs.getD (n.hash.toNat % size) [] := by
  constructor
  · intro hn
    obtain ⟨b, hb, hnb⟩ := List.mem_flatten.mp hn
    obtain ⟨i, hi, rfl⟩ := List.mem_iff_getElem.mp hb
    rw [← List.getD_eq_getElem _ [] hi] at hnb
    rwa [h.mem i n hnb]
  · intro hn
    have hi : n.hash.toNat % size < bs.length := by
      rw [h.length]
      exact Nat.mod_lt _ h.size_pos
    rw [List.getD_eq_getElem _ _ hi] at hn
    exact List.mem_flatten_of_mem (List.getElem_mem hi) hn

/-- A change that keeps the hashes keeps every node in its bucket. -/
theorem map (f : List (NodeGC κ υ) → List (NodeGC κ υ))
    (hf : ∀ b, ∀ n ∈ f b, ∃ m ∈ b, m.hash = n.hash) : Placed size (bs.map f) where
  pow := h.pow
  length := by simp [h.length]
  mem i n hn := by
    by_cases hi : i < bs.length
    · rw [List.getD_eq_getElem _ _ (by simpa using hi), List.getElem_map] at hn
      obtain ⟨m, hm, hmn⟩ := hf _ _ hn
      rw [← hmn]
      exact h.mem i m (by rwa [List.getD_eq_getElem _ _ hi])
    · rw [List.getD_eq_default _ _ (by simpa using hi)] at hn
      simp at hn

/-- A node added to the bucket of its hash is placed. -/
theorem set_cons (n : NodeGC κ υ) :
    Placed size (bs.set (n.hash.toNat % size) (n :: bs.getD (n.hash.toNat % size) [])) where
  pow := h.pow
  length := by simp [h.length]
  mem i m hm := by
    by_cases hi : i < bs.length
    · rw [List.getD_eq_getElem _ _ (by simpa using hi), List.getElem_set] at hm
      by_cases hpos : n.hash.toNat % size = i
      · rw [if_pos hpos, hpos, List.mem_cons] at hm
        rcases hm with rfl | hm
        · exact hpos
        · exact h.mem i m hm
      · rw [if_neg hpos, ← List.getD_eq_getElem _ [] hi] at hm
        exact h.mem i m hm
    · rw [List.getD_eq_default _ _ (by simpa using hi)] at hm
      simp at hm

/-- With twice the buckets, the next bit of its hash tells the bucket of a node. -/
theorem mod_double {i : ℕ} {n : NodeGC κ υ} (hn : n ∈ bs.getD i []) :
    n.hash.toNat % (size * 2) = if n.hash.toNat &&& size = 0 then i else i + size := by
  have hi := h.mem i n hn
  obtain ⟨k, hk⟩ := h.pow
  rw [hk] at hi ⊢
  rw [← Nat.pow_succ, Nat.mod_pow_succ, hi, Nat.and_two_pow, Nat.testBit_eq_decide_div_mod_eq]
  rcases Nat.mod_two_eq_zero_or_one (n.hash.toNat / 2^k) with h0 | h1
  · simp [h0]
  · simp [h1]

/-- Doubling the buckets keeps every node in the bucket of its hash. -/
theorem split : Placed (size * 2)
    (bs.map (fun b => (splitBucket size b).1) ++ bs.map fun b => (splitBucket size b).2) where
  pow := by
    obtain ⟨k, rfl⟩ := h.pow
    exact ⟨k + 1, by rw [Nat.pow_succ]⟩
  length := by simp [h.length, Nat.mul_two]
  mem i n hn := by
    rw [List.getD_eq_getElem?_getD] at hn
    -- The lower half has the nodes whose place does not change, the upper half the others.
    by_cases hi : i < bs.length
    · rw [List.getElem?_append_left (by simpa using hi), List.getElem?_map,
        List.getElem?_eq_getElem hi] at hn
      simp only [Option.map_some, Option.getD_some, splitBucket_eq, List.mem_filter,
        decide_eq_true_eq] at hn
      rw [h.mod_double (by rw [List.getD_eq_getElem _ _ hi]; exact hn.1), if_pos hn.2]
    · rw [List.getElem?_append_right (by simpa using hi), List.getElem?_map,
        List.length_map] at hn
      by_cases hi' : i - bs.length < bs.length
      · rw [List.getElem?_eq_getElem hi'] at hn
        simp only [Option.map_some, Option.getD_some, splitBucket_eq, List.mem_filter,
          decide_eq_true_eq] at hn
        rw [h.mod_double (by rw [List.getD_eq_getElem _ _ hi']; exact hn.1), if_neg hn.2, ← h.length]
        omega
      · rw [List.getElem?_eq_none (by omega)] at hn
        simp at hn

end Placed

/-- Fresh buckets hold nothing. -/
theorem placed_replicate (k : ℕ) : Placed (2^k) (List.replicate (2^k) ([] : List (NodeGC κ υ))) where
  pow := ⟨k, rfl⟩
  length := by simp
  mem i n hn := by simp at hn

/-- Splitting the chains permutes the nodes. -/
theorem flatten_split (size : ℕ) (bs : List (List (NodeGC κ υ))) :
    (bs.map (fun b => (splitBucket size b).1) ++
      bs.map fun b => (splitBucket size b).2).flatten.Perm bs.flatten := by
  induction bs with
  | nil => simp
  | cons b bs ih =>
    have hb : ((splitBucket size b).1 ++ (splitBucket size b).2).Perm b := by
      rw [splitBucket_eq]
      simpa using List.filter_append_perm (fun n : NodeGC κ υ => n.hash.toNat &&& size = 0) b
    simp only [List.map_cons, List.cons_append, List.flatten_cons, List.flatten_append] at ih ⊢
    have hmid := List.perm_append_comm_assoc (bs.map fun b => (splitBucket size b).1).flatten
      (splitBucket size b).2 (bs.map fun b => (splitBucket size b).2).flatten
    have hassoc := List.append_assoc (splitBucket size b).1 (splitBucket size b).2
      ((bs.map fun b => (splitBucket size b).1).flatten ++
        (bs.map fun b => (splitBucket size b).2).flatten)
    exact (hmid.append_left _).trans (hassoc ▸ hb.append ih)

/-! ## The operations on the nodes -/

/-- What an insertion does to the nodes: a node with the hash takes the value, and a hash that no
node has gets a new node. -/
def Inserted (ns ns' : List (NodeGC κ υ)) (n : NodeGC κ υ) : Prop :=
  ((∃ m ∈ ns, m.hash = n.hash) ∧ ns'.Perm (ns.map (setVal n.hash n.val))) ∨
    ((∀ m ∈ ns, m.hash ≠ n.hash) ∧ ns'.Perm (n :: ns))

/-- What holds of a hash map that `createHashmap_GC` made and the other functions changed. -/
structure Wf (t : HashmapGC κ υ) : Prop where
  hashes : (t.nodes.map NodeGC.hash).Nodup
  orders : (t.nodes.map NodeGC.order).Nodup
  fresh : ∀ n ∈ t.nodes, n.order < t.order
  order_pos : 0 < t.order
  inline : t.inlineValues.length ≤ inlineHashmapArraySize
  size : t.list = none → t.size = 0
  placed : ∀ bs, t.list = some bs → Placed t.size bs
  load : 4 * t.hashmapCount ≤ 3 * t.size

/-- What of this does not depend on the orders, and so holds whatever orders are given to the nodes. -/
structure Shaped (t : HashmapGC κ υ) : Prop where
  hashes : (t.nodes.map NodeGC.hash).Nodup
  inline : t.inlineValues.length ≤ inlineHashmapArraySize
  size : t.list = none → t.size = 0
  placed : ∀ bs, t.list = some bs → Placed t.size bs
  load : 4 * t.hashmapCount ≤ 3 * t.size

theorem Wf.shaped {t : HashmapGC κ υ} (ht : t.Wf) : t.Shaped :=
  ⟨ht.hashes, ht.inline, ht.size, ht.placed, ht.load⟩

/-- No two inline nodes have the same hash. -/
theorem Shaped.inline_hashes {t : HashmapGC κ υ} (ht : t.Shaped) :
    (t.inlineValues.map NodeGC.hash).Nodup := by
  have hhashes := ht.hashes
  rw [nodes, List.map_append, List.nodup_append] at hhashes
  exact hhashes.1

/-- No two nodes of the chains have the same hash. -/
theorem Shaped.chain_hashes {t : HashmapGC κ υ} (ht : t.Shaped) :
    ((t.list.getD []).flatten.map NodeGC.hash).Nodup := by
  have hhashes := ht.hashes
  rw [nodes, List.map_append, List.nodup_append] at hhashes
  exact hhashes.2.1

/-- A hash that is inline is in no chain. -/
theorem Shaped.absent_of_inline {t : HashmapGC κ υ} (ht : t.Shaped) {hash : UInt64}
    (hinline : ∃ n ∈ t.inlineValues, n.hash = hash) :
    ∀ n ∈ (t.list.getD []).flatten, n.hash ≠ hash := by
  obtain ⟨m, hm, hmh⟩ := hinline
  have hhashes := ht.hashes
  rw [nodes, List.map_append, List.nodup_append] at hhashes
  intro n hn hnh
  exact hhashes.2.2 m.hash (List.mem_map_of_mem hm) n.hash (List.mem_map_of_mem hn)
    (hmh.trans hnh.symm)

theorem Wf.create : (create : HashmapGC κ υ).Wf where
  hashes := by simp [nodes, HashmapGC.create]
  orders := by simp [nodes, HashmapGC.create]
  fresh := by simp [nodes, HashmapGC.create]
  order_pos := by simp [HashmapGC.create]
  inline := by simp [HashmapGC.create]
  size _ := rfl
  placed := by simp [HashmapGC.create]
  load := by simp [HashmapGC.create]

/-- Taking a number from the counter keeps a map well formed. -/
theorem Wf.succ_order {t : HashmapGC κ υ} (ht : t.Wf) : Wf { t with order := t.order + 1 } :=
  { ht with
    fresh := fun n hn => Nat.lt_succ_of_lt (ht.fresh n hn)
    order_pos := Nat.succ_pos _ }

theorem nodes_eq {t : HashmapGC κ υ} {bs : List (List (NodeGC κ υ))} (h : t.list = some bs) :
    t.nodes = t.inlineValues ++ bs.flatten := by
  simp [nodes, h]

/-- What `insertBucket` does to a map with buckets whose inline values lack the hash. -/
structure BucketSpec (t t' : HashmapGC κ υ) (n : NodeGC κ υ) : Prop where
  nodes : Inserted t.nodes t'.nodes n
  inline : t'.inlineValues = t.inlineValues
  order : t'.order = t.order
  size : t'.size = t.size
  placed : ∃ bs, t'.list = some bs ∧ Placed t.size bs
  count : t'.hashmapCount ≤ t.hashmapCount + 1

theorem insertBucket_spec {t : HashmapGC κ υ} {bs : List (List (NodeGC κ υ))}
    (hbs : t.list = some bs) (hplaced : Placed t.size bs)
    (hnodup : (t.nodes.map NodeGC.hash).Nodup) {hash : UInt64}
    (habsent : ∀ n ∈ t.inlineValues, n.hash ≠ hash) (key : κ) (val : υ) (order : ℕ) :
    BucketSpec t (t.insertBucket hash key val order) ⟨hash, key, val, order⟩ := by
  have hpos : t.hashCode hash = hash.toNat % t.size := hashCode_eq hplaced.pow hash
  have hlt : hash.toNat % t.size < bs.length := by
    rw [hplaced.length]
    exact Nat.mod_lt _ hplaced.size_pos
  have hnodes := nodes_eq hbs
  have hbucket : ((bs.getD (hash.toNat % t.size) []).map NodeGC.hash).Nodup := by
    rw [hnodes, List.map_append, List.nodup_append] at hnodup
    rw [List.getD_eq_getElem _ _ hlt]
    refine hnodup.2.1.sublist (List.Sublist.map _ ?_)
    exact List.sublist_flatten_of_mem (List.getElem_mem hlt)
  simp only [insertBucket, hbs, Option.getD_some, hpos]
  cases hup : updateVal hash val (bs.getD (hash.toNat % t.size) []) with
  -- The chain has the hash, and its node gets the value.
  | some temp' =>
    obtain ⟨rfl, m, hm, hmh⟩ := updateVal_eq_some hbucket hup
    have hset := set_eq_map bs (hash.toNat % t.size) (List.map (setVal hash val))
      fun i hi => map_setVal_of_absent (hplaced.absent hi) val
    simp only [hset]
    refine ⟨Or.inl ⟨⟨m, ?_, hmh⟩, ?_⟩, rfl, rfl, rfl, ⟨_, rfl, ?_⟩, Nat.le_succ _⟩
    · rw [hnodes, List.mem_append]
      right
      rw [hplaced.mem_flatten, hmh]
      exact hm
    · rw [hnodes, List.map_append, map_setVal_of_absent habsent, List.map_flatten]
      exact List.Perm.refl _
    · refine hplaced.map _ fun b n hn => ?_
      obtain ⟨n', hn', rfl⟩ := List.mem_map.mp hn
      exact ⟨n', hn', (setVal_hash hash val n').symm⟩
  -- The chain has it not, and the node is put in front.
  | none =>
    refine ⟨Or.inr ⟨?_, ?_⟩, rfl, rfl, rfl, ⟨_, rfl, ?_⟩, le_refl _⟩
    · intro m hm hmh
      rw [hnodes, List.mem_append, hplaced.mem_flatten] at hm
      rcases hm with hm | hm
      · exact habsent m hm hmh
      · rw [hmh] at hm
        exact updateVal_eq_none.mp hup m hm hmh
    · rw [hnodes]
      exact ((flatten_set_cons hlt _).append_left _).trans List.perm_middle
    · exact hplaced.set_cons ⟨hash, key, val, order⟩

/-- What a resize does: the nodes stay, there are buckets, and more of them. -/
structure ResizeSpec (t t' : HashmapGC κ υ) : Prop where
  nodes : t'.nodes.Perm t.nodes
  inline : t'.inlineValues = t.inlineValues
  order : t'.order = t.order
  count : t'.hashmapCount = t.hashmapCount
  placed : ∃ bs, t'.list = some bs ∧ Placed t'.size bs
  size : t'.size = if t.size ≠ 0 then t.size * 2 else 8

theorem resize_spec {t t' : HashmapGC κ υ} (ht : t.Shaped) (h : t.resize = some t') :
    ResizeSpec t t' := by
  -- A map that was resized has a size that fits.
  have hfits : ¬intMax < (if t.size ≠ 0 then t.size * 2 else 8) := by
    intro hbig
    rw [resize, if_pos hbig] at h
    cases h
  simp only [resize, hfits, if_false] at h
  cases hlist : t.list with
  -- The first chains are empty ones.
  | none =>
    simp only [hlist, Option.some.injEq] at h
    subst h
    refine ⟨?_, rfl, rfl, rfl, ⟨_, rfl, ?_⟩, rfl⟩
    · simp [nodes, hlist]
    · simp only [ht.size hlist]
      exact placed_replicate 3
  -- Each chain is split in two.
  | some bs =>
    have hplaced := ht.placed bs hlist
    simp only [hlist, Option.some.injEq] at h
    subst h
    refine ⟨?_, rfl, rfl, rfl, ⟨_, rfl, ?_⟩, rfl⟩
    · rw [nodes_eq hlist]
      exact (flatten_split t.size bs).append_left _
    · simp only [ne_eq, hplaced.size_pos.ne', not_false_eq_true, if_true]
      exact hplaced.split

/-- A resize has room for one node more. -/
theorem ResizeSpec.load {t t' : HashmapGC κ υ} (h : ResizeSpec t t')
    (ht : 4 * t.hashmapCount ≤ 3 * t.size) : 4 * (t'.hashmapCount + 1) ≤ 3 * t'.size := by
  rw [h.count, h.size]
  split <;> omega

/-- What an insertion does to a map, its counter aside. -/
structure InsertSpec (t t' : HashmapGC κ υ) (n : NodeGC κ υ) : Prop where
  nodes : Inserted t.nodes t'.nodes n
  order : t'.order = t.order
  inline : t'.inlineValues.length ≤ inlineHashmapArraySize
  size : t'.list = none → t'.size = 0
  placed : ∀ bs, t'.list = some bs → Placed t'.size bs
  load : 4 * t'.hashmapCount ≤ 3 * t'.size
  count : t'.hashmapCount ≤ t.hashmapCount + 1

theorem BucketSpec.insertSpec {t t' : HashmapGC κ υ} {n : NodeGC κ υ} (h : BucketSpec t t' n)
    (hinline : t.inlineValues.length ≤ inlineHashmapArraySize)
    (hload : 4 * (t.hashmapCount + 1) ≤ 3 * t.size) : InsertSpec t t' n where
  nodes := h.nodes
  order := h.order
  inline := by rw [h.inline]; exact hinline
  size hnone := by
    obtain ⟨bs, hbs, _⟩ := h.placed
    rw [hnone] at hbs
    cases hbs
  placed bs' hbs' := by
    obtain ⟨bs, hbs, hplaced⟩ := h.placed
    rw [hbs', Option.some.injEq] at hbs
    rw [hbs, h.size]
    exact hplaced
  load := by
    have := h.count
    rw [h.size]
    omega
  count := h.count

/-- Permuting the nodes before an insertion permutes them after it. -/
theorem Inserted.of_perm {ns ms ns' : List (NodeGC κ υ)} {n : NodeGC κ υ} (hp : ms.Perm ns)
    (h : Inserted ms ns' n) : Inserted ns ns' n := by
  rcases h with ⟨⟨m, hm, hmn⟩, h⟩ | ⟨habsent, h⟩
  · exact Or.inl ⟨⟨m, hp.mem_iff.mp hm, hmn⟩, h.trans (hp.map _)⟩
  · exact Or.inr ⟨fun m hm => habsent m (hp.mem_iff.mpr hm), h.trans (hp.cons n)⟩

/-- What `insertOrdered` does, whichever of its branches it takes. -/
theorem insertOrdered_spec {t t' : HashmapGC κ υ} (ht : t.Shaped) {hash : UInt64} {key : κ} {val : υ}
    {order : ℕ} (h : t.insertOrdered hash key val order = some t') :
    InsertSpec t t' ⟨hash, key, val, order⟩ := by
  unfold insertOrdered at h
  cases hup : updateVal hash val t.inlineValues with
  -- The hash is inline, and its node gets the value.
  | some inlineValues =>
    obtain ⟨rfl, m, hm, hmh⟩ := updateVal_eq_some ht.inline_hashes hup
    simp only [hup, Option.some.injEq] at h
    subst h
    refine ⟨Or.inl ⟨⟨m, List.mem_append_left _ hm, hmh⟩, ?_⟩, rfl, by simpa using ht.inline, ht.size,
      ht.placed, ht.load, Nat.le_succ _⟩
    rw [nodes, nodes, List.map_append, map_setVal_of_absent (ht.absent_of_inline ⟨m, hm, hmh⟩)]
  | none =>
    have habsent := updateVal_eq_none.mp hup
    simp only [hup] at h
    split at h
    -- There are no chains yet and there is room.
    case isTrue hroom =>
      obtain ⟨hnone, hlt⟩ := hroom
      rw [Option.isNone_iff_eq_none] at hnone
      rw [Option.some.injEq] at h
      subst h
      refine ⟨Or.inr ⟨?_, ?_⟩, rfl, ?_, ht.size, ht.placed, ht.load, Nat.le_succ _⟩
      · simpa [nodes, hnone] using habsent
      · simp [nodes, hnone]
      · rw [List.length_append]
        exact hlt
    case isFalse hfull =>
      split at h
      -- The map is resized first, which keeps its nodes.
      case isTrue hcrowded =>
        obtain ⟨t₁, ht₁, rfl⟩ := Option.map_eq_some_iff.mp h
        have hresize := resize_spec ht ht₁
        obtain ⟨bs, hbs, hplaced⟩ := hresize.placed
        have hbucket := insertBucket_spec hbs hplaced
          ((hresize.nodes.map NodeGC.hash).nodup_iff.mpr ht.hashes)
          (by rwa [hresize.inline]) key val order
        have hspec := hbucket.insertSpec (by rw [hresize.inline]; exact ht.inline)
          (hresize.load ht.load)
        exact { hspec with
          nodes := hspec.nodes.of_perm hresize.nodes
          order := hspec.order.trans hresize.order
          count := by rw [← hresize.count]; exact hspec.count }
      case isFalse hroomy =>
        rw [Option.some.injEq] at h
        subst h
        cases hlist : t.list with
        | none =>
          have hsize := ht.size hlist
          omega
        | some bs =>
          exact (insertBucket_spec hlist (ht.placed bs hlist) ht.hashes habsent key val
            order).insertSpec ht.inline (by omega)

end Chloride.HashmapGC
