import Chloride.Hashmap.History

/-!
# Iterating over a dictionary

The iterator of `src/runtime/objects/dictionary/dictionary.c`: `__iter__` takes the sorted array of
pointers to the nodes that `hashmap_GC_to_array` makes, and each `__next__` reads the key and the
value of the node that its next pointer leads to. The nodes are those of the dictionary itself, which
the program may change in between.

So the model has the memory that a pointer can lead to: the inline places of the hash map, with what
they hold past the inline count, and the nodes of the chains, with those that were taken out of their
chain. A node of a chain is named by its order, which no other node has. The theorem says that an
iterator yields the dictionary as it was exactly as long as no step changes what one of its remaining
pointers leads to, and which steps these are.
-/

namespace Chloride

variable {κ υ : Type}

/-- A `struct node_GC *`: an inline place of the map, or a node of its own. -/
inductive NodePtr where
  | inline (i : ℕ)
  | node (order : ℕ)
  deriving DecidableEq

/-- A hash map with what its memory still holds: the content of the inline places from the inline
count on, and the nodes that were taken out of their chains. -/
structure HashmapMemory (κ υ : Type) where
  table : HashmapGC κ υ
  stale : List (NodeGC κ υ)
  freed : List (NodeGC κ υ)
  deriving DecidableEq

/-- `struct as_dictionary_iterator`; its size is the length of the array. -/
structure DictionaryIterator where
  current : ℕ
  array : List NodePtr
  deriving DecidableEq

namespace HashmapMemory

/-- The inline places. -/
def cells (m : HashmapMemory κ υ) : List (NodeGC κ υ) := m.table.inlineValues ++ m.stale

/-- The nodes of the chains. -/
def chained (m : HashmapMemory κ υ) : List (NodeGC κ υ) := (m.table.list.getD []).flatten

/-- The node that a pointer leads to. -/
def deref (m : HashmapMemory κ υ) : NodePtr → Option (NodeGC κ υ)
  | .inline i => m.cells[i]?
  | .node order => (m.chained ++ m.freed).find? fun n => n.order = order

/-- The key and the value that a pointer leads to. -/
def content (m : HashmapMemory κ υ) (p : NodePtr) : Option (κ × υ) :=
  (m.deref p).map fun n => (n.key, n.val)

/-- The nodes with the pointers to them, in the order `hashmap_GC_to_array` collects them. -/
def located (m : HashmapMemory κ υ) : List (NodePtr × NodeGC κ υ) :=
  (m.table.inlineValues.zipIdx.map fun e => (.inline e.2, e.1)) ++
    m.chained.map fun n => (.node n.order, n)

/-- `hashmap_GC_to_array`. -/
def toArray (m : HashmapMemory κ υ) : List NodePtr :=
  (Stamped.sortByStamp (NodeGC.order ∘ Prod.snd) m.located).map Prod.fst

/-- `ARGON_DICTIONARY_TYPE___iter__`. -/
def iter (m : HashmapMemory κ υ) : DictionaryIterator := ⟨0, m.toArray⟩

/-- `hashmap_insert_GC`: a new inline node takes the first of the places from the inline count on. -/
def insert (m : HashmapMemory κ υ) (hash : UInt64) (key : κ) (val : υ) :
    Option (HashmapMemory κ υ) := do
  let table ← m.table.insert hash key val 0
  let stale :=
    if m.table.inlineValues.length < table.inlineValues.length then m.stale.tail else m.stale
  return { m with table := table, stale := stale }

/-- `hashmap_remove_GC`: the inline nodes behind the removed one move down, and the place of the last
of them keeps what it holds; a node of a chain stays what it is. -/
def remove (m : HashmapMemory κ υ) (hash : UInt64) : HashmapMemory κ υ :=
  if m.table.inlineValues.any fun n => n.hash = hash then
    { m with
      table := (m.table.remove hash).2
      stale := m.table.inlineValues.getLast?.toList ++ m.stale }
  else
    { m with
      table := (m.table.remove hash).2
      freed := (m.chained.find? fun n => n.hash = hash).toList ++ m.freed }

end HashmapMemory

/-- What happens while an iterator is in use. -/
inductive IterationOp (κ υ : Type) where
  | next
  | setitem (hash : UInt64) (key : κ) (val : υ)
  | delitem (hash : UInt64)
  deriving DecidableEq

/-- What `__next__` gives: the tuple of a key and its value, or `StopIteration`. -/
inductive IterationResult (κ υ : Type) where
  | item (key : κ) (val : υ)
  | stopIteration
  deriving DecidableEq

/-- A dictionary with an iterator over it. -/
structure Iteration (κ υ : Type) where
  memory : HashmapMemory κ υ
  iterator : DictionaryIterator
  deriving DecidableEq

namespace Iteration

/-- `ARGON_DICTIONARY_ITERATOR_TYPE___next__`; `none` for a pointer that leads nowhere. -/
def next (s : Iteration κ υ) : Option (IterationResult κ υ × Iteration κ υ) :=
  match s.iterator.array[s.iterator.current]? with
  | none => some (.stopIteration, s)
  | some p =>
    (s.memory.deref p).map fun node =>
      (.item node.key node.val,
        { s with iterator := { s.iterator with current := s.iterator.current + 1 } })

/-- One operation, with the result of a `__next__`; `none` also where the hash map cannot grow. -/
def step (s : Iteration κ υ) :
    IterationOp κ υ → Option (Option (IterationResult κ υ) × Iteration κ υ)
  | .next => s.next.map fun (r, s) => (some r, s)
  | .setitem hash key val =>
    (s.memory.insert hash key val).map fun memory => (none, { s with memory := memory })
  | .delitem hash => some (none, { s with memory := s.memory.remove hash })

/-- The pointers that are left. -/
def remaining (s : Iteration κ υ) : List NodePtr := s.iterator.array.drop s.iterator.current

end Iteration

/-! ## What the operations do to the memory -/

namespace HashmapGC

/-- What an insertion does to the inline nodes: one of them takes the value, or there is one more, or
they stay as they are. -/
theorem insert_inlineValues {t t' : HashmapGC κ υ} (ht : t.Wf) {hash : UInt64} {key : κ} {val : υ}
    (h : t.insert hash key val 0 = some t') :
    ((∃ n ∈ t.inlineValues, n.hash = hash) ∧
        t'.inlineValues = t.inlineValues.map (setVal hash val) ∧ t'.list = t.list) ∨
      ((∀ n ∈ t.inlineValues, n.hash ≠ hash) ∧ (t.list = none ∧
          t.inlineValues.length < inlineHashmapArraySize) ∧
        t'.inlineValues = t.inlineValues ++ [⟨hash, key, val, t.order⟩] ∧ t'.list = none) ∨
      ((∀ n ∈ t.inlineValues, n.hash ≠ hash) ∧ ¬(t.list = none ∧
          t.inlineValues.length < inlineHashmapArraySize) ∧ t'.inlineValues = t.inlineValues) := by
  rw [insert, if_pos rfl, insertOrdered] at h
  dsimp only at h
  cases hup : updateVal hash val t.inlineValues with
  -- A node with the hash is inline: its value is replaced.
  | some inlineValues =>
    rw [hup] at h
    obtain ⟨rfl, hpresent⟩ := updateVal_eq_some ht.shaped.inline_hashes hup
    obtain rfl := Option.some.inj h
    exact Or.inl ⟨hpresent, rfl, rfl⟩
  | none =>
    rw [hup] at h
    dsimp only at h
    have habsent := updateVal_eq_none.mp hup
    simp only [Option.isNone_iff_eq_none] at h
    -- None is: the node goes to the free inline place, if there is one, and else to its chain.
    by_cases hroom : t.list = none ∧ t.inlineValues.length < inlineHashmapArraySize
    · rw [if_pos hroom] at h
      obtain rfl := Option.some.inj h
      exact Or.inr (Or.inl ⟨habsent, hroom, rfl, hroom.1⟩)
    · rw [if_neg hroom] at h
      refine Or.inr (Or.inr ⟨habsent, hroom, ?_⟩)
      -- Neither the buckets nor a larger array of them touch the inline nodes.
      have hbucket : ∀ u : HashmapGC κ υ,
          (u.insertBucket hash key val t.order).inlineValues = u.inlineValues := by
        intro u
        unfold insertBucket
        dsimp only
        split <;> rfl
      split at h
      · obtain ⟨u, hu, rfl⟩ := Option.map_eq_some_iff.mp h
        exact (hbucket u).trans (resize_spec ht.succ_order.shaped hu).inline
      · obtain rfl := Option.some.inj h
        exact hbucket _

/-- What an insertion does to the nodes of the chains. -/
theorem insert_chained {t t' : HashmapGC κ υ} (ht : t.Wf) {hash : UInt64} {key : κ} {val : υ}
    (h : t.insert hash key val 0 = some t') :
    t'.order = t.order + 1 ∧
      ((t'.list.getD []).flatten.Perm ((t.list.getD []).flatten.map (setVal hash val)) ∨
        (∀ n ∈ (t.list.getD []).flatten, n.hash ≠ hash) ∧ (t'.list.getD []).flatten.Perm
          (⟨hash, key, val, t.order⟩ :: (t.list.getD []).flatten)) := by
  have hins := h
  rw [insert, if_pos rfl] at hins
  have hspec := insertOrdered_spec ht.succ_order.shaped hins
  refine ⟨hspec.order, ?_⟩
  rcases insert_inlineValues ht h with ⟨hpresent, -, hlist⟩ | ⟨-, ⟨hnone, -⟩, -, hlist⟩ |
    ⟨habsent, -, hinline⟩
  · rw [hlist, map_setVal_of_absent (ht.shaped.absent_of_inline hpresent)]
    exact Or.inl (List.Perm.refl _)
  · -- There are no chains, before and after.
    rw [hlist, hnone]
    exact Or.inl (List.Perm.refl _)
  · -- The node is in a chain or is put there; the inline nodes cancel on both sides.
    have hnodes : nodes { t with order := t.order + 1 } = t.inlineValues ++ (t.list.getD []).flatten :=
      rfl
    have hnodes' : t'.nodes = t.inlineValues ++ (t'.list.getD []).flatten := by
      rw [nodes, hinline]
    rcases hspec.nodes with ⟨-, hp⟩ | ⟨hnone, hp⟩
    · rw [hnodes, hnodes', List.map_append, map_setVal_of_absent habsent] at hp
      exact Or.inl ((List.perm_append_left_iff _).mp hp)
    · rw [hnodes] at hnone hp
      rw [hnodes'] at hp
      refine Or.inr ⟨fun n hn => hnone n (List.mem_append_right _ hn), ?_⟩
      exact (List.perm_append_left_iff _).mp (hp.trans List.perm_middle.symm)

end HashmapGC

namespace HashmapMemory

/-- What holds of the memory of a dictionary: no node, in a chain or taken out of one, shares its order
with another. -/
structure Wf (m : HashmapMemory κ υ) : Prop where
  table : m.table.Wf
  freed : ∀ n ∈ m.freed, n.order < m.table.order
  orders : ((m.chained ++ m.freed).map NodeGC.order).Nodup

theorem Wf.create : (⟨HashmapGC.create, [], []⟩ : HashmapMemory κ υ).Wf where
  table := HashmapGC.Wf.create
  freed := by simp
  orders := by simp [chained, HashmapGC.create]

/-- The orders of all nodes are below the counter. -/
theorem Wf.fresh {m : HashmapMemory κ υ} (hm : m.Wf) :
    ∀ n ∈ m.chained ++ m.freed, n.order < m.table.order := by
  intro n hn
  rcases List.mem_append.mp hn with hn | hn
  · exact hm.table.fresh n (List.mem_append_right _ hn)
  · exact hm.freed n hn

/-- A pointer to a node of its own leads to the node with that order. -/
theorem Wf.deref_node {m : HashmapMemory κ υ} (hm : m.Wf) {order : ℕ} {n : NodeGC κ υ} :
    m.deref (.node order) = some n ↔ n ∈ m.chained ++ m.freed ∧ n.order = order :=
  Stamped.find?_eq_some hm.orders

/-- What an insertion does to the memory besides the table. -/
theorem insert_eq {m m' : HashmapMemory κ υ} {hash : UInt64} {key : κ} {val : υ}
    (h : m.insert hash key val = some m') :
    m.table.insert hash key val 0 = some m'.table ∧ m'.freed = m.freed ∧
      m'.stale = if m.table.inlineValues.length < m'.table.inlineValues.length then m.stale.tail
        else m.stale := by
  unfold insert at h
  obtain ⟨table, htable, h⟩ := Option.bind_eq_some_iff.mp h
  obtain rfl := Option.some.inj h
  exact ⟨htable, rfl, rfl⟩

theorem Wf.insert {m m' : HashmapMemory κ υ} (hm : m.Wf) {hash : UInt64} {key : κ} {val : υ}
    (h : m.insert hash key val = some m') : m'.Wf := by
  obtain ⟨htable, hfreed, -⟩ := insert_eq h
  obtain ⟨horder, hchained⟩ := HashmapGC.insert_chained hm.table htable
  obtain ⟨d, hd⟩ := hm.table.refines
  refine ⟨(hd.insert htable).1.wf, ?_, ?_⟩
  · -- What was freed is older than the order to come.
    intro n hn
    rw [hfreed] at hn
    have hlt := hm.freed n hn
    omega
  · -- No order is there twice.
    have hnodup := hm.orders
    rw [hfreed]
    rcases hchained with hp | ⟨-, hp⟩
    · have hp' := (hp.append_right m.freed).map NodeGC.order
      refine hp'.nodup_iff.mpr ?_
      have horders : (m.chained.map (HashmapGC.setVal hash val)).map NodeGC.order =
          m.chained.map NodeGC.order := by
        rw [List.map_map]
        exact List.map_congr_left fun n _ => HashmapGC.setVal_order hash val n
      rw [List.map_append] at hnodup ⊢
      exact horders ▸ hnodup
    · -- the new node has an order above all others
      have hp' := (hp.append_right m.freed).map NodeGC.order
      refine hp'.nodup_iff.mpr (List.nodup_cons.mpr ⟨?_, hnodup⟩)
      intro hmem
      obtain ⟨n, hn, hno⟩ := List.mem_map.mp hmem
      have hlt := hm.fresh n hn
      dsimp only at hno
      omega

/-- The removal of a hash that is inline takes one inline node out. -/
theorem remove_of_inline {m : HashmapMemory κ υ} {hash : UInt64}
    (hany : (m.table.inlineValues.any fun n => n.hash = hash) = true) :
    (m.remove hash).table.inlineValues =
        (m.table.inlineValues.eraseP fun n => n.hash = hash) ∧
      (m.remove hash).chained = m.chained ∧
      (m.remove hash).stale = m.table.inlineValues.getLast?.toList ++ m.stale ∧
      (m.remove hash).freed = m.freed := by
  have htable : (m.table.remove hash).2 =
      { m.table with inlineValues := m.table.inlineValues.eraseP fun n => n.hash = hash } := by
    rw [HashmapGC.remove, if_pos hany]
  unfold remove chained
  rw [if_pos hany]
  dsimp only
  rw [htable]
  exact ⟨rfl, rfl, rfl, rfl⟩

/-- The removal of a hash that is not inline keeps the inline places, and every node of a chain is
still in its chain or among the freed ones. -/
theorem Wf.remove_of_not_inline {m : HashmapMemory κ υ} (hm : m.Wf) {hash : UInt64}
    (hany : ¬(m.table.inlineValues.any fun n => n.hash = hash) = true) :
    (m.remove hash).cells = m.cells ∧
      ((m.remove hash).chained ++ (m.remove hash).freed).Perm (m.chained ++ m.freed) := by
  -- The inline nodes stay, and the chains lose the node with the hash.
  have hinline : (m.table.remove hash).2.inlineValues = m.table.inlineValues := by
    unfold HashmapGC.remove
    rw [if_neg hany]
    cases m.table.list with
    | none => rfl
    | some bs =>
      dsimp only
      split <;> rfl
  have habsent : (m.table.inlineValues.filter fun n => n.hash ≠ hash) = m.table.inlineValues := by
    rw [List.filter_eq_self]
    intro n hn
    by_contra hnh
    exact hany (List.any_eq_true.mpr ⟨n, hn, by simpa using hnh⟩)
  have hchained : ((m.table.remove hash).2.list.getD []).flatten =
      m.chained.filter fun n => n.hash ≠ hash := by
    have hnodes := hm.table.shaped.remove_nodes hash
    rw [HashmapGC.nodes, HashmapGC.nodes, hinline, List.filter_append, habsent] at hnodes
    exact List.append_cancel_left hnodes
  -- What `remove` frees is the node that the chains lose.
  have hhashes : (m.chained.map NodeGC.hash).Nodup := hm.table.shaped.chain_hashes
  have hremove : m.remove hash =
      { m with
        table := (m.table.remove hash).2
        freed := (m.chained.find? fun n => n.hash = hash).toList ++ m.freed } := by
    unfold remove
    rw [if_neg hany]
  rw [hremove]
  constructor
  · show (m.table.remove hash).2.inlineValues ++ m.stale = m.table.inlineValues ++ m.stale
    rw [hinline]
  · show (((m.table.remove hash).2.list.getD []).flatten ++
      ((m.chained.find? fun n => n.hash = hash).toList ++ m.freed)).Perm (m.chained ++ m.freed)
    rw [hchained, ← List.append_assoc, ← HashmapGC.eraseP_eq_filter hhashes]
    exact (Stamped.eraseP_append_find?_perm _ _).append_right m.freed

/-- A removal loses no node that is not inline. -/
theorem Wf.remove_perm {m : HashmapMemory κ υ} (hm : m.Wf) (hash : UInt64) :
    ((m.remove hash).chained ++ (m.remove hash).freed).Perm (m.chained ++ m.freed) := by
  by_cases hany : (m.table.inlineValues.any fun n => n.hash = hash) = true
  · obtain ⟨-, hchained, -, hfreed⟩ := remove_of_inline hany
    rw [hchained, hfreed]
  · exact (hm.remove_of_not_inline hany).2

theorem Wf.remove {m : HashmapMemory κ υ} (hm : m.Wf) (hash : UInt64) : (m.remove hash).Wf := by
  obtain ⟨d, hd⟩ := hm.table.refines
  have htable : (m.remove hash).table = (m.table.remove hash).2 := by
    unfold HashmapMemory.remove
    split <;> rfl
  have horder : (m.remove hash).table.order = m.table.order := by
    rw [htable]
    exact (m.table.remove_frame hash).1
  have hperm := hm.remove_perm hash
  refine ⟨htable ▸ (hd.remove hash).1.wf, ?_, ?_⟩
  · intro n hn
    rw [horder]
    exact hm.fresh n (hperm.mem_iff.mp (List.mem_append_right _ hn))
  · exact (hperm.map NodeGC.order).nodup_iff.mpr hm.orders

/-! ## What a pointer leads to after an operation -/

/-- The operation changes the key or the value that the pointer leads to: it gives the node another
value, it puts a new node into the inline place, or it moves a node down into it. -/
def Disturbs (m : HashmapMemory κ υ) : NodePtr → IterationOp κ υ → Prop
  | _, .next => False
  | .inline i, .setitem hash key val =>
    if m.table.inlineValues.any fun n => n.hash = hash then
      ∃ n ∈ m.table.inlineValues[i]?, n.hash = hash ∧ n.val ≠ val
    else
      (m.table.list = none ∧ m.table.inlineValues.length < inlineHashmapArraySize) ∧
        i = m.table.inlineValues.length ∧ m.content (.inline i) ≠ some (key, val)
  | .node order, .setitem hash _ val =>
    ∃ n ∈ m.chained, n.order = order ∧ n.hash = hash ∧ n.val ≠ val
  | .inline i, .delitem hash =>
    m.table.inlineValues.findIdx (fun n => n.hash = hash) ≤ i ∧
      i + 1 < m.table.inlineValues.length ∧
        m.content (.inline (i + 1)) ≠ m.content (.inline i)
  | .node _, .delitem _ => False

instance decidableDisturbs [DecidableEq κ] [DecidableEq υ] (m : HashmapMemory κ υ) :
    ∀ p op, Decidable (m.Disturbs p op)
  | .inline _, .next => isFalse id
  | .node _, .next => isFalse id
  | .inline i, .setitem hash key val => by
    unfold Disturbs
    infer_instance
  | .node order, .setitem hash _ val =>
    inferInstanceAs (Decidable (∃ n ∈ m.chained, n.order = order ∧ n.hash = hash ∧ n.val ≠ val))
  | .inline _, .delitem _ => inferInstanceAs (Decidable (_ ∧ _ ∧ _))
  | .node _, .delitem _ => isFalse id

/-- A node of its own stays where it is, and an insertion gives it at most a new value. -/
theorem Wf.insert_node {m m' : HashmapMemory κ υ} (hm : m.Wf) {hash : UInt64} {key : κ} {val : υ}
    (h : m.insert hash key val = some m') {order : ℕ} {n : NodeGC κ υ}
    (hn : m.deref (.node order) = some n) :
    ∃ n', m'.deref (.node order) = some n' ∧ ((n'.key, n'.val) = (n.key, n.val) ↔
      ¬m.Disturbs (.node order) (.setitem hash key val)) := by
  obtain ⟨hmem, rfl⟩ := hm.deref_node.mp hn
  have hm' := hm.insert h
  obtain ⟨htable, hfreed, -⟩ := insert_eq h
  -- The node is disturbed when it is its value that is replaced.
  have hdisturbs : m.Disturbs (.node n.order) (.setitem hash key val) ↔
      n ∈ m.chained ∧ n.hash = hash ∧ n.val ≠ val := by
    constructor
    · rintro ⟨k, hk, hkn, hkh⟩
      have hkn : k = n :=
        List.inj_on_of_nodup_map hm.orders (List.mem_append_left _ hk) hmem hkn
      exact hkn ▸ ⟨hk, hkh⟩
    · rintro ⟨hk, hkh⟩
      exact ⟨n, hk, rfl, hkh⟩
  rw [hdisturbs]
  by_cases hin : n ∈ m.chained
  · rcases (HashmapGC.insert_chained hm.table htable).2 with hp | ⟨habsent, hp⟩
    · have hmem' : HashmapGC.setVal hash val n ∈ m'.chained :=
        hp.mem_iff.mpr (List.mem_map_of_mem hin)
      refine ⟨_, hm'.deref_node.mpr ⟨List.mem_append_left _ hmem', HashmapGC.setVal_order _ _ _⟩, ?_⟩
      unfold HashmapGC.setVal
      by_cases hnh : n.hash = hash
      · simp [hin, hnh, eq_comm]
      · simp [hnh]
    · have hmem' : n ∈ m'.chained := hp.mem_iff.mpr (List.mem_cons_of_mem _ hin)
      refine ⟨n, hm'.deref_node.mpr ⟨List.mem_append_left _ hmem', rfl⟩, ?_⟩
      have hnh : n.hash ≠ hash := habsent n hin
      simp [hnh]
  · -- a node that was taken out of its chain is out of the reach of insertions
    have hmem' : n ∈ m'.freed := by
      rw [hfreed]
      exact (List.mem_append.mp hmem).resolve_left hin
    refine ⟨n, hm'.deref_node.mpr ⟨List.mem_append_right _ hmem', rfl⟩, ?_⟩
    simp [hin]

/-- An insertion into an inline place changes what it holds, and all other places keep it. -/
theorem Wf.insert_inline {m m' : HashmapMemory κ υ} (hm : m.Wf) {hash : UInt64} {key : κ} {val : υ}
    (h : m.insert hash key val = some m') {i : ℕ} {n : NodeGC κ υ}
    (hn : m.deref (.inline i) = some n) :
    ∃ n', m'.deref (.inline i) = some n' ∧ ((n'.key, n'.val) = (n.key, n.val) ↔
      ¬m.Disturbs (.inline i) (.setitem hash key val)) := by
  obtain ⟨htable, -, hstale⟩ := insert_eq h
  have hcell : (m.table.inlineValues ++ m.stale)[i]? = some n := hn
  simp only [deref, cells, Disturbs, content, hstale, hcell]
  rcases HashmapGC.insert_inlineValues hm.table htable with ⟨hpresent, hinline, -⟩ |
    ⟨habsent, hroom, hinline, -⟩ | ⟨habsent, hroom, hinline⟩
  · -- The value of the inline node with the hash is replaced; no place changes otherwise.
    have hany : (m.table.inlineValues.any fun n => n.hash = hash) = true := by
      simpa using hpresent
    rw [if_pos hany, hinline, List.length_map, if_neg (Nat.lt_irrefl _)]
    by_cases hi : i < m.table.inlineValues.length
    · rw [List.getElem?_append_left hi] at hcell
      have hi' : i < (m.table.inlineValues.map (HashmapGC.setVal hash val)).length := by
        rwa [List.length_map]
      rw [List.getElem?_append_left hi', List.getElem?_map, hcell]
      refine ⟨_, rfl, ?_⟩
      unfold HashmapGC.setVal
      by_cases hnh : n.hash = hash
      · simp [hnh, eq_comm]
      · simp [hnh]
    · rw [List.getElem?_append_right (by omega)] at hcell
      rw [List.getElem?_append_right (by rw [List.length_map]; omega), List.length_map,
        List.getElem?_eq_none (Nat.le_of_not_lt hi)]
      exact ⟨n, hcell, by simp⟩
  · -- the new node takes the first place behind the inline nodes
    have hany : ¬(m.table.inlineValues.any fun n => n.hash = hash) = true := by
      simpa using habsent
    have hlt : m.table.inlineValues.length < m'.table.inlineValues.length := by
      rw [hinline, List.length_append]
      exact Nat.lt_succ_self _
    rw [if_neg hany, if_pos hlt, hinline, List.append_assoc]
    rcases Nat.lt_trichotomy i m.table.inlineValues.length with hi | rfl | hi
    · rw [List.getElem?_append_left hi] at hcell ⊢
      exact ⟨n, hcell, by simp [hi.ne]⟩
    · rw [List.getElem?_append_right (le_refl _), Nat.sub_self]
      refine ⟨_, rfl, ?_⟩
      simp [hroom, eq_comm]
    · rw [List.getElem?_append_right hi.le] at hcell ⊢
      refine ⟨n, ?_, by simp [hi.ne']⟩
      have hsub : i - m.table.inlineValues.length =
          i - m.table.inlineValues.length - 1 + 1 := by omega
      rw [hsub] at hcell ⊢
      rw [List.singleton_append, List.getElem?_cons_succ, List.getElem?_tail]
      exact hcell
  · -- The node goes to a chain.
    have hany : ¬(m.table.inlineValues.any fun n => n.hash = hash) = true := by
      simpa using habsent
    rw [if_neg hany, hinline, if_neg (Nat.lt_irrefl _)]
    exact ⟨n, hcell, by simp [hroom]⟩

/-- The inline places after the removal of the node in place `i`: those from there to the last
inline one hold what the next held. -/
theorem getElem?_removed {α : Type*} (l stale : List α) {i : ℕ} (hi : i < l.length) (j : ℕ) :
    (l.eraseIdx i ++ (l.getLast?.toList ++ stale))[j]? =
      if i ≤ j ∧ j + 1 < l.length then (l ++ stale)[j + 1]? else (l ++ stale)[j]? := by
  have hlen : (l.eraseIdx i).length = l.length - 1 := List.length_eraseIdx_of_lt hi
  have hne : l ≠ [] := List.ne_nil_of_length_pos (by omega)
  have hlast : l.getLast?.toList = [l.getLast hne] := by
    rw [List.getLast?_eq_some_getLast hne]
    rfl
  rw [hlast]
  -- Whether the place is before the last one, is the last one, or is behind it.
  rcases Nat.lt_trichotomy (j + 1) l.length with hj | hj | hj
  · have hleft : (l.eraseIdx i ++ ([l.getLast hne] ++ stale))[j]? = (l.eraseIdx i)[j]? :=
      List.getElem?_append_left (by omega)
    have hhere : (l ++ stale)[j]? = l[j]? := List.getElem?_append_left (by omega)
    have hnext : (l ++ stale)[j + 1]? = l[j + 1]? := List.getElem?_append_left hj
    rw [hleft, hhere, hnext, List.getElem?_eraseIdx]
    by_cases hij : j < i
    · have hmoved : ¬(i ≤ j ∧ j + 1 < l.length) := by omega
      rw [if_pos hij, if_neg hmoved]
    · have hmoved : i ≤ j ∧ j + 1 < l.length := by omega
      rw [if_neg hij, if_pos hmoved]
  · have hmoved : ¬(i ≤ j ∧ j + 1 < l.length) := by omega
    have hzero : j - (l.eraseIdx i).length = 0 := by omega
    have hj' : j = l.length - 1 := by omega
    have hhere : (l ++ stale)[j]? = l[j]? := List.getElem?_append_left (by omega)
    have hget : l[j]? = some (l.getLast hne) := by
      rw [hj', ← List.getLast?_eq_getElem?, List.getLast?_eq_some_getLast hne]
    rw [if_neg hmoved, List.getElem?_append_right (by omega), hzero, hhere, hget]
    rfl
  · have hmoved : ¬(i ≤ j ∧ j + 1 < l.length) := by omega
    have hsub : j - (l.eraseIdx i).length = j - l.length + 1 := by omega
    have hhere : (l ++ stale)[j]? = stale[j - l.length]? := List.getElem?_append_right (by omega)
    rw [if_neg hmoved, List.getElem?_append_right (by omega), hsub, hhere]
    rfl

/-- A removal moves inline nodes down, each into the place before its own. -/
theorem Wf.remove_inline {m : HashmapMemory κ υ} (hm : m.Wf) (hash : UInt64) {i : ℕ}
    {n : NodeGC κ υ} (hn : m.deref (.inline i) = some n) :
    ∃ n', (m.remove hash).deref (.inline i) = some n' ∧ ((n'.key, n'.val) = (n.key, n.val) ↔
      ¬m.Disturbs (.inline i) (.delitem hash)) := by
  have hcell : m.cells[i]? = some n := hn
  by_cases hany : (m.table.inlineValues.any fun n => n.hash = hash) = true
  · have hlt : m.table.inlineValues.findIdx (fun n => n.hash = hash) <
        m.table.inlineValues.length := List.findIdx_lt_length.mpr (List.any_eq_true.mp hany)
    obtain ⟨hinline, -, hstale, -⟩ := remove_of_inline hany
    -- The first inline node with the hash is taken out and the ones behind it move up.
    have herase : (m.table.inlineValues.eraseP fun n => n.hash = hash) =
        m.table.inlineValues.eraseIdx (m.table.inlineValues.findIdx fun n => n.hash = hash) := by
      rw [List.eraseP_eq_eraseIdx, List.findIdx?_eq_some_iff_findIdx_eq.mpr ⟨hlt, rfl⟩]
    have hcells : (m.remove hash).cells[i]? =
        if m.table.inlineValues.findIdx (fun n => n.hash = hash) ≤ i ∧
            i + 1 < m.table.inlineValues.length then m.cells[i + 1]? else m.cells[i]? := by
      unfold cells
      rw [hinline, hstale, herase]
      exact getElem?_removed _ _ hlt i
    simp only [deref, Disturbs, content, hcells, hcell]
    -- The place gets the next node exactly if it is one of those that move.
    by_cases hmoved : m.table.inlineValues.findIdx (fun n => n.hash = hash) ≤ i ∧
        i + 1 < m.table.inlineValues.length
    · rw [if_pos hmoved]
      have hnext : i + 1 < m.cells.length := by
        unfold cells
        rw [List.length_append]
        omega
      rw [List.getElem?_eq_getElem hnext]
      exact ⟨_, rfl, by simp [hmoved]⟩
    · rw [if_neg hmoved]
      refine ⟨n, rfl, iff_of_true rfl ?_⟩
      rintro ⟨hle, hlt', -⟩
      exact hmoved ⟨hle, hlt'⟩
  · obtain ⟨hcells, -⟩ := hm.remove_of_not_inline hany
    have hend : m.table.inlineValues.findIdx (fun n => n.hash = hash) =
        m.table.inlineValues.length :=
      List.findIdx_eq_length.mpr fun n hn => by
        have habsent := List.any_eq_false.mp (Bool.not_eq_true _ ▸ hany) n hn
        simpa using habsent
    refine ⟨n, ?_, iff_of_true rfl ?_⟩
    · unfold deref
      dsimp only
      rw [hcells]
      exact hcell
    · unfold Disturbs
      omega

/-- A removal leaves every node of a chain what it is. -/
theorem Wf.remove_node {m : HashmapMemory κ υ} (hm : m.Wf) (hash : UInt64) (order : ℕ) :
    (m.remove hash).deref (.node order) = m.deref (.node order) := by
  exact Stamped.find?_perm (hm.remove hash).orders (hm.remove_perm hash) order

/-- A pointer leads somewhere after an insertion as before, and to the same key and value unless the
insertion disturbs it. -/
theorem Wf.insert_content {m m' : HashmapMemory κ υ} (hm : m.Wf) {hash : UInt64} {key : κ} {val : υ}
    (h : m.insert hash key val = some m') (p : NodePtr) (e : κ × υ) (he : m.content p = some e) :
    ∃ e', m'.content p = some e' ∧ (e' = e ↔ ¬m.Disturbs p (.setitem hash key val)) := by
  obtain ⟨n, hn, rfl⟩ := Option.map_eq_some_iff.mp he
  have hkept : ∃ n', m'.deref p = some n' ∧ ((n'.key, n'.val) = (n.key, n.val) ↔
      ¬m.Disturbs p (.setitem hash key val)) := by
    cases p with
    | inline i => exact hm.insert_inline h hn
    | node order => exact hm.insert_node h hn
  obtain ⟨n', hn', hiff⟩ := hkept
  exact ⟨_, by rw [content, hn']; rfl, hiff⟩

/-- A pointer leads somewhere after a removal as before, and to the same key and value unless the
removal disturbs it. -/
theorem Wf.remove_content {m : HashmapMemory κ υ} (hm : m.Wf) (hash : UInt64) (p : NodePtr)
    (e : κ × υ) (he : m.content p = some e) :
    ∃ e', (m.remove hash).content p = some e' ∧ (e' = e ↔ ¬m.Disturbs p (.delitem hash)) := by
  obtain ⟨n, hn, rfl⟩ := Option.map_eq_some_iff.mp he
  have hkept : ∃ n', (m.remove hash).deref p = some n' ∧ ((n'.key, n'.val) = (n.key, n.val) ↔
      ¬m.Disturbs p (.delitem hash)) := by
    cases p with
    | inline i => exact hm.remove_inline hash hn
    | node order => exact ⟨n, by rw [hm.remove_node, hn], iff_of_true rfl not_false⟩
  obtain ⟨n', hn', hiff⟩ := hkept
  exact ⟨_, by rw [content, hn']; rfl, hiff⟩

/-- The pointers that `hashmap_GC_to_array` collects lead to the nodes it collects. -/
theorem Wf.deref_located {m : HashmapMemory κ υ} (hm : m.Wf) :
    ∀ e ∈ m.located, m.deref e.1 = some e.2 := by
  intro e he
  rcases List.mem_append.mp he with he | he
  · obtain ⟨⟨n, i⟩, hni, rfl⟩ := List.mem_map.mp he
    have hget := List.mem_zipIdx_iff_getElem?.mp hni
    have hlt : i < m.table.inlineValues.length := (List.getElem?_eq_some_iff.mp hget).1
    unfold deref cells
    dsimp only
    rw [List.getElem?_append_left hlt]
    exact hget
  · obtain ⟨n, hn, rfl⟩ := List.mem_map.mp he
    exact hm.deref_node.mpr ⟨List.mem_append_left _ hn, rfl⟩

theorem located_nodes (m : HashmapMemory κ υ) : m.located.map Prod.snd = m.table.nodes := by
  unfold located HashmapGC.nodes
  rw [List.map_append, List.map_map, List.map_map]
  have hinline : (m.table.inlineValues.zipIdx.map
      (Prod.snd ∘ fun e => ((.inline e.2 : NodePtr), e.1))) = m.table.inlineValues :=
    List.zipIdx_map_fst 0 _
  rw [hinline]
  exact congrArg _ (List.map_id _)

/-- A new iterator has the entries of the dictionary in their order. -/
theorem Wf.toArray_content {m : HashmapMemory κ υ} (hm : m.Wf)
    {d : OrderedMap UInt64 (κ × υ)} (hd : m.table.Refines d) :
    m.toArray.map m.content = (d.entries.map Prod.snd).map some := by
  have hderef : m.toArray.map m.content =
      (Stamped.sortByStamp (NodeGC.order ∘ Prod.snd) m.located).map fun e =>
        some (e.2.key, e.2.val) := by
    unfold toArray
    rw [List.map_map]
    refine List.map_congr_left fun e he => ?_
    have hmem := (Stamped.sortByStamp_perm _ _).mem_iff.mp he
    show (m.deref e.1).map _ = _
    rw [hm.deref_located e hmem]
    rfl
  have hnodes : (Stamped.sortByStamp (NodeGC.order ∘ Prod.snd) m.located).map Prod.snd =
      m.table.toArray := by
    rw [Stamped.map_sortByStamp, located_nodes]
    rfl
  calc m.toArray.map m.content
      = ((Stamped.sortByStamp (NodeGC.order ∘ Prod.snd) m.located).map Prod.snd).map
          fun n => some (n.key, n.val) := by rw [hderef, List.map_map]; rfl
    _ = (d.entries.map Prod.snd).map some := by
      rw [hnodes, hd.entries, List.map_map, List.map_map]
      rfl

end HashmapMemory

/-! ## The snapshot -/

namespace Iteration

/-- The operations one after the other, with what the `__next__` calls gave. -/
def run (s : Iteration κ υ) :
    List (IterationOp κ υ) → Option (List (IterationResult κ υ) × Iteration κ υ)
  | [] => some ([], s)
  | op :: ops => do
    let (result, s) ← s.step op
    let (results, s) ← s.run ops
    return (result.toList ++ results, s)

theorem run_cons {s s' : Iteration κ υ} {op : IterationOp κ υ}
    {result : Option (IterationResult κ υ)} (h : s.step op = some (result, s'))
    (ops : List (IterationOp κ υ)) :
    s.run (op :: ops) = (s'.run ops).map fun (results, s) => (result.toList ++ results, s) := by
  rw [run, h]
  cases hrun : s'.run ops <;> simp [hrun]

/-- What so many `__next__` calls give over these entries: each of them once, and then
`StopIteration`. -/
def snapshot : List (κ × υ) → ℕ → List (IterationResult κ υ)
  | _, 0 => []
  | [], n + 1 => .stopIteration :: snapshot [] n
  | (key, val) :: entries, n + 1 => .item key val :: snapshot entries n

/-- The iterator is a snapshot of the entries: wherever the interleaving is left, what the iterator gave
so far and what it gives from there on are the entries. -/
def IsSnapshot (s : Iteration κ υ) (entries : List (κ × υ)) (ops : List (IterationOp κ υ)) : Prop :=
  ∀ before, before <+: ops → ∀ results s', s.run before = some (results, s') → ∀ n,
    ∃ results' s'', s'.run (List.replicate n .next) = some (results', s'') ∧
      results ++ results' = snapshot entries (results.length + n)

/-- No operation disturbs a pointer that the iterator has still to follow. -/
def Undisturbed (s : Iteration κ υ) : List (IterationOp κ υ) → Prop
  | [] => True
  | op :: ops =>
    match s.step op with
    | none => True
    | some (_, s') => (∀ p ∈ s.remaining, ¬s.memory.Disturbs p op) ∧ s'.Undisturbed ops

instance decidableUndisturbed [DecidableEq κ] [DecidableEq υ] :
    ∀ (s : Iteration κ υ) ops, Decidable (s.Undisturbed ops)
  | _, [] => isTrue trivial
  | s, op :: ops =>
    match h : s.step op with
    | none => isTrue (by simp [Undisturbed, h])
    | some (_, s') =>
      have := decidableUndisturbed s' ops
      decidable_of_iff ((∀ p ∈ s.remaining, ¬s.memory.Disturbs p op) ∧ s'.Undisturbed ops)
        (by simp [Undisturbed, h])

/-- The iterator has these entries still to give. -/
structure Holds (s : Iteration κ υ) (entries : List (κ × υ)) : Prop where
  wf : s.memory.Wf
  content : s.remaining.map s.memory.content = entries.map some

/-- A `__next__` gives the first of the entries. -/
theorem Holds.next_cons {s : Iteration κ υ} {key : κ} {val : υ} {entries : List (κ × υ)}
    (h : s.Holds ((key, val) :: entries)) :
    ∃ s', s.step .next = some (some (.item key val), s') ∧ s'.Holds entries ∧
      s'.memory = s.memory := by
  have hcontent := h.content
  unfold remaining at hcontent
  cases hp : s.iterator.array[s.iterator.current]? with
  | none =>
    rw [List.drop_eq_nil_of_le (List.getElem?_eq_none_iff.mp hp)] at hcontent
    simp at hcontent
  | some p =>
    obtain ⟨hlt, hpe⟩ := List.getElem?_eq_some_iff.mp hp
    rw [List.drop_eq_getElem_cons hlt, hpe, List.map_cons, List.map_cons, List.cons.injEq] at hcontent
    obtain ⟨n, hn, hkv⟩ := Option.map_eq_some_iff.mp hcontent.1
    obtain ⟨rfl, rfl⟩ := Prod.mk.inj hkv
    refine ⟨{ s with iterator := { s.iterator with current := s.iterator.current + 1 } }, ?_,
      ⟨h.wf, hcontent.2⟩, rfl⟩
    simp [step, next, hp, hn]

/-- Where no entries are left, `__next__` gives `StopIteration`. -/
theorem Holds.next_nil {s : Iteration κ υ} (h : s.Holds []) :
    s.step .next = some (some .stopIteration, s) := by
  have hnil : s.iterator.array.drop s.iterator.current = [] := by
    have hcontent := h.content
    rw [List.map_nil, List.map_eq_nil_iff] at hcontent
    exact hcontent
  have hp : s.iterator.array[s.iterator.current]? = none :=
    List.getElem?_eq_none_iff.mpr (List.drop_eq_nil_iff.mp hnil)
  simp [step, next, hp]

/-- An iterator that is left alone gives what it has still to give. -/
theorem Holds.run_next {s : Iteration κ υ} {entries : List (κ × υ)} (h : s.Holds entries) (n : ℕ) :
    ∃ s', s.run (List.replicate n .next) = some (snapshot entries n, s') := by
  induction n generalizing s entries with
  | zero => exact ⟨s, by simp [run, snapshot]⟩
  | succ n ih =>
    cases entries with
    | nil =>
      obtain ⟨s', hs'⟩ := ih h
      exact ⟨s', by simp [List.replicate_succ, run, h.next_nil, hs', snapshot]⟩
    | cons e entries =>
      obtain ⟨t, ht, hentries, -⟩ := h.next_cons
      obtain ⟨s', hs'⟩ := ih hentries
      exact ⟨s', by simp [List.replicate_succ, run, ht, hs', snapshot]⟩

/-- The entries can be read off their snapshots. -/
theorem snapshot_injective {entries entries' : List (κ × υ)}
    (h : ∀ n, snapshot entries n = snapshot entries' n) : entries = entries' := by
  induction entries generalizing entries' with
  | nil =>
    cases entries' with
    | nil => rfl
    | cons e entries' =>
      have hone := h 1
      simp [snapshot] at hone
  | cons e entries ih =>
    cases entries' with
    | nil =>
      have hone := h 1
      simp [snapshot] at hone
    | cons e' entries' =>
      have hone := h 1
      have hrest := ih fun n => by
        have hsucc := h (n + 1)
        simp only [snapshot, List.cons.injEq] at hsucc
        exact hsucc.2
      simp only [snapshot, List.cons.injEq, IterationResult.item.injEq] at hone
      rw [Prod.ext hone.1.1 hone.1.2, hrest]

/-- Pointers that each lead somewhere after a change lead to the same things exactly when none of them
is disturbed. -/
theorem map_kept {α β : Type*} {f g : α → Option β} {disturbed : α → Prop}
    (hkept : ∀ p e, f p = some e → ∃ e', g p = some e' ∧ (e' = e ↔ ¬disturbed p))
    {ps : List α} {es : List β} (h : ps.map f = es.map some) :
    ∃ es', ps.map g = es'.map some ∧ (es' = es ↔ ∀ p ∈ ps, ¬disturbed p) := by
  induction ps generalizing es with
  | nil =>
    obtain rfl := List.map_eq_nil_iff.mp h.symm
    exact ⟨[], rfl, by simp⟩
  | cons p ps ih =>
    cases es with
    | nil => simp at h
    | cons e es =>
      rw [List.map_cons, List.map_cons, List.cons.injEq] at h
      obtain ⟨e', he', hiff⟩ := hkept p e h.1
      obtain ⟨es', hes', hrest⟩ := ih h.2
      refine ⟨e' :: es', by rw [List.map_cons, he', hes', List.map_cons], ?_⟩
      rw [List.cons.injEq, hiff, hrest, List.forall_mem_cons]

/-- An operation on the dictionary leaves the iterator as many entries as it had, and the same ones
exactly when it disturbs no pointer to them. -/
theorem Holds.step_of_ne_next {s s' : Iteration κ υ} {entries : List (κ × υ)} (h : s.Holds entries)
    {op : IterationOp κ υ} (hop : op ≠ .next) {result : Option (IterationResult κ υ)}
    (hstep : s.step op = some (result, s')) :
    result = none ∧ ∃ entries', s'.Holds entries' ∧
      (entries' = entries ↔ ∀ p ∈ s.remaining, ¬s.memory.Disturbs p op) := by
  cases op with
  | next => exact absurd rfl hop
  | setitem hash key val =>
    obtain ⟨memory, hmemory, heq⟩ := Option.map_eq_some_iff.mp hstep
    obtain ⟨rfl, rfl⟩ := Prod.mk.inj heq
    obtain ⟨entries', hentries', hiff⟩ := map_kept (h.wf.insert_content hmemory) h.content
    exact ⟨rfl, entries', ⟨h.wf.insert hmemory, hentries'⟩, hiff⟩
  | delitem hash =>
    obtain ⟨rfl, rfl⟩ := Prod.mk.inj (Option.some.inj hstep)
    obtain ⟨entries', hentries', hiff⟩ := map_kept (h.wf.remove_content hash) h.content
    exact ⟨rfl, entries', ⟨h.wf.remove hash, hentries'⟩, hiff⟩

/-- An interleaving from an operation on is one from the state that the operation leaves. -/
theorem Holds.isSnapshot_cons {s s' : Iteration κ υ} {entries : List (κ × υ)} (h : s.Holds entries)
    {op : IterationOp κ υ} {result : Option (IterationResult κ υ)}
    (hstep : s.step op = some (result, s')) (ops : List (IterationOp κ υ)) :
    s.IsSnapshot entries (op :: ops) ↔ ∀ before, before <+: ops → ∀ results s'',
      s'.run before = some (results, s'') → ∀ n, ∃ results' t,
        s''.run (List.replicate n .next) = some (results', t) ∧
          (result.toList ++ results) ++ results' =
            snapshot entries ((result.toList ++ results).length + n) := by
  constructor
  · intro hsnap before hbefore results s'' hrun
    refine hsnap (op :: before) (List.cons_prefix_cons.mpr ⟨rfl, hbefore⟩) _ s'' ?_
    rw [run_cons hstep, hrun]
    rfl
  · intro hsnap before hbefore results s'' hrun n
    cases before with
    | nil =>
      obtain ⟨rfl, rfl⟩ := Prod.mk.inj (Option.some.inj hrun)
      obtain ⟨s', hs'⟩ := h.run_next n
      exact ⟨_, s', hs', by simp⟩
    | cons op' before =>
      obtain ⟨rfl, hinitial⟩ := List.cons_prefix_cons.mp hbefore
      rw [run_cons hstep] at hrun
      obtain ⟨⟨results, t⟩, ht, heq⟩ := Option.map_eq_some_iff.mp hrun
      obtain ⟨rfl, rfl⟩ := Prod.mk.inj heq
      exact hsnap before hinitial results t ht n

/-- An iterator that has some entries to give is a snapshot of them exactly when none of the operations
disturbs a pointer that it has still to follow. -/
theorem Holds.isSnapshot_iff {s : Iteration κ υ} {entries : List (κ × υ)} (h : s.Holds entries)
    (ops : List (IterationOp κ υ)) : s.IsSnapshot entries ops ↔ s.Undisturbed ops := by
  induction ops generalizing s entries with
  -- Nothing is done: the results so far are none, and those to come are the entries.
  | nil =>
    refine iff_of_true ?_ trivial
    intro before hbefore results s' hrun n
    obtain rfl := List.prefix_nil.mp hbefore
    obtain ⟨rfl, rfl⟩ := Prod.mk.inj (Option.some.inj hrun)
    obtain ⟨s', hs'⟩ := h.run_next n
    exact ⟨_, s', hs', by simp⟩
  | cons op ops ih =>
    unfold Undisturbed
    cases hstep : s.step op with
    -- The operation cannot be done, so only the run of no operation counts.
    | none =>
      refine iff_of_true ?_ trivial
      intro before hbefore results s' hrun n
      cases before with
      | nil =>
        obtain ⟨rfl, rfl⟩ := Prod.mk.inj (Option.some.inj hrun)
        obtain ⟨s', hs'⟩ := h.run_next n
        exact ⟨_, s', hs', by simp⟩
      | cons op' before =>
        obtain ⟨rfl, -⟩ := List.cons_prefix_cons.mp hbefore
        simp [run, hstep] at hrun
    | some stepped =>
      obtain ⟨result, s'⟩ := stepped
      rw [h.isSnapshot_cons hstep]
      by_cases hop : op = .next
      · -- the result is the first of the entries, and the others are left
        subst hop
        have hfirst : ∃ r entries', result = some r ∧ s'.Holds entries' ∧
            ∀ n, snapshot entries (n + 1) = r :: snapshot entries' n := by
          cases entries with
          | nil =>
            rw [h.next_nil] at hstep
            obtain ⟨rfl, rfl⟩ := Prod.mk.inj (Option.some.inj hstep)
            exact ⟨_, [], rfl, h, fun n => rfl⟩
          | cons e entries =>
            obtain ⟨t, ht, hentries, -⟩ := h.next_cons
            rw [ht] at hstep
            obtain ⟨rfl, rfl⟩ := Prod.mk.inj (Option.some.inj hstep)
            exact ⟨_, entries, rfl, hentries, fun n => rfl⟩
        obtain ⟨r, entries', rfl, hentries', hsucc⟩ := hfirst
        -- `next` disturbs nothing, and takes its result off the snapshot.
        have hquiet : ∀ p ∈ s.remaining, ¬s.memory.Disturbs p .next := by
          intro p _ hdisturbs
          cases p <;> exact hdisturbs
        dsimp only
        rw [← ih hentries', and_iff_right hquiet]
        have hcons : ∀ (results results' : List (IterationResult κ υ)) (n : ℕ),
            (some r).toList ++ results ++ results' =
              snapshot entries (((some r).toList ++ results).length + n) ↔
            results ++ results' = snapshot entries' (results.length + n) := by
          intro results results' n
          have hlength : ((some r).toList ++ results).length + n = results.length + n + 1 := by
            simp only [Option.toList_some, List.singleton_append, List.length_cons]
            omega
          rw [hlength, hsucc]
          simp
        simp only [hcons]
        rfl
      · -- Another operation gives no result: the entries are the same afterwards exactly if it
        -- disturbs none.
        obtain ⟨rfl, entries', hentries', hiff⟩ := h.step_of_ne_next hop hstep
        dsimp only
        rw [← hiff]
        constructor
        · intro hsnap
          have heq : entries' = entries := by
            refine snapshot_injective fun n => ?_
            obtain ⟨results', s'', hrun, hresults⟩ := hsnap [] List.nil_prefix [] s' rfl n
            obtain ⟨t, ht⟩ := hentries'.run_next n
            rw [ht] at hrun
            obtain ⟨rfl, -⟩ := Prod.mk.inj (Option.some.inj hrun)
            simpa using hresults
          subst heq
          exact ⟨rfl, (ih hentries').mp hsnap⟩
        · rintro ⟨rfl, hrest⟩
          exact (ih hentries').mpr hrest

end Iteration

/-- An iterator over a dictionary gives the entries that the dictionary had at `__iter__`, in their
order and each once, and then `StopIteration`, exactly as long as no insertion and no deletion disturbs
a pointer that it has still to follow: as long as none gives a node ahead another value, puts a new node
into an inline place ahead, or removes an inline node at or before one ahead. -/
theorem dictionary_iteration_iff {m : HashmapMemory κ υ} (hm : m.Wf)
    {d : OrderedMap UInt64 (κ × υ)} (hd : m.table.Refines d) (ops : List (IterationOp κ υ)) :
    Iteration.IsSnapshot ⟨m, m.iter⟩ (d.entries.map Prod.snd) ops ↔
      Iteration.Undisturbed ⟨m, m.iter⟩ ops :=
  Iteration.Holds.isSnapshot_iff ⟨hm, hm.toArray_content hd⟩ ops

/-- Three entries, all of them inline. -/
def threeInline : HashmapMemory ℕ ℕ where
  table :=
    { HashmapGC.create with
      order := 4
      count := 3
      inlineValues := [⟨1, 1, 10, 1⟩, ⟨2, 2, 20, 2⟩, ⟨3, 3, 30, 3⟩] }
  stale := []
  freed := []

theorem threeInline_wf : threeInline.Wf where
  table :=
    { hashes := by decide
      orders := by decide
      fresh := by decide
      order_pos := by decide
      inline := by decide
      size := fun _ => rfl
      placed := fun _ hbs => nomatch hbs
      load := by decide }
  freed := by decide
  orders := by decide

theorem threeInline_refines : threeInline.table.Refines
    ⟨[(1, 1, 10), (2, 2, 20), (3, 3, 30)], by decide⟩ where
  wf := threeInline_wf.table
  entries := by
    have hsorted : threeInline.table.toArray = threeInline.table.inlineValues :=
      Stamped.sortByStamp_eq _ (by simp [Stamped.Ascending, threeInline]) (List.Perm.refl _)
    rw [hsorted]
    rfl

theorem threeInline_iter :
    threeInline.iter = ⟨0, [.inline 0, .inline 1, .inline 2]⟩ := by
  have hsorted : Stamped.sortByStamp (NodeGC.order ∘ Prod.snd) threeInline.located =
      threeInline.located :=
    Stamped.sortByStamp_eq _ (by simp [Stamped.Ascending, threeInline, HashmapMemory.located,
      HashmapMemory.chained, HashmapGC.create]) (List.Perm.refl _)
  rw [HashmapMemory.iter, HashmapMemory.toArray, hsorted]
  rfl

/-- An update behind the iterator and an insertion into the chains disturb nothing ahead of it. -/
theorem dictionary_iteration_behind :
    Iteration.IsSnapshot ⟨threeInline, threeInline.iter⟩ [(1, 10), (2, 20), (3, 30)]
      [.next, .setitem 1 1 11, .next, .setitem 9 9 90, .next, .next] := by
  refine (dictionary_iteration_iff threeInline_wf threeInline_refines _).mpr ?_
  rw [threeInline_iter]
  decide

/-- Deleting the first key after it was given moves the other two down: the second is skipped, and the
third is given twice. -/
theorem not_forall_dictionary_iteration :
    ¬∀ (m : HashmapMemory ℕ ℕ), m.Wf → ∀ d : OrderedMap UInt64 (ℕ × ℕ), m.table.Refines d →
      ∀ ops, Iteration.IsSnapshot ⟨m, m.iter⟩ (d.entries.map Prod.snd) ops := by
  intro h
  have hsnap := h threeInline threeInline_wf _ threeInline_refines [.next, .delitem 1]
    [.next, .delitem 1] (List.prefix_refl _)
  rw [threeInline_iter] at hsnap
  obtain ⟨results', s', hrest, hresults⟩ := hsnap [.item 1 10]
    ⟨threeInline.remove 1, ⟨1, [.inline 0, .inline 1, .inline 2]⟩⟩ (by decide) 2
  have hgiven : (Iteration.run ⟨threeInline.remove 1, ⟨1, [.inline 0, .inline 1, .inline 2]⟩⟩
      [.next, .next]).map Prod.fst = some [.item 3 30, .item 3 30] := by decide
  have heq : some results' = some [.item 3 30, .item 3 30] := by
    rw [← hgiven]
    exact (congrArg (Option.map Prod.fst) hrest).symm
  obtain rfl := Option.some.inj heq
  revert hresults
  decide

end Chloride
