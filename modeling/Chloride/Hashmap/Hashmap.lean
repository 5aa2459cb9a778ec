import Chloride.Hashmap.Counters

/-!
# The hash map of the compiler

The hash map of `src/hashmap/hashmap.c`, which the parser, the translator and the representations of
containers use. It has chains only, and a count of their nodes; a resize inserts them all again.
`createHashmap` does not set the count, and `hashmap_remove` does not change it.

The chains are those of a `HashmapGC` without inline nodes (`toGC`), so that what is known of those is
used here. `resize` answers `none` when the new size does not fit an `int`.
-/

namespace Chloride

/-- `struct hashmap`. The fields of `struct node` are those of `struct node_GC`. -/
structure Hashmap (κ υ : Type*) where
  size : ℕ
  count : UInt64
  order : ℕ
  list : List (List (NodeGC κ υ))

namespace Hashmap

variable {κ υ : Type*}

/-- `createHashmap`. The count is what is in the memory that is allocated. -/
def create (count : UInt64) : Hashmap κ υ where
  size := 8
  count := count
  order := 1
  list := List.replicate 8 []

/-- `hashCode`. -/
def hashCode (t : Hashmap κ υ) (hash : UInt64) : ℕ := hash.toNat &&& (t.size - 1)

/-- `hashmap_insert` behind the test of the load. -/
def insertBucket (t : Hashmap κ υ) (hash : UInt64) (key : κ) (val : υ) (order : ℕ) : Hashmap κ υ :=
  let pos := t.hashCode hash
  let list := t.list.getD pos []
  match HashmapGC.updateVal hash val list with
  | some list' => { t with list := t.list.set pos list' }
  | none =>
    let newNode := { hash := hash, key := key, val := val, order := order }
    { t with list := t.list.set pos (newNode :: list), count := t.count + 1 }

/-- `hashmap_insert`, with the function that resizes. -/
def insertWith (resize : Hashmap κ υ → Option (Hashmap κ υ)) (t : Hashmap κ υ) (hash : UInt64)
    (key : κ) (val : υ) (order : ℕ) : Option (Hashmap κ υ) :=
  let t' := if order = 0 then { t with order := t.order + 1 } else t
  let order' := if order = 0 then t.order else order
  if 3 * t'.size < 4 * (t'.count + 1).toNat then
    (resize t').map fun t => t.insertBucket hash key val order'
  else some (t'.insertBucket hash key val order')

/-- The table that a resize starts from. -/
def emptied (t : Hashmap κ υ) : Hashmap κ υ :=
  let newSize := t.size * 2
  { t with list := List.replicate newSize [], size := newSize, count := 0 }

/-- `resize_hashmap`, which inserts every node again. An insertion that resizes once more is one level
deeper. -/
def resizeWithin : ℕ → Hashmap κ υ → Option (Hashmap κ υ)
  | 0, _ => none
  | depth + 1, t =>
    if intMax < t.size * 2 then none
    else t.list.flatten.foldlM
      (fun t temp => insertWith (resizeWithin depth) t temp.hash temp.key temp.val temp.order) t.emptied

/-- A size that doubles 32 times does not fit an `int`. -/
def resize (t : Hashmap κ υ) : Option (Hashmap κ υ) := resizeWithin 32 t

/-- `hashmap_insert` -/
def insert (t : Hashmap κ υ) (hash : UInt64) (key : κ) (val : υ) (order : ℕ) :
    Option (Hashmap κ υ) := insertWith resize t hash key val order

/-- `hashmap_remove`; the answer tells whether a node was removed. The count stays. -/
def remove (t : Hashmap κ υ) (hash : UInt64) : Bool × Hashmap κ υ :=
  let pos := t.hashCode hash
  let list := t.list.getD pos []
  if list.any fun n => n.hash = hash then
    (true, { t with list := t.list.set pos (list.eraseP fun n => n.hash = hash) })
  else (false, t)

/-- An operation that changes a hash map. -/
inductive Change (κ υ : Type*) where
  | insert (hash : UInt64) (key : κ) (val : υ) (order : ℕ)
  | remove (hash : UInt64)

def change (t : Hashmap κ υ) : Change κ υ → Option (Hashmap κ υ)
  | .insert hash key val order => t.insert hash key val order
  | .remove hash => some (t.remove hash).2

def nodes (t : Hashmap κ υ) : List (NodeGC κ υ) := t.list.flatten

theorem grow_le_threshold (n : ℕ) : n * 2 ≤ 8 * (3 * n / 4 + 1) := by omega

/-- The hash map as a table, with the load threshold that the other hash map has. -/
def table : Counted.Table (Hashmap κ υ) (Change κ υ) where
  step := change
  live t := t.nodes.length
  places := size
  Right t := t.count.toNat = t.nodes.length
  threshold n := 3 * n / 4
  grow n := n * 2
  factor := 8
  grow_le := grow_le_threshold

/-- An operation that keeps the count and the load: a removal of an absent hash, and an insertion unless
its hash is there and the table is full. -/
def Change.Counted (t : Hashmap κ υ) : Change κ υ → Prop
  | .insert hash _ _ _ => ¬((∃ n ∈ t.nodes, n.hash = hash) ∧ 3 * t.size < 4 * (t.nodes.length + 1))
  | .remove hash => ∀ n ∈ t.nodes, n.hash ≠ hash

/-! ## The chains -/

/-- The chains, as those of a hash map that has no inline nodes. -/
def toGC (t : Hashmap κ υ) : HashmapGC κ υ where
  size := t.size
  order := t.order
  list := some t.list
  hashmapCount := 0
  count := 0
  inlineValues := []

/-- What holds of a hash map that `createHashmap` made and the other functions changed. -/
structure Shaped (t : Hashmap κ υ) : Prop where
  hashes : (t.nodes.map NodeGC.hash).Nodup
  placed : HashmapGC.Placed t.size t.list
  size : 8 ≤ t.size ∧ t.size ≤ intMax
  load : 4 * t.nodes.length ≤ 3 * t.size

theorem toGC_hashCode {t : Hashmap κ υ} (ht : HashmapGC.Placed t.size t.list) (hash : UInt64) :
    t.toGC.hashCode hash = t.hashCode hash := if_pos ht.size_pos.ne'

theorem Shaped.toGC {t : Hashmap κ υ} (ht : t.Shaped) : t.toGC.Shaped where
  hashes := ht.hashes
  inline := Nat.zero_le _
  size h := nomatch h
  placed bs h := by
    rw [← Option.some.inj h]
    exact ht.placed
  load := Nat.zero_le _

theorem toGC_remove {t : Hashmap κ υ} (ht : t.Shaped) (hash : UInt64) :
    t.toGC.remove hash = ((t.remove hash).1, (t.remove hash).2.toGC) := by
  have hpos := toGC_hashCode ht.placed hash
  have hinline : ¬(t.toGC.inlineValues.any fun n => n.hash = hash) = true := Bool.false_ne_true
  unfold HashmapGC.remove remove
  rw [if_neg hinline, hpos]
  dsimp only [Hashmap.toGC]
  split <;> rfl

/-- What an insertion does behind the test of the load. -/
theorem insertBucket_spec {t : Hashmap κ υ} (hplaced : HashmapGC.Placed t.size t.list)
    (hhashes : (t.nodes.map NodeGC.hash).Nodup) (hash : UInt64) (key : κ) (val : υ) (order : ℕ) :
    HashmapGC.Inserted t.nodes (t.insertBucket hash key val order).nodes ⟨hash, key, val, order⟩ ∧
      HashmapGC.Placed t.size (t.insertBucket hash key val order).list ∧
      (t.insertBucket hash key val order).size = t.size := by
  have hspec := @HashmapGC.insertBucket_spec κ υ t.toGC _ rfl hplaced hhashes hash
    (fun _ h => nomatch h) key val order
  have hlist : (t.toGC.insertBucket hash key val order).list =
      some (t.insertBucket hash key val order).list := by
    have hpos := toGC_hashCode hplaced hash
    unfold HashmapGC.insertBucket insertBucket
    rw [hpos]
    dsimp only [Hashmap.toGC, Option.getD_some]
    cases HashmapGC.updateVal hash val (t.list.getD (t.hashCode hash) []) <;> rfl
  have hnodes : (t.toGC.insertBucket hash key val order).nodes =
      (t.insertBucket hash key val order).nodes := by
    rw [HashmapGC.nodes_eq hlist, hspec.inline]
    rfl
  obtain ⟨bs, hbs, hplaced'⟩ := hspec.placed
  rw [hlist, Option.some.injEq] at hbs
  refine ⟨hnodes ▸ hspec.nodes, hbs ▸ hplaced', ?_⟩
  unfold insertBucket
  dsimp only
  split <;> rfl

/-- The count changes as the number of nodes does. -/
theorem insertBucket_count {t : Hashmap κ υ} (ht : t.Shaped) (hash : UInt64) (key : κ) (val : υ)
    (order : ℕ) {t' : Hashmap κ υ} (h : t.insertBucket hash key val order = t') :
    (t'.count = t.count ∧ t'.nodes.length = t.nodes.length) ∨
      (t'.count = t.count + 1 ∧ t'.nodes.length = t.nodes.length + 1) := by
  have hpos : t.hashCode hash < t.list.length := by
    rw [← toGC_hashCode ht.placed, HashmapGC.hashCode_eq ht.placed.pow, ht.placed.length]
    exact Nat.mod_lt _ ht.placed.size_pos
  unfold insertBucket at h
  dsimp only at h
  split at h
  case h_1 list' hup =>
    have hset := HashmapGC.flatten_set_length hpos list'
    rw [HashmapGC.updateVal_length hup] at hset
    subst h
    refine Or.inl ⟨rfl, ?_⟩
    show (t.list.set (t.hashCode hash) list').flatten.length = t.list.flatten.length
    omega
  case h_2 hup =>
    have hset := HashmapGC.flatten_set_length hpos
      (⟨hash, key, val, order⟩ :: t.list.getD (t.hashCode hash) [])
    rw [List.length_cons] at hset
    subst h
    refine Or.inr ⟨rfl, ?_⟩
    show (t.list.set (t.hashCode hash) _).flatten.length = t.list.flatten.length + 1
    omega

/-- A map that is shaped and whose count is right. -/
structure Counting (t : Hashmap κ υ) : Prop extends t.Shaped where
  count : t.count.toNat = t.nodes.length

/-- A right count does not wrap around. -/
theorem Counting.count_succ {t : Hashmap κ υ} (ht : t.Counting) :
    (t.count + 1).toNat = t.nodes.length + 1 := by
  have hload := ht.load
  have hsize := ht.size.2
  have hcount := ht.count
  unfold intMax at hsize
  rw [UInt64.toNat_add, hcount]
  show (t.nodes.length + 1) % 2^64 = _
  omega

/-- A node in a table that has room for it. -/
theorem Counting.insertBucket {t : Hashmap κ υ} (ht : t.Counting)
    (hroom : 4 * (t.nodes.length + 1) ≤ 3 * t.size) (hash : UInt64) (key : κ) (val : υ) (order : ℕ) :
    (t.insertBucket hash key val order).Counting := by
  obtain ⟨hnodes, hplaced, hsize⟩ := insertBucket_spec ht.placed ht.hashes hash key val order
  have hcount := insertBucket_count ht.toShaped hash key val order rfl
  have hsucc := ht.count_succ
  refine ⟨⟨hnodes.hashes ht.hashes, hsize ▸ hplaced, hsize ▸ ht.size, ?_⟩, ?_⟩
  · rw [hsize]
    rcases hcount with ⟨-, hlength⟩ | ⟨-, hlength⟩ <;> omega
  · rcases hcount with ⟨hcount, hlength⟩ | ⟨hcount, hlength⟩
    · rw [hcount, hlength, ht.count]
    · rw [hcount, hlength, hsucc]

/-- The order that a node is given is left aside. -/
theorem insertWith_eq (resize : Hashmap κ υ → Option (Hashmap κ υ)) (t : Hashmap κ υ) (hash : UInt64)
    (key : κ) (val : υ) (order : ℕ) : ∃ c o,
      insertWith resize t hash key val order =
        if 3 * t.size < 4 * (t.count + 1).toNat then
          (resize { t with order := c }).map fun t => t.insertBucket hash key val o
        else some (insertBucket { t with order := c } hash key val o) := by
  unfold insertWith
  by_cases h : order = 0
  · rw [if_pos h, if_pos h]
    exact ⟨_, _, rfl⟩
  · rw [if_neg h, if_neg h]
    exact ⟨t.order, _, rfl⟩

theorem Counting.with_order {t : Hashmap κ υ} (ht : t.Counting) (c : ℕ) :
    Counting { t with order := c } := ⟨⟨ht.hashes, ht.placed, ht.size, ht.load⟩, ht.count⟩

/-- Nodes with hashes of their own that are inserted into a table with room for them. -/
theorem foldlM_insertWith (resize : Hashmap κ υ → Option (Hashmap κ υ)) {ns : List (NodeGC κ υ)}
    {t : Hashmap κ υ} (ht : t.Counting) (hnodup : (ns.map NodeGC.hash ++ t.nodes.map NodeGC.hash).Nodup)
    (hroom : 4 * (t.nodes.length + ns.length) ≤ 3 * t.size) :
    ∃ t', ns.foldlM (fun t temp => insertWith resize t temp.hash temp.key temp.val temp.order) t =
        some t' ∧ t'.Counting ∧ t'.size = t.size ∧
      (t'.nodes.map NodeGC.hash).Perm (ns.map NodeGC.hash ++ t.nodes.map NodeGC.hash) := by
  induction ns generalizing t with
  | nil => exact ⟨t, rfl, ht, rfl, List.Perm.refl _⟩
  | cons n ns ih =>
    rw [List.map_cons, List.cons_append, List.nodup_cons] at hnodup
    rw [List.length_cons] at hroom
    obtain ⟨c, o, heq⟩ := insertWith_eq resize t n.hash n.key n.val n.order
    have hlight : ¬3 * t.size < 4 * (t.count + 1).toNat := by
      rw [ht.count_succ]
      omega
    rw [if_neg hlight] at heq
    have hcounting := (ht.with_order c).insertBucket (by show 4 * (t.nodes.length + 1) ≤ 3 * t.size; omega)
      n.hash n.key n.val o
    obtain ⟨hnodes, -, hsize⟩ := insertBucket_spec (ht.with_order c).placed (ht.with_order c).hashes n.hash n.key n.val o
    -- The hash is not there yet.
    have hperm : (insertBucket { t with order := c } n.hash n.key n.val o).nodes.Perm
        (⟨n.hash, n.key, n.val, o⟩ :: t.nodes) := by
      rcases hnodes with ⟨⟨m, hm, hmh⟩, -⟩ | ⟨-, hp⟩
      · refine absurd (List.mem_append_right _ ?_) hnodup.1
        exact List.mem_map.mpr ⟨m, hm, hmh⟩
      · exact hp
    have hhashes := hperm.map NodeGC.hash
    rw [List.map_cons] at hhashes
    have hmiddle := (hhashes.append_left (ns.map NodeGC.hash)).trans List.perm_middle
    obtain ⟨t', ht', hcounting', hsize', hperm'⟩ := ih hcounting
      (hmiddle.nodup_iff.mpr (List.nodup_cons.mpr hnodup)) (by
        rw [hperm.length_eq, hsize, List.length_cons]
        show 4 * (t.nodes.length + 1 + ns.length) ≤ 3 * t.size
        omega)
    refine ⟨t', ?_, hcounting', hsize'.trans hsize, hperm'.trans hmiddle⟩
    rw [List.foldlM_cons, heq]
    exact ht'

/-- A resize doubles the size of the table and keeps its hashes. -/
theorem Counting.resize {t t' : Hashmap κ υ} (ht : t.Counting) (h : t.resize = some t') :
    t'.Counting ∧ t'.size = t.size * 2 ∧
      (t'.nodes.map NodeGC.hash).Perm (t.nodes.map NodeGC.hash) := by
  unfold Hashmap.resize at h
  rw [resizeWithin] at h
  split at h
  case isTrue => cases h
  case isFalse hfits =>
    obtain ⟨k, hk⟩ := ht.placed.pow
    have hload := ht.load
    have hempty : t.emptied.nodes = [] := List.flatten_replicate_nil
    have hsize := ht.size.1
    have hcounting : t.emptied.Counting := by
      refine ⟨⟨?_, ?_, ⟨?_, not_lt.mp hfits⟩, ?_⟩, ?_⟩
      · rw [hempty]
        exact List.nodup_nil
      · show HashmapGC.Placed (t.size * 2) (List.replicate (t.size * 2) [])
        rw [hk, ← Nat.pow_succ]
        exact HashmapGC.placed_replicate (k + 1)
      · show 8 ≤ t.size * 2
        omega
      · rw [hempty]
        exact Nat.zero_le _
      · rw [hempty]
        rfl
    obtain ⟨t'', ht'', hcounting'', hsize'', hperm⟩ := @foldlM_insertWith _ _ (resizeWithin 31)
      t.list.flatten _ hcounting (by
        rw [hempty, List.map_nil, List.append_nil]
        exact ht.hashes) (by
        rw [hempty, List.length_nil]
        show 4 * (0 + t.nodes.length) ≤ 3 * (t.size * 2)
        omega)
    rw [ht'', Option.some.injEq] at h
    subst h
    rw [hempty, List.map_nil, List.append_nil] at hperm
    exact ⟨hcounting'', hsize'', hperm⟩

/-- An insertion keeps a right count right, and grows a full table only unless it overwrites a value. -/
theorem Counting.insert {t t' : Hashmap κ υ} (ht : t.Counting) {hash : UInt64} {key : κ} {val : υ}
    {order : ℕ} (h : t.insert hash key val order = some t') :
    t'.Counting ∧ (t'.size = t.size ∨ t'.size = t.size * 2) ∧
      ((t.size < t'.size → 3 * t.size / 4 < t'.nodes.length) ↔
        ¬((∃ n ∈ t.nodes, n.hash = hash) ∧ 3 * t.size < 4 * (t.nodes.length + 1))) := by
  obtain ⟨c, o, heq⟩ := insertWith_eq Hashmap.resize t hash key val order
  have hload := ht.load
  rw [ht.count_succ] at heq
  rw [Hashmap.insert, heq] at h
  by_cases hcrowded : 3 * t.size < 4 * (t.nodes.length + 1)
  · rw [if_pos hcrowded] at h
    obtain ⟨t₁, ht₁, rfl⟩ := Option.map_eq_some_iff.mp h
    obtain ⟨hcounting, hsize, hperm⟩ := (ht.with_order c).resize ht₁
    have hsize₁ : t₁.size = t.size * 2 := hsize
    have hlength : t₁.nodes.length = t.nodes.length := by
      have hlengths := hperm.length_eq
      rwa [List.length_map, List.length_map] at hlengths
    have height := ht.size.1
    obtain ⟨hnodes, -, hsize'⟩ := insertBucket_spec hcounting.placed hcounting.hashes hash key val o
    refine ⟨hcounting.insertBucket (by omega) hash key val o, Or.inr (hsize'.trans hsize), ?_⟩
    have hpresent (hash : UInt64) : (∃ n ∈ t₁.nodes, n.hash = hash) ↔ ∃ n ∈ t.nodes, n.hash = hash := by
      have hmem := hperm.mem_iff (a := hash)
      rwa [List.mem_map, List.mem_map] at hmem
    rw [hsize', hsize₁, imp_iff_right (by omega), and_iff_left hcrowded, ← hpresent]
    rcases hnodes with ⟨hthere, hp⟩ | ⟨habsent, hp⟩
    · -- A value is overwritten: there are no more entries than before.
      rw [hp.length_eq, List.length_map, hlength]
      exact iff_of_false (by omega) (not_not.mpr hthere)
    · rw [hp.length_eq, List.length_cons, hlength]
      refine iff_of_true (by omega) ?_
      rintro ⟨m, hm, hmh⟩
      exact habsent m hm hmh
  · rw [if_neg hcrowded, Option.some.injEq] at h
    subst h
    obtain ⟨-, -, hsize⟩ := insertBucket_spec (ht.with_order c).placed (ht.with_order c).hashes hash key val o
    have hsame : (Hashmap.insertBucket { t with order := c } hash key val o).size = t.size := hsize
    refine ⟨(ht.with_order c).insertBucket (not_lt.mp hcrowded) hash key val o, Or.inl hsame, ?_⟩
    rw [hsame]
    exact iff_of_true (fun hlt => absurd hlt (lt_irrefl _)) fun hboth => hcrowded hboth.2

/-- A removal keeps a right count right exactly if it removes nothing. -/
theorem Counting.remove {t : Hashmap κ υ} (ht : t.Counting) (hash : UInt64) :
    (t.remove hash).2.Shaped ∧ (t.remove hash).2.size = t.size ∧
      ((t.remove hash).2.count.toNat = (t.remove hash).2.nodes.length ↔
        ∀ n ∈ t.nodes, n.hash ≠ hash) := by
  have hGC := toGC_remove ht.toShaped hash
  have hnodes := ht.toShaped.toGC.remove_nodes hash
  have hshaped := ht.toShaped.toGC.remove hash
  obtain ⟨-, hsize, -⟩ := t.toGC.remove_frame hash
  rw [hGC] at hnodes hshaped hsize
  have hsize' : (t.remove hash).2.size = t.size := hsize
  have hnodes' : (t.remove hash).2.nodes = t.nodes.filter fun n => n.hash ≠ hash := hnodes
  have hcount : (t.remove hash).2.count = t.count := by
    unfold Hashmap.remove
    dsimp only
    split <;> rfl
  refine ⟨⟨hshaped.hashes, hshaped.placed _ rfl, hsize' ▸ ht.size, ?_⟩, hsize', ?_⟩
  · rw [hsize', hnodes']
    have hle := List.length_filter_le (fun n : NodeGC κ υ => n.hash ≠ hash) t.nodes
    have hload := ht.load
    omega
  · rw [hcount, ht.count, hnodes', eq_comm, List.length_filter_eq_length_iff]
    simp only [decide_eq_true_eq]

/-- A history keeps count exactly if the memory of the count was zero, and each of its operations keeps
the count and the load. -/
theorem keepsCount_iff (count : UInt64) (changes : List (Change κ υ)) :
    table.KeepsCount 0 (create count : Hashmap κ υ) changes ↔
      count = 0 ∧ table.Meets (fun t op => op.Counted t) (create count : Hashmap κ υ) changes := by
  have hempty : (create count : Hashmap κ υ).nodes = [] := List.flatten_replicate_nil
  have hshaped : (create count : Hashmap κ υ).Shaped := by
    refine ⟨?_, HashmapGC.placed_replicate 3, ⟨le_rfl, by show 8 ≤ intMax; decide⟩, ?_⟩
    · rw [hempty]
      exact List.nodup_nil
    · rw [hempty]
      exact Nat.zero_le _
  have hzero : (create count : Hashmap κ υ).count.toNat = (create count : Hashmap κ υ).nodes.length ↔
      count = 0 := by
    rw [hempty, ← UInt64.toNat_inj]
    rfl
  by_cases hcount : count = 0
  · rw [and_iff_right hcount]
    refine @Counted.Table.keepsCount_iff _ _ table Shaped _ ?_ ?_ ?_ _ hshaped _
      ⟨hzero.mpr hcount, le_rfl⟩ changes
    · intro t op t' ht hright hstep
      cases op with
      | insert hash key val order => exact (Counting.insert ⟨ht, hright⟩ hstep).1.toShaped
      | remove hash =>
        rw [← Option.some.inj hstep]
        exact (Counting.remove ⟨ht, hright⟩ hash).1
    · intro t op t' ht hright hstep
      cases op with
      | insert hash key val order => exact (Counting.insert ⟨ht, hright⟩ hstep).2.1
      | remove hash =>
        rw [← Option.some.inj hstep]
        exact Or.inl (Counting.remove ⟨ht, hright⟩ hash).2.1
    · intro t op t' ht hright hstep
      cases op with
      | insert hash key val order =>
        obtain ⟨hcounting, -, hfull⟩ := Counting.insert ⟨ht, hright⟩ hstep
        exact (and_iff_left hcounting.count).trans hfull
      | remove hash =>
        obtain ⟨-, hsize, hcount⟩ := Counting.remove ⟨ht, hright⟩ hash
        rw [← Option.some.inj hstep]
        have hfull : table.GrowsFull t (t.remove hash).2 := fun hlt => absurd hlt hsize.not_gt
        exact (and_iff_right hfull).trans hcount
  · refine iff_of_false (fun h => hcount ?_) fun h => hcount h.1
    cases changes with
    | nil => exact hzero.mp h.1
    | cons op ops => exact hzero.mp h.1.1

end Hashmap

/-- A history of either hash map keeps count exactly if it removes no entry and overwrites none that would
make a table grow that is just full, and, for the hash map of the compiler, if the memory of its count is
zero when it is allocated. -/
theorem hashmaps_keep_count_iff {κ υ : Type*} (changesGC : List (HashmapGC.Change κ υ)) (count : UInt64)
    (changes : List (Hashmap.Change κ υ)) :
    (HashmapGC.table.KeepsCount 0 HashmapGC.create changesGC ↔
      HashmapGC.table.Meets (fun t op => op.Counted t) HashmapGC.create changesGC) ∧
    (Hashmap.table.KeepsCount 0 (Hashmap.create count) changes ↔
      count = 0 ∧ Hashmap.table.Meets (fun t op => op.Counted t) (Hashmap.create count) changes) :=
  ⟨HashmapGC.keepsCount_iff changesGC, Hashmap.keepsCount_iff count changes⟩

/-- An entry that is inserted and removed is still counted, in either hash map. -/
theorem not_forall_keepsCount :
    (¬∀ changes : List (HashmapGC.Change Unit Unit),
      HashmapGC.table.KeepsCount 0 HashmapGC.create changes) ∧
    ¬∀ changes : List (Hashmap.Change Unit Unit),
      Hashmap.table.KeepsCount 0 (Hashmap.create 0) changes := by
  constructor
  · intro h
    have hmeets := (HashmapGC.keepsCount_iff _).mp (h [.insert 1 () () 0, .remove 1])
    obtain ⟨-, hrest⟩ := hmeets _ rfl
    exact (hrest _ rfl).1 ⟨1, (), (), 1⟩ List.mem_cons_self rfl
  · intro h
    have hmeets := ((Hashmap.keepsCount_iff 0 _).mp (h [.insert 1 () () 0, .remove 1])).2
    obtain ⟨-, hrest⟩ := hmeets _ rfl
    exact (hrest _ rfl).1 ⟨1, (), (), 1⟩ (by decide) rfl

end Chloride
