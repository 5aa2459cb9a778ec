import Chloride.Containers.Counted
import Chloride.Hashmap.History

/-!
# The counts of the hash map

`hashmap_GC` keeps a count of its nodes and one of those in the chains, for the load test of an insertion.
Insertions and `clear_hashmap_GC` keep both right, and `hashmap_remove_GC` changes neither of them:
`HashmapGC.keepsCount_iff` says that a run keeps count exactly if it removes nothing, and gives no present
hash another value when the chains are just full.
-/

namespace Chloride.HashmapGC

variable {κ υ : Type*}

/-- An operation that changes a hash map. -/
inductive Change (κ υ : Type*) where
  | insert (hash : UInt64) (key : κ) (val : υ) (order : ℕ)
  | remove (hash : UInt64)
  | clear

def change (t : HashmapGC κ υ) : Change κ υ → Option (HashmapGC κ υ)
  | .insert hash key val order => t.insert hash key val order
  | .remove hash => some (t.remove hash).2
  | .clear => some t.clear

/-- The nodes in the chains. -/
def chained (t : HashmapGC κ υ) : List (NodeGC κ υ) := (t.list.getD []).flatten

/-- The counts are those of the live entries and of the nodes in the chains. -/
structure CountsRight (t : HashmapGC κ υ) : Prop where
  count : t.count = t.nodes.length
  hashmapCount : t.hashmapCount = t.chained.length

/-- The hash map as a table: its load threshold is three quarters of the buckets. -/
def table : Counted.Table (HashmapGC κ υ) (Change κ υ) where
  step := change
  live t := t.nodes.length
  places := size
  Right := CountsRight
  threshold n := 3 * n / 4
  grow n := if n ≠ 0 then n * 2 else 8
  factor := 8
  grow_le n := by split <;> omega

/-- An operation that keeps the counts and the load: a removal of an absent hash, and an insertion unless
its hash is in a chain, the chains are full and the entries no more than the threshold. -/
def Change.Counted (t : HashmapGC κ υ) : Change κ υ → Prop
  | .insert hash _ _ _ => ¬((∃ n ∈ t.chained, n.hash = hash) ∧
      3 * t.size < 4 * (t.chained.length + 1) ∧ 4 * t.nodes.length ≤ 3 * t.size)
  | .remove hash => ∀ n ∈ t.nodes, n.hash ≠ hash
  | .clear => True

/-! ## The counts -/

theorem updateVal_length {hash : UInt64} {val : υ} {ns ns' : List (NodeGC κ υ)}
    (h : updateVal hash val ns = some ns') : ns'.length = ns.length := by
  induction ns generalizing ns' with
  | nil => cases h
  | cons n ns ih =>
    rw [updateVal] at h
    split at h
    · cases h
      rfl
    · obtain ⟨ns'', hns'', rfl⟩ := Option.map_eq_some_iff.mp h
      rw [List.length_cons, List.length_cons, ih hns'']

theorem flatten_set_length {α : Type*} {bs : List (List α)} {pos : ℕ} (hpos : pos < bs.length)
    (b : List α) :
    (bs.set pos b).flatten.length + (bs.getD pos []).length = bs.flatten.length + b.length := by
  induction bs generalizing pos with
  | nil => cases hpos
  | cons c bs ih =>
    cases pos with
    | zero =>
      rw [List.set_cons_zero, List.getD_cons_zero, List.flatten_cons, List.flatten_cons,
        List.length_append, List.length_append]
      omega
    | succ pos =>
      have h := ih (Nat.lt_of_succ_lt_succ hpos)
      rw [List.set_cons_succ, List.getD_cons_succ, List.flatten_cons, List.flatten_cons,
        List.length_append, List.length_append]
      omega

theorem nodes_length (t : HashmapGC κ υ) :
    t.nodes.length = t.inlineValues.length + t.chained.length := List.length_append

/-- The counts change as the lengths do. -/
structure SameDrift (t t' : HashmapGC κ υ) : Prop where
  count : t'.count + t.nodes.length = t.count + t'.nodes.length
  hashmapCount : t'.hashmapCount + t.chained.length = t.hashmapCount + t'.chained.length

theorem SameDrift.countsRight {t t' : HashmapGC κ υ} (h : SameDrift t t') (ht : t.CountsRight) :
    t'.CountsRight := by
  have hcount := h.count
  have hchained := h.hashmapCount
  rw [ht.count] at hcount
  rw [ht.hashmapCount] at hchained
  exact ⟨by omega, by omega⟩

theorem insertBucket_sameDrift {t : HashmapGC κ υ} {bs : List (List (NodeGC κ υ))}
    (hbs : t.list = some bs) (hplaced : Placed t.size bs) (hash : UInt64) (key : κ) (val : υ)
    (order : ℕ) : SameDrift t (t.insertBucket hash key val order) := by
  have hpos : t.hashCode hash < bs.length := by
    rw [hashCode_eq hplaced.pow, hplaced.length]
    exact Nat.mod_lt _ hplaced.size_pos
  have hchained : t.chained.length = bs.flatten.length := by
    unfold chained
    rw [hbs, Option.getD_some]
  unfold insertBucket
  rw [hbs, Option.getD_some]
  dsimp only
  split
  case h_1 temp' hup =>
    have hset := flatten_set_length hpos temp'
    rw [updateVal_length hup] at hset
    have hsame : chained { t with list := some (bs.set (t.hashCode hash) temp') } =
        (bs.set (t.hashCode hash) temp').flatten := rfl
    constructor
    · rw [nodes_length, nodes_length, hsame]
      dsimp only
      omega
    · rw [hsame]
      dsimp only
      omega
  case h_2 hup =>
    have hset := flatten_set_length hpos (⟨hash, key, val, order⟩ :: bs.getD (t.hashCode hash) [])
    rw [List.length_cons] at hset
    constructor
    · rw [nodes_length, nodes_length]
      unfold chained at hchained ⊢
      dsimp only [Option.getD_some]
      omega
    · unfold chained at hchained ⊢
      dsimp only [Option.getD_some]
      omega

theorem resize_count {t t' : HashmapGC κ υ} (h : t.resize = some t') : t'.count = t.count := by
  by_cases hbig : intMax < if t.size ≠ 0 then t.size * 2 else 8
  · rw [resize, if_pos hbig] at h
    cases h
  · rw [resize, if_neg hbig] at h
    cases hlist : t.list with
    | none =>
      rw [hlist, Option.some.injEq] at h
      rw [← h]
    | some bs =>
      rw [hlist, Option.some.injEq] at h
      rw [← h]

theorem ResizeSpec.chained {t t' : HashmapGC κ υ} (h : ResizeSpec t t') :
    t'.chained.length = t.chained.length := by
  have hnodes := h.nodes.length_eq
  rw [nodes_length, nodes_length, h.inline] at hnodes
  omega

/-- The test for the load in an insertion, which is made behind the inline nodes. -/
def Crowded (t : HashmapGC κ υ) (hash : UInt64) : Prop :=
  (∀ n ∈ t.inlineValues, n.hash ≠ hash) ∧
  ¬(t.list.isNone ∧ t.inlineValues.length < inlineHashmapArraySize) ∧
  3 * t.size < 4 * (t.hashmapCount + 1)

/-- What an insertion does to the counts and the size. -/
structure Counting (t t' : HashmapGC κ υ) (hash : UInt64) : Prop where
  drift : SameDrift t t'
  crowded : t.Crowded hash → t'.size = if t.size ≠ 0 then t.size * 2 else 8
  roomy : ¬t.Crowded hash → t'.size = t.size

theorem insertBucket_size (t : HashmapGC κ υ) (hash : UInt64) (key : κ) (val : υ) (order : ℕ) :
    (t.insertBucket hash key val order).size = t.size := by
  unfold insertBucket
  dsimp only
  split <;> rfl

theorem insertOrdered_counting {t t' : HashmapGC κ υ} (ht : t.Shaped) {hash : UInt64} {key : κ}
    {val : υ} {order : ℕ} (h : t.insertOrdered hash key val order = some t') :
    Counting t t' hash := by
  unfold insertOrdered at h
  cases hup : updateVal hash val t.inlineValues with
  | some inlineValues =>
    have hinline : ¬t.Crowded hash := by
      intro hcrowded
      rw [updateVal_eq_none.mpr hcrowded.1] at hup
      cases hup
    rw [hup, Option.some.injEq] at h
    subst h
    refine ⟨⟨?_, rfl⟩, fun hcrowded => absurd hcrowded hinline, fun _ => rfl⟩
    have hlength := updateVal_length hup
    have hsame : chained { t with inlineValues := inlineValues } = t.chained := rfl
    rw [nodes_length, nodes_length, hsame]
    dsimp only
    omega
  | none =>
    have habsent := updateVal_eq_none.mp hup
    rw [hup] at h
    dsimp only at h
    split at h
    case isTrue hroom =>
      rw [Option.some.injEq] at h
      subst h
      refine ⟨⟨?_, rfl⟩, fun hcrowded => absurd hroom hcrowded.2.1, fun _ => rfl⟩
      rw [nodes_length, nodes_length, List.length_append, List.length_singleton]
      have hsame : chained { t with
          inlineValues := t.inlineValues ++ [⟨hash, key, val, order⟩], count := t.count + 1 } =
          t.chained := rfl
      rw [hsame]
      dsimp only
      omega
    case isFalse hfull =>
      split at h
      case isTrue hload =>
        obtain ⟨t₁, ht₁, rfl⟩ := Option.map_eq_some_iff.mp h
        have hresize := resize_spec ht ht₁
        obtain ⟨bs, hbs, hplaced⟩ := hresize.placed
        have hbucket := insertBucket_sameDrift hbs hplaced hash key val order
        have hcount : t₁.count = t.count := resize_count ht₁
        have hnodes := hresize.nodes.length_eq
        have hchained := hresize.chained
        have hdrift := hbucket.count
        have hdrift' := hbucket.hashmapCount
        rw [hresize.count] at hdrift'
        refine ⟨⟨by omega, by omega⟩, fun _ => ?_, fun hroomy => absurd ⟨habsent, hfull, hload⟩ hroomy⟩
        rw [insertBucket_size]
        exact hresize.size
      case isFalse hload =>
        rw [Option.some.injEq] at h
        subst h
        cases hlist : t.list with
        | none =>
          have hsize := ht.size hlist
          omega
        | some bs =>
          exact ⟨insertBucket_sameDrift hlist (ht.placed bs hlist) hash key val order,
            fun hcrowded => absurd hcrowded.2.2 hload, fun _ => insertBucket_size ..⟩

/-! ## The steps -/

theorem Inserted.hashes {ns ns' : List (NodeGC κ υ)} {n : NodeGC κ υ} (h : Inserted ns ns' n)
    (hnodup : (ns.map NodeGC.hash).Nodup) : (ns'.map NodeGC.hash).Nodup := by
  rcases h with ⟨-, hp⟩ | ⟨habsent, hp⟩
  · have hsame : (ns.map (setVal n.hash n.val)).map NodeGC.hash = ns.map NodeGC.hash := by
      rw [List.map_map]
      exact List.map_congr_left fun m _ => setVal_hash n.hash n.val m
    rw [(hp.map NodeGC.hash).nodup_iff, hsame]
    exact hnodup
  · rw [(hp.map NodeGC.hash).nodup_iff, List.map_cons, List.nodup_cons]
    refine ⟨fun hmem => ?_, hnodup⟩
    obtain ⟨m, hm, hmn⟩ := List.mem_map.mp hmem
    exact habsent m hm hmn

/-- The order that a node is given, and that the counter goes on with, is left aside. -/
theorem insert_eq (t : HashmapGC κ υ) (hash : UInt64) (key : κ) (val : υ) (order : ℕ) :
    ∃ c o, t.insert hash key val order = insertOrdered { t with order := c } hash key val o := by
  unfold insert
  split
  · exact ⟨_, _, rfl⟩
  · exact ⟨t.order, _, rfl⟩

theorem Shaped.with_order {t : HashmapGC κ υ} (ht : t.Shaped) (c : ℕ) :
    Shaped { t with order := c } := ⟨ht.hashes, ht.inline, ht.size, ht.placed, ht.load⟩

theorem Shaped.create : (create : HashmapGC κ υ).Shaped := Wf.create.shaped

theorem InsertSpec.shaped {t t' : HashmapGC κ υ} {n : NodeGC κ υ} (h : InsertSpec t t' n)
    (ht : t.Shaped) : t'.Shaped :=
  ⟨h.nodes.hashes ht.hashes, h.inline, h.size, h.placed, h.load⟩

theorem Shaped.remove {t : HashmapGC κ υ} (ht : t.Shaped) (hash : UInt64) :
    (t.remove hash).2.Shaped := by
  obtain ⟨-, hsize, hcount, hlength, hnone⟩ := t.remove_frame hash
  refine ⟨?_, hlength.trans ht.inline, ?_, ?_, ?_⟩
  · rw [ht.remove_nodes]
    exact ht.hashes.sublist (List.filter_sublist.map _)
  · rw [hnone, hsize]
    exact ht.size
  · rw [hsize]
    exact ht.remove_placed hash
  · rw [hcount, hsize]
    exact ht.load

theorem Shaped.clear {t : HashmapGC κ υ} (ht : t.Shaped) : t.clear.Shaped := by
  refine ⟨?_, Nat.zero_le _, ?_, ?_, Nat.zero_le _⟩
  · rw [clear_nodes]
    exact List.nodup_nil
  · intro hnone
    exact ht.size (Option.map_eq_none_iff.mp hnone)
  · intro bs hbs
    obtain ⟨bs', hbs', rfl⟩ := Option.map_eq_some_iff.mp hbs
    have hplaced := ht.placed bs' hbs'
    obtain ⟨k, hk⟩ := hplaced.pow
    have hsize : t.clear.size = 2^k := hk
    rw [hplaced.length, hk, hsize]
    exact placed_replicate k

theorem remove_count (t : HashmapGC κ υ) (hash : UInt64) : (t.remove hash).2.count = t.count := by
  rw [HashmapGC.remove]
  split
  · rfl
  · cases hlist : t.list with
    | none => rfl
    | some bs =>
      dsimp only
      split <;> rfl

/-- What is removed was there. -/
theorem exists_of_remove {t : HashmapGC κ υ} {hash : UInt64} (h : (t.remove hash).1 = true) :
    ∃ n ∈ t.nodes, n.hash = hash := by
  rw [remove_answer] at h
  obtain ⟨n, hn⟩ := Option.isSome_iff_exists.mp h
  unfold lookupNode at hn
  split at hn
  case h_1 m hm =>
    exact ⟨m, List.mem_append_left _ (List.mem_of_find?_eq_some hm), by simpa using List.find?_some hm⟩
  case h_2 =>
    cases hlist : t.list with
    | none =>
      rw [hlist] at hn
      cases hn
    | some bs =>
      rw [hlist] at hn
      have hmem := List.mem_of_find?_eq_some hn
      have hpos : t.hashCode hash < bs.length := by
        by_contra hlarge
        rw [List.getD_eq_default _ _ (not_lt.mp hlarge)] at hmem
        cases hmem
      rw [List.getD_eq_getElem _ _ hpos] at hmem
      refine ⟨n, ?_, by simpa using List.find?_some hn⟩
      rw [nodes_eq hlist]
      exact List.mem_append_right _ (List.mem_flatten_of_mem (List.getElem_mem hpos) hmem)

/-- A removal keeps right counts right exactly if it removes nothing. -/
theorem remove_countsRight_iff {t : HashmapGC κ υ} (ht : t.Shaped) (hright : t.CountsRight)
    (hash : UInt64) : (t.remove hash).2.CountsRight ↔ ∀ n ∈ t.nodes, n.hash ≠ hash := by
  have hcount : (t.remove hash).2.count = t.count := remove_count t hash
  constructor
  · intro h
    have hlength : (t.nodes.filter fun n => n.hash ≠ hash).length = t.nodes.length := by
      rw [← ht.remove_nodes, ← h.count, hcount, hright.count]
    intro n hn
    simpa using List.length_filter_eq_length_iff.mp hlength n hn
  · intro habsent
    have hanswer : (t.remove hash).1 = false := by
      by_contra hfound
      obtain ⟨n, hn, hnh⟩ := exists_of_remove (Bool.eq_true_of_not_eq_false hfound)
      exact habsent n hn hnh
    rw [remove_absent hanswer]
    exact hright

theorem clear_countsRight (t : HashmapGC κ υ) : t.clear.CountsRight := by
  have hempty := t.clear_nodes
  have hlength := t.clear.nodes_length
  rw [hempty, List.length_nil] at hlength
  refine ⟨?_, ?_⟩
  · rw [hempty]
    rfl
  · have hzero : t.clear.hashmapCount = 0 := rfl
    omega

/-- An insertion keeps right counts right, and grows a full table only unless it overwrites a value in
chains that are just full. -/
theorem insert_keeps_iff {t t' : HashmapGC κ υ} (ht : t.Shaped) (hright : t.CountsRight)
    {hash : UInt64} {key : κ} {val : υ} {order : ℕ} (h : t.insert hash key val order = some t') :
    t'.Shaped ∧ (t'.size = t.size ∨ t'.size = if t.size ≠ 0 then t.size * 2 else 8) ∧
      t'.CountsRight ∧ ((t.size < t'.size → 3 * t.size / 4 < t'.nodes.length) ↔
        ¬((∃ n ∈ t.chained, n.hash = hash) ∧
          3 * t.size < 4 * (t.chained.length + 1) ∧ 4 * t.nodes.length ≤ 3 * t.size)) := by
  obtain ⟨c, o, heq⟩ := t.insert_eq hash key val order
  rw [heq] at h
  have hspec := insertOrdered_spec (ht.with_order c) h
  have hcounting := insertOrdered_counting (ht.with_order c) h
  have hright' : CountsRight { t with order := c } := ⟨hright.count, hright.hashmapCount⟩
  have hnodes : Inserted t.nodes t'.nodes ⟨hash, key, val, o⟩ := hspec.nodes
  have hlength := nodes_length t
  have hcrowded : t.Crowded hash → t'.size = if t.size ≠ 0 then t.size * 2 else 8 := hcounting.crowded
  have hroomy : ¬t.Crowded hash → t'.size = t.size := hcounting.roomy
  refine ⟨hspec.shaped (ht.with_order c), ?_, hcounting.drift.countsRight hright', ?_⟩
  · by_cases h : t.Crowded hash
    · exact Or.inr (hcrowded h)
    · exact Or.inl (hroomy h)
  by_cases h : t.Crowded hash
  · have hsize := hcrowded h
    obtain ⟨hinline, hfull, hload⟩ := h
    rw [hright.hashmapCount] at hload
    have hgrows : t.size < t'.size := by
      rw [hsize]
      split <;> omega
    rw [imp_iff_right hgrows]
    rcases hnodes with ⟨⟨m, hm, hmh⟩, hp⟩ | ⟨habsent, hp⟩
    · -- A value is overwritten, in a chain.
      have hsame : t'.nodes.length = t.nodes.length := by
        rw [hp.length_eq, List.length_map]
      have hchained : ∃ n ∈ t.chained, n.hash = hash := by
        rcases List.mem_append.mp hm with hin | hin
        · exact absurd hmh (hinline m hin)
        · exact ⟨m, hin, hmh⟩
      rw [hsame]
      constructor
      · rintro hlt ⟨-, -, hle⟩
        omega
      · intro hnot
        by_contra hge
        exact hnot ⟨hchained, hload, by omega⟩
    · -- The new entry is one more than the threshold.
      have hmore : t'.nodes.length = t.nodes.length + 1 := hp.length_eq
      refine iff_of_true (by omega) fun hpresent => ?_
      obtain ⟨⟨m, hm, hmh⟩, -⟩ := hpresent
      exact habsent m (List.mem_append_right _ hm) hmh
  · refine iff_of_true (fun hgrows => ?_) fun hpresent => ?_
    · rw [hroomy h] at hgrows
      exact absurd hgrows (lt_irrefl _)
    · obtain ⟨⟨m, hm, hmh⟩, hload, -⟩ := hpresent
      refine h ⟨fun n hn hnh => ht.absent_of_inline ⟨n, hn, hnh⟩ m hm hmh, ?_, ?_⟩
      · rintro ⟨hnone, -⟩
        unfold chained at hm
        rw [Option.isNone_iff_eq_none.mp hnone] at hm
        cases hm
      · rwa [hright.hashmapCount]

/-- A history keeps count exactly if each of its operations keeps the counts and the load. -/
theorem keepsCount_iff (changes : List (Change κ υ)) :
    table.KeepsCount 0 (create : HashmapGC κ υ) changes ↔
      table.Meets (fun t op => op.Counted t) (create : HashmapGC κ υ) changes := by
  refine @Counted.Table.keepsCount_iff _ _ table Shaped _ ?_ ?_ ?_ _ Shaped.create _
    ⟨⟨rfl, rfl⟩, Nat.zero_le _⟩ changes
  · intro t op t' ht hright hstep
    cases op with
    | insert hash key val order => exact (insert_keeps_iff ht hright hstep).1
    | remove hash =>
      rw [← Option.some.inj hstep]
      exact ht.remove hash
    | clear =>
      rw [← Option.some.inj hstep]
      exact ht.clear
  · intro t op t' ht hright hstep
    cases op with
    | insert hash key val order => exact (insert_keeps_iff ht hright hstep).2.1
    | remove hash =>
      rw [← Option.some.inj hstep]
      exact Or.inl (t.remove_frame hash).2.1
    | clear =>
      rw [← Option.some.inj hstep]
      exact Or.inl rfl
  · intro t op t' ht hright hstep
    cases op with
    | insert hash key val order =>
      obtain ⟨-, -, hright', hfull⟩ := insert_keeps_iff ht hright hstep
      exact (and_iff_left hright').trans hfull
    | remove hash =>
      have heq := Option.some.inj hstep
      have hsize : t'.size = t.size := heq ▸ (t.remove_frame hash).2.1
      have hfull : table.GrowsFull t t' := fun hlt => absurd hlt hsize.not_gt
      rw [and_iff_right hfull, ← heq]
      exact remove_countsRight_iff ht hright hash
    | clear =>
      have heq := Option.some.inj hstep
      have hfull : table.GrowsFull t t' := fun hlt => absurd hlt (heq ▸ lt_irrefl _)
      refine iff_of_true ⟨hfull, ?_⟩ trivial
      rw [← heq]
      exact clear_countsRight t

end Chloride.HashmapGC
