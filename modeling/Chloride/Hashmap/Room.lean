import Chloride.Hashmap.Counters
import Chloride.Objects.DictionaryIteration

/-!
# Room for a copy

A hash map that exists can be copied: the entries of a map that only insertions and removals have made are
so few that a new map takes them one after the other. The number of buckets of a map fits an `int`, and no
more nodes are in its chains than its load allows; a new map has three of the entries inline before
it has a bucket.
-/

namespace Chloride.HashmapGC

variable {κ υ : Type}

/-- What holds of a map that insertions and removals have made. -/
structure Roomy (t : HashmapGC κ υ) : Prop where
  wf : t.Wf
  chained : t.chained.length ≤ t.hashmapCount
  size : t.size ≤ intMax

theorem resize_size_le {t t' : HashmapGC κ υ} (h : t.resize = some t') : t'.size ≤ intMax := by
  have hfits : ¬intMax < (if t.size ≠ 0 then t.size * 2 else 8) := by
    intro hbig
    rw [resize, if_pos hbig] at h
    cases h
  rw [resize, if_neg hfits] at h
  split at h
  · cases h
    exact not_lt.mp hfits
  · cases h
    exact not_lt.mp hfits

theorem insertOrdered_size_le {t t' : HashmapGC κ υ} (hsize : t.size ≤ intMax) {hash : UInt64} {key : κ}
    {val : υ} {order : ℕ} (h : t.insertOrdered hash key val order = some t') : t'.size ≤ intMax := by
  unfold insertOrdered at h
  split at h
  · cases h
    exact hsize
  · split at h
    · cases h
      exact hsize
    · split at h
      · obtain ⟨u, hu, rfl⟩ := Option.map_eq_some_iff.mp h
        rw [insertBucket_size]
        exact resize_size_le hu
      · cases h
        rw [insertBucket_size]
        exact hsize

theorem Roomy.create : (create : HashmapGC κ υ).Roomy := ⟨Wf.create, le_rfl, Nat.zero_le _⟩

theorem Roomy.insert {t t' : HashmapGC κ υ} (ht : t.Roomy) {hash : UInt64} {key : κ} {val : υ}
    (h : t.insert hash key val 0 = some t') : t'.Roomy := by
  obtain ⟨m, hm⟩ := ht.wf.refines
  have hins := h
  rw [HashmapGC.insert, if_pos rfl] at hins
  have hdrift := (insertOrdered_counting ht.wf.succ_order.shaped hins).drift.hashmapCount
  have hchained := ht.chained
  have hsame : HashmapGC.chained { t with order := t.order + 1 } = t.chained := rfl
  have hsize : HashmapGC.size { t with order := t.order + 1 } ≤ intMax := ht.size
  rw [hsame] at hdrift
  simp only at hdrift
  exact ⟨(hm.insert h).1.wf, by omega, insertOrdered_size_le hsize hins⟩

theorem Roomy.remove {t : HashmapGC κ υ} (ht : t.Roomy) (hash : UInt64) : (t.remove hash).2.Roomy := by
  obtain ⟨m, hm⟩ := ht.wf.refines
  obtain ⟨-, hsize, hcount, -, -⟩ := t.remove_frame hash
  refine ⟨(hm.remove hash).1.wf, ?_, by rw [hsize]; exact ht.size⟩
  rw [hcount]
  apply le_trans _ ht.chained
  rw [HashmapGC.remove]
  split
  · exact le_rfl
  · split
    · exact le_rfl
    · rename_i list hlist
      dsimp only
      split
      · have hlen : ∀ pos : ℕ, (list.set pos ((list.getD pos []).eraseP fun n => n.hash = hash)).flatten.length ≤
            list.flatten.length := by
          intro pos
          by_cases hpos : pos < list.length
          · have hset := flatten_set_length hpos ((list.getD pos []).eraseP fun n => n.hash = hash)
            have herase := List.length_eraseP_le (p := fun n : NodeGC κ υ => n.hash = hash) (l := list.getD pos [])
            omega
          · rw [List.set_eq_of_length_le (not_lt.mp hpos)]
        rw [HashmapGC.chained, HashmapGC.chained, hlist]
        exact hlen _
      · exact le_rfl

/-- The entries of such a map are as many as a new map has room for at most. -/
theorem Roomy.length_le {t : HashmapGC κ υ} (ht : t.Roomy) :
    t.nodes.length ≤ inlineHashmapArraySize + capacity := by
  have hinline := ht.wf.inline
  have hchained := ht.chained
  have hload := ht.wf.load
  have hsize : t.size ≤ 2^30 := by
    cases hlist : t.list with
    | none =>
      rw [ht.wf.size hlist]
      exact Nat.zero_le _
    | some bs =>
      obtain ⟨k, hk⟩ := (ht.wf.placed bs hlist).pow
      have hfits := ht.size
      rw [hk] at hfits ⊢
      have hlt : 2^k < 2^31 := lt_of_le_of_lt hfits (by decide)
      exact Nat.pow_le_pow_right Nat.zero_lt_two (Nat.lt_succ_iff.mp ((Nat.pow_lt_pow_iff_right Nat.one_lt_two).mp hlt))
  rw [nodes_length]
  unfold capacity
  omega

/-- A map that is filled without removals: a bucket is there only behind three inline entries. -/
structure Filling (t : HashmapGC κ υ) : Prop where
  counts : t.hashmapCount = t.chained.length
  inline : t.list = none ∨ t.inlineValues.length = inlineHashmapArraySize

theorem Filling.create : (create : HashmapGC κ υ).Filling := ⟨rfl, Or.inl rfl⟩

theorem Filling.insert {t t' : HashmapGC κ υ} (ht : t.Filling) (hwf : t.Wf) {hash : UInt64} {key : κ} {val : υ}
    (h : t.insert hash key val 0 = some t') : t'.Filling := by
  constructor
  · have hins := h
    rw [HashmapGC.insert, if_pos rfl] at hins
    have hdrift := (insertOrdered_counting hwf.succ_order.shaped hins).drift.hashmapCount
    have hcounts := ht.counts
    have hsame : chained { t with order := t.order + 1 } = t.chained := rfl
    rw [hsame] at hdrift
    simp only at hdrift
    omega
  · rcases insert_inlineValues hwf h with ⟨-, hinline, hlist⟩ | ⟨-, -, -, hlist⟩ | ⟨-, hfull, hinline⟩
    · rw [hlist, hinline, List.length_map]
      exact ht.inline
    · exact Or.inl hlist
    · rw [hinline]
      rcases ht.inline with hnone | hthree
      · have hroom := hwf.inline
        have hno : ¬t.inlineValues.length < inlineHashmapArraySize := fun hlt => hfull ⟨hnone, hlt⟩
        exact Or.inr (by omega)
      · exact Or.inr hthree

/-- It takes one more entry as long as it has fewer than there is room for. -/
theorem Filling.insert_isSome {t : HashmapGC κ υ} (ht : t.Filling)
    (hlt : t.nodes.length < inlineHashmapArraySize + capacity) (hash : UInt64) (key : κ) (val : υ) :
    (t.insert hash key val 0).isSome := by
  apply HashmapGC.insert_isSome
  have hlength := t.nodes_length
  rw [ht.counts]
  rcases ht.inline with hnone | hthree
  · rw [chained, hnone]
    exact Nat.pos_of_ne_zero (by decide)
  · omega

end Chloride.HashmapGC
