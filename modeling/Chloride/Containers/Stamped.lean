import Mathlib

/-!
# Lists of stamped items

A collection kept in several places can still have one order, when each item carries a natural
number, its stamp, and the stamps are distinct. `sortByStamp` is that order. The file shows that it
depends only on which items there are, not on where they are kept, and that it commutes with the
operations a container makes: a change that leaves the stamps, a filter, and an item with a stamp
above all others. An item can also be looked up by a key that is its own, and that does not depend on
where the items are kept either.
-/

namespace Stamped

variable {α β : Type*} (stamp : α → ℕ)

/-- The items in ascending order of their stamps. -/
def sortByStamp (l : List α) : List α := l.mergeSort fun a b => decide (stamp a ≤ stamp b)

/-- The items are listed in strictly ascending order of their stamps. -/
def Ascending (l : List α) : Prop := l.Pairwise fun a b => stamp a < stamp b

theorem sortByStamp_perm (l : List α) : (sortByStamp stamp l).Perm l :=
  List.mergeSort_perm l _

/-- Distinct stamps sort into a strictly ascending list. -/
theorem sortByStamp_ascending {l : List α} (h : (l.map stamp).Nodup) :
    Ascending stamp (sortByStamp stamp l) := by
  have hle : (sortByStamp stamp l).Pairwise fun a b => stamp a ≤ stamp b := by
    have htrans : ∀ a b c : α, decide (stamp a ≤ stamp b) = true →
        decide (stamp b ≤ stamp c) = true → decide (stamp a ≤ stamp c) = true := by
      intro a b c hab hbc
      rw [decide_eq_true_eq] at hab hbc ⊢
      omega
    have htotal : ∀ a b : α, (decide (stamp a ≤ stamp b) || decide (stamp b ≤ stamp a)) = true := by
      intro a b
      rw [Bool.or_eq_true, decide_eq_true_eq, decide_eq_true_eq]
      omega
    exact (List.pairwise_mergeSort htrans htotal l).imp fun {a b} hab => by simpa using hab
  -- Sorting keeps the stamps, so no two of them are equal.
  have hne : (sortByStamp stamp l).Pairwise fun a b => stamp a ≠ stamp b := by
    have hnodup : ((sortByStamp stamp l).map stamp).Nodup :=
      ((sortByStamp_perm stamp l).map stamp).nodup_iff.mpr h
    exact List.pairwise_map.mp hnodup
  exact (hle.and hne).imp fun ⟨hab, hab'⟩ => Nat.lt_of_le_of_ne hab hab'

/-- Two strictly ascending lists of the same items are equal. -/
theorem Ascending.eq_of_perm {l l' : List α} (hl : Ascending stamp l) (hl' : Ascending stamp l')
    (hp : l.Perm l') : l = l' := by
  refine hp.eq_of_pairwise ?_ hl hl'
  intro a b _ _ hab hba
  exact absurd hab (Nat.lt_asymm hba)

/-- The sorted list is the only strictly ascending list of the items. -/
theorem sortByStamp_eq {l l' : List α} (hl' : Ascending stamp l') (hp : l'.Perm l) :
    sortByStamp stamp l = l' := by
  have hnodup : (l.map stamp).Nodup := by
    refine (hp.map stamp).nodup_iff.mp (List.pairwise_map.mpr ?_)
    exact hl'.imp fun hab => Nat.ne_of_lt hab
  exact (sortByStamp_ascending stamp hnodup).eq_of_perm stamp hl'
    ((sortByStamp_perm stamp l).trans hp.symm)

/-- Sorting does not depend on the arrangement of the items. -/
theorem sortByStamp_congr {l l' : List α} (h : (l'.map stamp).Nodup) (hp : l.Perm l') :
    sortByStamp stamp l = sortByStamp stamp l' :=
  sortByStamp_eq stamp (sortByStamp_ascending stamp h)
    ((sortByStamp_perm stamp l').trans hp.symm)

/-- A change of the items that leaves their stamps commutes with the sorting. -/
theorem sortByStamp_map {l : List α} (f : α → α) (hf : ∀ a, stamp (f a) = stamp a)
    (h : (l.map stamp).Nodup) : sortByStamp stamp (l.map f) = (sortByStamp stamp l).map f := by
  refine sortByStamp_eq stamp ?_ ((sortByStamp_perm stamp l).map f)
  refine List.pairwise_map.mpr ((sortByStamp_ascending stamp h).imp fun {a b} hab => ?_)
  rwa [hf, hf]

/-- Dropping items commutes with the sorting. -/
theorem sortByStamp_filter {l : List α} (p : α → Bool) (h : (l.map stamp).Nodup) :
    sortByStamp stamp (l.filter p) = (sortByStamp stamp l).filter p :=
  sortByStamp_eq stamp ((sortByStamp_ascending stamp h).filter p)
    ((sortByStamp_perm stamp l).filter p)

/-- An item with a stamp above all others sorts to the end. -/
theorem sortByStamp_cons_of_lt {l : List α} {a : α} (h : (l.map stamp).Nodup)
    (hlt : ∀ b ∈ l, stamp b < stamp a) :
    sortByStamp stamp (a :: l) = sortByStamp stamp l ++ [a] := by
  refine sortByStamp_eq stamp ?_ ?_
  · refine List.pairwise_append.mpr ⟨sortByStamp_ascending stamp h, by simp, ?_⟩
    intro b hb c hc
    rw [List.mem_singleton.mp hc]
    exact hlt b ((sortByStamp_perm stamp l).mem_iff.mp hb)
  · exact (List.perm_append_singleton a _).trans ((sortByStamp_perm stamp l).cons a)

/-- Forgetting a part of the items that the stamps do not depend on commutes with the sorting. -/
theorem map_sortByStamp (f : β → α) (l : List β) :
    (sortByStamp (stamp ∘ f) l).map f = sortByStamp stamp (l.map f) :=
  List.map_mergeSort fun _ _ _ _ => rfl

/-! ## Looking items up -/

section Keys

variable {γ : Type*} [DecidableEq γ] {key : α → γ}

/-- Where keys are distinct, the search finds the one item with the key. -/
theorem find?_eq_some {l : List α} (hnodup : (l.map key).Nodup) {k : γ} {a : α} :
    (l.find? fun b => key b = k) = some a ↔ a ∈ l ∧ key a = k := by
  constructor
  · intro h
    exact ⟨List.mem_of_find?_eq_some h, by simpa using List.find?_some h⟩
  · rintro ⟨ha, rfl⟩
    obtain ⟨b, hb⟩ : ∃ b, (l.find? fun b => key b = key a) = some b := by
      rw [← Option.isSome_iff_exists, List.find?_isSome]
      exact ⟨a, ha, by simp⟩
    have hba : b = a :=
      List.inj_on_of_nodup_map hnodup (List.mem_of_find?_eq_some hb) ha
        (by simpa using List.find?_some hb)
    rw [hb, hba]

/-- Searching does not depend on the arrangement of the items. -/
theorem find?_perm {l l' : List α} (hnodup : (l.map key).Nodup) (hp : l.Perm l') (k : γ) :
    (l.find? fun b => key b = k) = l'.find? fun b => key b = k := by
  have hnodup' : (l'.map key).Nodup := (hp.map key).nodup_iff.mp hnodup
  ext a
  rw [find?_eq_some hnodup, find?_eq_some hnodup', hp.mem_iff]

/-- An item that is taken out and kept beside the others is not lost. -/
theorem eraseP_append_find?_perm (p : α → Bool) (l : List α) :
    (l.eraseP p ++ (l.find? p).toList).Perm l := by
  induction l with
  | nil => exact List.Perm.refl _
  | cons a l ih =>
    by_cases ha : p a = true
    · rw [List.eraseP_cons_of_pos ha, List.find?_cons_of_pos ha]
      exact List.perm_append_singleton a l
    · rw [List.eraseP_cons_of_neg ha, List.find?_cons_of_neg ha]
      exact ih.cons a

end Keys

end Stamped
