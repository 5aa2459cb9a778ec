import Mathlib

/-!
# Lists whose items are exchanged

What an algorithm does to an array in place when it only exchanges items between `lo` and `hi`, the latter
not included: the items stay the same up to their order, those outside stay where they are, and what holds
for all of the items between still does. And what it is for the items between to be in order, with the rules
for two parts that a pivot separates and for an item that is inserted.
-/

namespace Shuffling

variable {α : Type*}

/-- Two items between `lo` and `hi` are exchanged. -/
def Exchange (lo hi : ℕ) (a b : List α) : Prop :=
  ∃ i j x y, (lo ≤ i ∧ i < hi) ∧ (lo ≤ j ∧ j < hi) ∧ a[i]? = some x ∧ a[j]? = some y ∧
    b = (a.set i y).set j x

/-- Items between `lo` and `hi` are exchanged, any number of times. -/
abbrev Shuffle (lo hi : ℕ) : List α → List α → Prop := Relation.ReflTransGen (Exchange lo hi)

/-- All items between `lo` and `hi` have a property. -/
def Among (P : α → Prop) (lo hi : ℕ) (a : List α) : Prop :=
  ∀ k x, lo ≤ k → k < hi → a[k]? = some x → P x

/-- The items between `lo` and `hi` are in order. -/
def Ordered (le : α → α → Prop) (lo hi : ℕ) (a : List α) : Prop :=
  ∀ i j x y, lo ≤ i → i < j → j < hi → a[i]? = some x → a[j]? = some y → le x y

variable {lo hi : ℕ} {a b : List α} {P : α → Prop} {le : α → α → Prop}

/-! ## Exchanges -/

/-- The items after an exchange. -/
theorem getElem?_exchange {i j : ℕ} {x y : α} (hx : i < a.length) (hy : j < a.length) (k : ℕ) :
    ((a.set i y).set j x)[k]? = if k = j then some x else if k = i then some y else a[k]? := by
  by_cases hkj : k = j
  · rw [if_pos hkj, hkj, List.getElem?_set_self (by rw [List.length_set]; exact hy)]
  · rw [if_neg hkj, List.getElem?_set_ne (Ne.symm hkj)]
    by_cases hki : k = i
    · rw [if_pos hki, hki, List.getElem?_set_self hx]
    · rw [if_neg hki, List.getElem?_set_ne (Ne.symm hki)]

namespace Exchange

theorem length (h : Exchange lo hi a b) : b.length = a.length := by
  obtain ⟨i, j, x, y, -, -, -, -, rfl⟩ := h
  rw [List.length_set, List.length_set]

theorem perm (h : Exchange lo hi a b) : b.Perm a := by
  obtain ⟨i, j, x, y, -, -, hx, hy, rfl⟩ := h
  obtain ⟨hi, rfl⟩ := List.getElem?_eq_some_iff.mp hx
  obtain ⟨hj, rfl⟩ := List.getElem?_eq_some_iff.mp hy
  exact List.set_set_perm hi hj

/-- Every item is one that was there, from the same side of the bounds. -/
theorem source (h : Exchange lo hi a b) (k : ℕ) :
    ∃ k', b[k]? = a[k']? ∧ (lo ≤ k ∧ k < hi → lo ≤ k' ∧ k' < hi) ∧ (¬(lo ≤ k ∧ k < hi) → k' = k) := by
  obtain ⟨i, j, x, y, hi, hj, hx, hy, rfl⟩ := h
  have hget := getElem?_exchange (y := y) (x := x) (List.getElem?_eq_some_iff.mp hx).1
    (List.getElem?_eq_some_iff.mp hy).1 k
  by_cases hkj : k = j
  · rw [if_pos hkj] at hget
    exact ⟨i, hget.trans hx.symm, fun _ => hi, fun hout => absurd (hkj ▸ hj) hout⟩
  · rw [if_neg hkj] at hget
    by_cases hki : k = i
    · rw [if_pos hki] at hget
      exact ⟨j, hget.trans hy.symm, fun _ => hj, fun hout => absurd (hki ▸ hi) hout⟩
    · rw [if_neg hki] at hget
      exact ⟨k, hget, fun hin => hin, fun _ => rfl⟩

end Exchange

namespace Shuffle

theorem length (h : Shuffle lo hi a b) : b.length = a.length := by
  induction h with
  | refl => rfl
  | tail _ h ih => exact h.length.trans ih

theorem perm (h : Shuffle lo hi a b) : b.Perm a := by
  induction h with
  | refl => exact List.Perm.refl a
  | tail _ h ih => exact h.perm.trans ih

theorem source (h : Shuffle lo hi a b) (k : ℕ) :
    ∃ k', b[k]? = a[k']? ∧ (lo ≤ k ∧ k < hi → lo ≤ k' ∧ k' < hi) ∧ (¬(lo ≤ k ∧ k < hi) → k' = k) := by
  induction h generalizing k with
  | refl => exact ⟨k, rfl, fun hin => hin, fun _ => rfl⟩
  | tail _ h ih =>
    obtain ⟨k', hk', hin', hout'⟩ := h.source k
    obtain ⟨k'', hk'', hin'', hout''⟩ := ih k'
    refine ⟨k'', hk'.trans hk'', fun hin => hin'' (hin' hin), fun hout => ?_⟩
    have hsame := hout' hout
    subst hsame
    exact hout'' hout

/-- Nothing is exchanged outside the bounds. -/
theorem outside (h : Shuffle lo hi a b) {k : ℕ} (hk : ¬(lo ≤ k ∧ k < hi)) : b[k]? = a[k]? := by
  obtain ⟨k', hk', -, hout⟩ := h.source k
  rw [hk', hout hk]

theorem widen {lo' hi' : ℕ} (h : Shuffle lo hi a b) (hlo : lo' ≤ lo) (hhi : hi ≤ hi') :
    Shuffle lo' hi' a b := by
  have hle : Exchange (α := α) lo hi ≤ Exchange lo' hi' := by
    rintro a b ⟨i, j, x, y, hi, hj, h⟩
    exact ⟨i, j, x, y, by omega, by omega, h⟩
  exact Relation.ReflTransGen.mono hle a b h

theorem single {i j : ℕ} {x y : α} (hin : lo ≤ i ∧ i < hi) (hin' : lo ≤ j ∧ j < hi)
    (hx : a[i]? = some x) (hy : a[j]? = some y) : Shuffle lo hi a ((a.set i y).set j x) :=
  Relation.ReflTransGen.single ⟨i, j, x, y, hin, hin', hx, hy, rfl⟩

end Shuffle

/-! ## What holds among the items -/

namespace Among

theorem shuffle {lo' hi' : ℕ} (h : Among P lo hi a) (hab : Shuffle lo' hi' a b) (hlo : lo ≤ lo')
    (hhi : hi' ≤ hi) : Among P lo hi b := by
  intro k x hk hlt hx
  obtain ⟨k', hk', hin, hout⟩ := hab.source k
  rw [hk'] at hx
  by_cases hmid : lo' ≤ k ∧ k < hi'
  · have hbounds := hin hmid
    exact h k' x (by omega) (by omega) hx
  · rw [hout hmid] at hx
    exact h k x hk hlt hx

theorem congr (h : Among P lo hi a) (hab : ∀ k, lo ≤ k → k < hi → b[k]? = a[k]?) : Among P lo hi b := by
  intro k x hk hlt hx
  rw [hab k hk hlt] at hx
  exact h k x hk hlt hx

theorem append {mid : ℕ} (hleft : Among P lo mid a) (hright : Among P mid hi a) : Among P lo hi a := by
  intro k x hk hlt hx
  by_cases hmid : k < mid
  · exact hleft k x hk hmid hx
  · exact hright k x (by omega) hlt hx

theorem single {k : ℕ} {x : α} (hx : a[k]? = some x) (h : P x) : Among P k (k + 1) a := by
  intro i y hi hlt hy
  have hik : i = k := by omega
  rw [hik, hx] at hy
  cases hy
  exact h

end Among

namespace Ordered

theorem congr (h : Ordered le lo hi a) (hab : ∀ k, lo ≤ k → k < hi → b[k]? = a[k]?) :
    Ordered le lo hi b := by
  intro i j x y hi hij hj hx hy
  rw [hab i hi (by omega)] at hx
  rw [hab j (by omega) hj] at hy
  exact h i j x y hi hij hj hx hy

/-- Two parts in order, with a pivot between them that separates them. -/
theorem join (htrans : ∀ x y z, le x y → le y z → le x z) {k : ℕ} {pivot : α}
    (hleft : Ordered le lo k a) (hright : Ordered le (k + 1) hi a) (hpivot : a[k]? = some pivot)
    (hbelow : Among (le · pivot) lo k a) (habove : Among (le pivot ·) (k + 1) hi a) :
    Ordered le lo hi a := by
  intro i j x y hi hij hj hx hy
  rcases lt_trichotomy j k with hjk | rfl | hjk
  · exact hleft i j x y hi hij hjk hx hy
  · rw [hpivot] at hy
    cases hy
    exact hbelow i x hi hij hx
  · rcases lt_trichotomy i k with hik | rfl | hik
    · exact htrans _ _ _ (hbelow i x hi hik hx) (habove j y hjk hj hy)
    · rw [hpivot] at hx
      cases hx
      exact habove j y hjk hj hy
    · exact hright i j x y hik hij hj hx hy

/-- One item is in order. -/
theorem of_le (h : hi ≤ lo + 1) : Ordered le lo hi a := by
  intro i j x y hi hij hj
  omega

/-- A list all of which is in order. -/
theorem pairwise (h : Ordered le 0 a.length a) : a.Pairwise le := by
  rw [List.pairwise_iff_getElem]
  intro i j hi hj hij
  exact h i j _ _ (Nat.zero_le i) hij hj (List.getElem?_eq_getElem hi) (List.getElem?_eq_getElem hj)

end Ordered

/-! ## Insertion -/

/-- A list with a hole, before the item at `last`, for a key: what is at the hole does not count, the other
items are in order, and those behind the hole come after the key. -/
structure Hole (le : α → α → Prop) (lo last hole : ℕ) (key : α) (a : List α) : Prop where
  sorted : ∀ i j x y, lo ≤ i → i < j → j ≤ last → i ≠ hole → j ≠ hole → a[i]? = some x → a[j]? = some y →
    le x y
  behind : ∀ i x, hole < i → i ≤ last → a[i]? = some x → le key x

namespace Hole

variable {last hole : ℕ} {key : α}

/-- The item before the hole is moved into it. -/
theorem move {x : α} (h : Hole le lo last (hole + 1) key a) (hlt : hole + 1 < a.length)
    (hx : a[hole]? = some x) (hlo : lo ≤ hole) (hle : le key x) :
    Hole le lo last hole key (a.set (hole + 1) x) := by
  have hself : (a.set (hole + 1) x)[hole + 1]? = some x := List.getElem?_set_self hlt
  have hother (k : ℕ) (hk : k ≠ hole + 1) : (a.set (hole + 1) x)[k]? = a[k]? :=
    List.getElem?_set_ne (Ne.symm hk)
  constructor
  case sorted =>
    intro i j y z hi hij hj hih hjh hy hz
    by_cases hi' : i = hole + 1
    · rw [hi', hself] at hy
      cases hy
      rw [hother j (by omega)] at hz
      exact h.sorted hole j x z hlo (by omega) hj (by omega) (by omega) hx hz
    · rw [hother i hi'] at hy
      by_cases hj' : j = hole + 1
      · rw [hj', hself] at hz
        cases hz
        exact h.sorted i hole y x hi (by omega) (by omega) hi' (by omega) hy hx
      · rw [hother j hj'] at hz
        exact h.sorted i j y z hi hij hj hi' hj' hy hz
  case behind =>
    intro i y hi hi' hy
    by_cases hsame : i = hole + 1
    · rw [hsame, hself] at hy
      cases hy
      exact hle
    · rw [hother i hsame] at hy
      exact h.behind i y (by omega) hi' hy

/-- To move an item into the hole is to exchange it with the key. -/
theorem exchange {x : α} (hlt : hole + 1 < a.length) (hx : a[hole]? = some x) (hlo : lo ≤ hole)
    (hhi : hole + 1 < hi) :
    Shuffle lo hi (a.set (hole + 1) key) ((a.set (hole + 1) x).set hole key) := by
  have hself : (a.set (hole + 1) key)[hole + 1]? = some key := List.getElem?_set_self hlt
  have hother : (a.set (hole + 1) key)[hole]? = some x := by
    rw [List.getElem?_set_ne (by omega), hx]
  have h := @Shuffle.single _ lo hi _ (hole + 1) hole _ _ (by omega) (by omega) hself hother
  rwa [List.set_set] at h

/-- The key is put into the hole, behind the items that do not come after it. -/
theorem fill (h : Hole le lo last hole key a) (hlt : hole < a.length)
    (hbefore : ∀ i x, lo ≤ i → i < hole → a[i]? = some x → le x key) :
    Ordered le lo (last + 1) (a.set hole key) := by
  have hself : (a.set hole key)[hole]? = some key := List.getElem?_set_self hlt
  have hother (k : ℕ) (hk : k ≠ hole) : (a.set hole key)[k]? = a[k]? := List.getElem?_set_ne (Ne.symm hk)
  intro i j x y hi hij hj hx hy
  by_cases hi' : i = hole
  · rw [hi', hself] at hx
    cases hx
    rw [hother j (by omega)] at hy
    exact h.behind j y (by omega) (by omega) hy
  · rw [hother i hi'] at hx
    by_cases hj' : j = hole
    · rw [hj', hself] at hy
      cases hy
      exact hbefore i x hi (by omega) hx
    · rw [hother j hj'] at hy
      exact h.sorted i j x y hi hij (by omega) hi' hj' hx hy

/-- The item behind those that are in order is taken out. -/
theorem of_ordered (h : Ordered le lo last a) : Hole le lo last last key a where
  sorted i j x y hi hij hj _ hj' hx hy := h i j x y hi hij (by omega) hx hy
  behind i x hi hi' := by omega

end Hole

end Shuffling
