import Mathlib

/-!
# Occurrences of a list in another

Where a list occurs in another one, and the naive searches for its first and for its last occurrence, which
try one index after the other. A search that leaves out indices is as good as they are if its shifts are
safe: `ForwardSkip` and `BackwardSkip` are the tables of shifts of Horspool, by the last item of the part
that is looked at and, in the other direction, by its first.
-/

namespace Substring

variable {α : Type*}

/-- A list occurs in another at an index. -/
def OccursAt (t s : List α) (i : ℕ) : Prop :=
  i + t.length ≤ s.length ∧ ∀ j < t.length, s[i + j]? = t[j]?

instance [DecidableEq α] (t s : List α) (i : ℕ) : Decidable (OccursAt t s i) :=
  inferInstanceAs (Decidable (_ ∧ _))

theorem OccursAt.lt_length {t s : List α} {i : ℕ} (h : OccursAt t s i) : i < s.length + 1 := by
  have hle := h.1
  omega

theorem take_drop_eq_iff {t s : List α} {i : ℕ} (hi : i + t.length ≤ s.length) :
    (s.drop i).take t.length = t ↔ OccursAt t s i := by
  rw [List.ext_getElem?_iff]
  constructor
  · refine fun h => ⟨hi, fun j hj => ?_⟩
    have hitem := h j
    rwa [List.getElem?_take_of_lt hj, List.getElem?_drop] at hitem
  · rintro ⟨-, hoccurs⟩ j
    by_cases hj : j < t.length
    · rw [List.getElem?_take_of_lt hj, List.getElem?_drop, hoccurs j hj]
    · rw [List.getElem?_eq_none (by simp; omega), List.getElem?_eq_none (by omega)]

/-- An occurrence puts the list together again. -/
theorem OccursAt.take_append_drop {t s : List α} {i : ℕ} (h : OccursAt t s i) :
    s.take i ++ t ++ s.drop (i + t.length) = s := by
  have ht := (take_drop_eq_iff h.1).mpr h
  calc s.take i ++ t ++ s.drop (i + t.length)
      = s.take i ++ ((s.drop i).take t.length ++ (s.drop i).drop t.length) := by
        rw [ht, List.append_assoc, List.drop_drop]
    _ = s := by rw [List.take_append_drop, List.take_append_drop]

/-- The occurrences in what has arrived are those of the whole that have arrived as a whole. -/
theorem occursAt_append_iff {t s r : List α} {i : ℕ} :
    OccursAt t s i ↔ OccursAt t (s ++ r) i ∧ i + t.length ≤ s.length := by
  constructor
  · rintro ⟨hle, hitems⟩
    refine ⟨⟨by rw [List.length_append]; omega, fun j hj => ?_⟩, hle⟩
    rw [List.getElem?_append_left (by omega), hitems j hj]
  · rintro ⟨⟨-, hitems⟩, hle⟩
    refine ⟨hle, fun j hj => ?_⟩
    rw [← hitems j hj, List.getElem?_append_left (by omega)]

section

variable [DecidableEq α]

/-- The first occurrence at an index or behind it. -/
def firstFrom (t s : List α) (start : ℤ) : Option ℕ :=
  (List.range (s.length + 1)).find? fun i : ℕ => start ≤ i ∧ OccursAt t s i

/-- The last occurrence at an index or before it, of those below a number. -/
def lastBelow (t s : List α) (stop : ℤ) : ℕ → Option ℕ
  | 0 => none
  | n + 1 => if n ≤ stop ∧ OccursAt t s n then some n else lastBelow t s stop n

/-- The last occurrence at an index or before it. -/
def lastUpTo (t s : List α) (stop : ℤ) : Option ℕ := lastBelow t s stop (s.length + 1)

variable {t s : List α} {start stop : ℤ} {i : ℕ}

theorem firstFrom_eq_some_iff : firstFrom t s start = some i ↔
    (start ≤ i ∧ OccursAt t s i) ∧ ∀ j : ℕ, j < i → ¬(start ≤ j ∧ OccursAt t s j) := by
  unfold firstFrom
  rw [List.find?_range_eq_some]
  simp only [decide_eq_true_eq, List.mem_range, Bool.not_eq_true', decide_eq_false_iff_not]
  constructor
  · rintro ⟨hi, -, hbefore⟩
    exact ⟨hi, hbefore⟩
  · rintro ⟨hi, hbefore⟩
    exact ⟨hi, hi.2.lt_length, hbefore⟩

theorem firstFrom_eq_none_iff :
    firstFrom t s start = none ↔ ∀ j : ℕ, start ≤ j → ¬OccursAt t s j := by
  unfold firstFrom
  rw [List.find?_eq_none]
  simp only [List.mem_range, decide_eq_true_eq, not_and]
  constructor
  · intro h j hj hoccurs
    exact h j hoccurs.lt_length hj hoccurs
  · exact fun h j _ hj => h j hj

theorem firstFrom_append_iff {r : List α} :
    firstFrom t s 0 = some i ↔ firstFrom t (s ++ r) 0 = some i ∧ i + t.length ≤ s.length := by
  simp only [firstFrom_eq_some_iff, Nat.cast_nonneg, true_and]
  constructor
  · rintro ⟨hi, hbefore⟩
    have hle := hi.1
    refine ⟨⟨(occursAt_append_iff.mp hi).1, fun j hj hoccurs => ?_⟩, hle⟩
    exact hbefore j hj (occursAt_append_iff.mpr ⟨hoccurs, by omega⟩)
  · rintro ⟨⟨hi, hbefore⟩, hle⟩
    refine ⟨occursAt_append_iff.mpr ⟨hi, hle⟩, fun j hj hoccurs => ?_⟩
    exact hbefore j hj (occursAt_append_iff.mp hoccurs).1

/-- What is before the first occurrence, and what is behind it. -/
def cutAt (t s : List α) : Option (List α × List α) :=
  (firstFrom t s 0).map fun i => (s.take i, s.drop (i + t.length))

/-- A list is cut where its parts meet, if the first item of the occurrence is not before it. -/
theorem cutAt_append {c : α} {t a : List α} (h : c ∉ a) (b : List α) :
    cutAt (c :: t) (a ++ (c :: t ++ b)) = some (a, b) := by
  have hfirst : firstFrom (c :: t) (a ++ (c :: t ++ b)) 0 = some a.length := by
    rw [firstFrom_eq_some_iff]
    refine ⟨⟨Int.natCast_nonneg _, (take_drop_eq_iff ?_).mp ?_⟩, fun j hj hoccurs => h ?_⟩
    · simp only [List.length_append]
      omega
    · rw [List.drop_left, List.take_left]
    · have hitem := hoccurs.2.2 0 (Nat.succ_pos _)
      rw [Nat.add_zero, List.getElem?_append_left hj] at hitem
      exact List.mem_of_getElem? hitem
  rw [cutAt, hfirst, Option.map_some, List.take_left, ← List.append_assoc, ← List.length_append, List.drop_left]

theorem cutAt_eq_none_iff : cutAt t s = none ↔ ¬t <:+: s := by
  rw [cutAt, Option.map_eq_none_iff, firstFrom_eq_none_iff]
  constructor
  · rintro h ⟨a, b, rfl⟩
    refine h a.length (Int.natCast_nonneg _) ((take_drop_eq_iff ?_).mp ?_)
    · simp only [List.length_append]
      omega
    · rw [List.append_assoc, List.drop_left, List.take_left]
  · rintro h j - hoccurs
    exact h ⟨_, _, hoccurs.take_append_drop⟩

/-- The parts of a cut make up the list. -/
theorem eq_append_of_cutAt {a b : List α} (h : cutAt t s = some (a, b)) : s = a ++ (t ++ b) := by
  obtain ⟨i, hi, heq⟩ := Option.map_eq_some_iff.mp h
  obtain ⟨rfl, rfl⟩ := Prod.mk.inj heq
  rw [← List.append_assoc, (firstFrom_eq_some_iff.mp hi).1.2.take_append_drop]

theorem firstFrom_of_cutAt {a b : List α} (h : cutAt t s = some (a, b)) : firstFrom t s 0 = some a.length := by
  obtain ⟨i, hi, heq⟩ := Option.map_eq_some_iff.mp h
  obtain ⟨rfl, -⟩ := Prod.mk.inj heq
  have hle := (firstFrom_eq_some_iff.mp hi).1.2.1
  rw [hi, List.length_take_of_le (by omega)]

theorem lastBelow_eq_some_iff {n : ℕ} : lastBelow t s stop n = some i ↔
    (i < n ∧ i ≤ stop ∧ OccursAt t s i) ∧ ∀ j : ℕ, i < j → j < n → ¬(j ≤ stop ∧ OccursAt t s j) := by
  induction n with
  | zero => exact iff_of_false nofun fun h => absurd h.1.1 (Nat.not_lt_zero i)
  | succ n ih =>
    rw [lastBelow]
    split
    case isTrue h =>
      rw [Option.some.injEq]
      constructor
      · rintro rfl
        exact ⟨⟨Nat.lt_succ_self n, h⟩, fun j hj hjn => by omega⟩
      · rintro ⟨⟨hlt, -⟩, hbehind⟩
        by_contra hne
        exact hbehind n (by omega) (Nat.lt_succ_self n) h
    case isFalse h =>
      rw [ih]
      constructor
      · rintro ⟨⟨hlt, hi⟩, hbehind⟩
        refine ⟨⟨by omega, hi⟩, fun j hj hjn => ?_⟩
        rcases (Nat.lt_succ_iff.mp hjn).lt_or_eq with hless | rfl
        · exact hbehind j hj hless
        · exact h
      · rintro ⟨⟨hlt, hi⟩, hbehind⟩
        have hne : i ≠ n := by
          rintro rfl
          exact h hi
        exact ⟨⟨by omega, hi⟩, fun j hj hjn => hbehind j hj (by omega)⟩

theorem lastUpTo_eq_some_iff : lastUpTo t s stop = some i ↔
    (i ≤ stop ∧ OccursAt t s i) ∧ ∀ j : ℕ, i < j → ¬(j ≤ stop ∧ OccursAt t s j) := by
  unfold lastUpTo
  rw [lastBelow_eq_some_iff]
  constructor
  · rintro ⟨⟨-, hi⟩, hbehind⟩
    exact ⟨hi, fun j hj hoccurs => hbehind j hj hoccurs.2.lt_length hoccurs⟩
  · rintro ⟨hi, hbehind⟩
    exact ⟨⟨hi.2.lt_length, hi⟩, fun j hj _ => hbehind j hj⟩

theorem lastUpTo_eq_none_iff :
    lastUpTo t s stop = none ↔ ∀ j : ℕ, j ≤ stop → ¬OccursAt t s j := by
  constructor
  · -- The greatest index with an occurrence would be found.
    intro h j hj hoccurs
    obtain ⟨i, hi, hmax⟩ : ∃ i : ℕ, (i ≤ stop ∧ OccursAt t s i) ∧
        ∀ j : ℕ, i < j → ¬(j ≤ stop ∧ OccursAt t s j) := by
      have hfound := Nat.findGreatest_spec (P := fun i : ℕ => i ≤ stop ∧ OccursAt t s i)
        (Nat.le_of_lt_succ hoccurs.lt_length) ⟨hj, hoccurs⟩
      refine ⟨_, hfound, fun k hk hboth => ?_⟩
      exact Nat.findGreatest_is_greatest hk (Nat.le_of_lt_succ hboth.2.lt_length) hboth
    rw [lastUpTo_eq_some_iff.mpr ⟨hi, hmax⟩] at h
    cases h
  · intro h
    cases hlast : lastUpTo t s stop with
    | none => rfl
    | some i =>
      obtain ⟨⟨hi, hoccurs⟩, -⟩ := lastUpTo_eq_some_iff.mp hlast
      exact absurd hoccurs (h i hi)

/-- A search can go on behind indices without an occurrence. -/
theorem firstFrom_skip {start' : ℤ} (hle : start ≤ start')
    (h : ∀ j : ℕ, start ≤ j → j < start' → ¬OccursAt t s j) : firstFrom t s start = firstFrom t s start' := by
  have hsame (j : ℕ) : start ≤ j ∧ OccursAt t s j ↔ start' ≤ j ∧ OccursAt t s j := by
    constructor
    · rintro ⟨hj, hoccurs⟩
      refine ⟨?_, hoccurs⟩
      by_contra hlt
      exact h j hj (not_le.mp hlt) hoccurs
    · rintro ⟨hj, hoccurs⟩
      exact ⟨hle.trans hj, hoccurs⟩
  ext i
  simp only [firstFrom_eq_some_iff, hsame]

/-- A search backwards can go on before indices without an occurrence. -/
theorem lastUpTo_skip {stop' : ℤ} (hle : stop' ≤ stop)
    (h : ∀ j : ℕ, stop' < j → j ≤ stop → ¬OccursAt t s j) : lastUpTo t s stop = lastUpTo t s stop' := by
  have hsame (j : ℕ) : j ≤ stop ∧ OccursAt t s j ↔ j ≤ stop' ∧ OccursAt t s j := by
    constructor
    · rintro ⟨hj, hoccurs⟩
      refine ⟨?_, hoccurs⟩
      by_contra hlt
      exact h j (not_le.mp hlt) hj hoccurs
    · rintro ⟨hj, hoccurs⟩
      exact ⟨hj.trans hle, hoccurs⟩
  ext i
  simp only [lastUpTo_eq_some_iff, hsame]

end

/-! ## Shifts -/

/-- Shifts by the item that the last one of the list is compared with: for every other place of that item
in the list, one that is not beyond it. -/
structure ForwardSkip (t : List α) (skip : α → ℕ) : Prop where
  pos : ∀ c, 0 < skip c
  le : ∀ c, skip c ≤ t.length
  place : ∀ (j : ℕ) (c : α), j + 1 < t.length → t[j]? = some c → skip c ≤ t.length - 1 - j

/-- Shifts by the item that the first one of the list is compared with. -/
structure BackwardSkip (t : List α) (skip : α → ℕ) : Prop where
  pos : ∀ c, 0 < skip c
  le : ∀ c, skip c ≤ t.length
  place : ∀ (j : ℕ) (c : α), 0 < j → j < t.length → t[j]? = some c → skip c ≤ j

/-- What a shift leaves out is no occurrence: the item would have to be at a place that the shift is
beyond. -/
theorem ForwardSkip.not_occursAt {t s : List α} {skip : α → ℕ} (h : ForwardSkip t skip) {i j : ℕ} {c : α}
    (hc : s[i + (t.length - 1)]? = some c) (hlt : i < j) (hskip : j < i + skip c) : ¬OccursAt t s j := by
  intro hoccurs
  have hle := h.le c
  have hitem := hoccurs.2 (i + (t.length - 1) - j) (by omega)
  rw [show j + (i + (t.length - 1) - j) = i + (t.length - 1) by omega, hc] at hitem
  have hplace := h.place _ c (by omega) hitem.symm
  omega

theorem BackwardSkip.not_occursAt {t s : List α} {skip : α → ℕ} (h : BackwardSkip t skip) {i j : ℕ} {c : α}
    (hc : s[i]? = some c) (hlt : j < i) (hskip : i < j + skip c) : ¬OccursAt t s j := by
  intro hoccurs
  have hle := h.le c
  have hitem := hoccurs.2 (i - j) (by omega)
  rw [show j + (i - j) = i by omega, hc] at hitem
  have hplace := h.place _ c (by omega) (by omega) hitem.symm
  omega

end Substring
