import Mathlib

/-!
# Rights that are given away once

A flag that is set by a compare-and-exchange gives the party that set it a right, and the party uses it at some later
time. Nobody has the right, or one party has it, or it has been used, once. The rules say what a step of one party makes
of this: a party is at a place, it has the right at some of the places, and its step takes it to another place.
-/

/-- Of a flag, of who has the right that it gives, and of how often that right has been used. -/
inductive OneShot {ι : Type*} (taken : Prop) (holds : ι → Prop) (used : ℕ) : Prop where
  | free (hfree : ¬taken) (hnone : ∀ p, ¬holds p) (hused : used = 0)
  | held (p : ι) (htaken : taken) (hholds : ∀ q, holds q ↔ q = p) (hused : used = 0)
  | spent (htaken : taken) (hnone : ∀ p, ¬holds p) (hused : used = 1)

namespace OneShot

variable {ι : Type*} {taken taken' : Prop} {holds holds' : ι → Prop} {used : ℕ} {p q : ι}

theorem used_le_one (h : OneShot taken holds used) : used ≤ 1 := by
  cases h <;> omega

theorem unique (h : OneShot taken holds used) (hp : holds p) (hq : holds q) : p = q := by
  cases h with
  | free _ hnone => exact absurd hp (hnone p)
  | held r _ hholds => exact ((hholds p).mp hp).trans ((hholds q).mp hq).symm
  | spent _ hnone => exact absurd hp (hnone p)

theorem unused (h : OneShot taken holds used) (hp : holds p) : used = 0 := by
  cases h with
  | free _ hnone => exact absurd hp (hnone p)
  | held _ _ _ hused => exact hused
  | spent _ hnone => exact absurd hp (hnone p)

theorem taken_of_holds (h : OneShot taken holds used) (hp : holds p) : taken := by
  cases h with
  | free _ hnone => exact absurd hp (hnone p)
  | held _ htaken => exact htaken
  | spent htaken => exact htaken

theorem taken_of_used (h : OneShot taken holds used) (hused : used ≠ 0) : taken := by
  cases h with
  | free _ _ hzero => exact absurd hzero hused
  | held _ _ _ hzero => exact absurd hzero hused
  | spent htaken => exact htaken

/-- Where nobody has the right, it has been used if it was given away. -/
theorem used_eq_one_iff (h : OneShot taken holds used) (hnone : ∀ p, ¬holds p) : used = 1 ↔ taken := by
  cases h with
  | free hfree _ hused => simp [hfree, hused]
  | held r _ hholds => exact absurd ((hholds r).mpr rfl) (hnone r)
  | spent htaken _ hused => simp [htaken, hused]

/-- What a flag is, and who has its right, may be said in another way. -/
theorem congr (h : OneShot taken holds used) (htaken : taken' ↔ taken) (hholds : ∀ p, holds' p ↔ holds p) :
    OneShot taken' holds' used := by
  obtain rfl : holds' = holds := funext fun p => propext (hholds p)
  rwa [propext htaken]

section Places

variable {P : Type*} {has has' : P → Prop} {place place' : ι → P}

/-- What holds of every party's place still does when one party moves. -/
theorem forall_place (h : ∀ q, has (place q)) (hframe : ∀ q, q ≠ p → place' q = place q)
    (hmono : ∀ x, has x → has' x) (hp : has' (place' p)) (q : ι) : has' (place' q) := by
  by_cases hq : q = p
  · rwa [hq]
  · rw [hframe q hq]
    exact hmono _ (h q)

/-- A party moves, and has the right afterwards if it had it before. -/
theorem move (h : OneShot taken (fun q => has (place q)) used) (hframe : ∀ q, q ≠ p → place' q = place q)
    (hp : has (place' p) ↔ has (place p)) : OneShot taken (fun q => has (place' q)) used := by
  apply h.congr Iff.rfl
  intro q
  by_cases hq : q = p
  · rw [hq, hp]
  · rw [hframe q hq]

/-- A party sets the flag. -/
theorem take (h : OneShot taken (fun q => has (place q)) used) (hframe : ∀ q, q ≠ p → place' q = place q)
    (hfree : ¬taken) (htaken : taken') (hp : has (place' p)) : OneShot taken' (fun q => has (place' q)) used := by
  cases h with
  | free _ hnone hused =>
    refine held p htaken (fun q => ⟨fun hhas => ?_, fun hq => hq ▸ hp⟩) hused
    by_contra hq
    exact hnone q (hframe q hq ▸ hhas)
  | held _ htaken' => exact absurd htaken' hfree
  | spent htaken' => exact absurd htaken' hfree

/-- The party with the right uses it. -/
theorem spend (h : OneShot taken (fun q => has (place q)) used) (hframe : ∀ q, q ≠ p → place' q = place q)
    (hp : has (place p)) (hp' : ¬has (place' p)) : OneShot taken (fun q => has (place' q)) (used + 1) := by
  have hused := h.unused hp
  refine spent (h.taken_of_holds hp) (fun q hhas => ?_) (by omega)
  by_cases hq : q = p
  · exact hp' (hq ▸ hhas)
  · exact hq (h.unique (hframe q hq ▸ hhas) hp)

end Places

end OneShot
