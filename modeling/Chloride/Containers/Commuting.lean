import Mathlib

/-!
# Lists that commute

Two lists can be appended in either order exactly if both repeat one list.
-/

namespace Commuting

variable {α : Type*}

/-- A list that is repeated. -/
def repeated (n : ℕ) (w : List α) : List α := (List.replicate n w).flatten

theorem repeated_one (w : List α) : repeated 1 w = w := List.append_nil w

theorem repeated_add (m n : ℕ) (w : List α) : repeated (m + n) w = repeated m w ++ repeated n w := by
  unfold repeated
  rw [List.replicate_add, List.flatten_append]

/-- Two lists repeat one list. -/
def Repeat (xs ys : List α) : Prop := ∃ w m n, xs = repeated m w ∧ ys = repeated n w

theorem Repeat.symm {xs ys : List α} : Repeat xs ys → Repeat ys xs :=
  fun ⟨w, m, n, hxs, hys⟩ => ⟨w, n, m, hys, hxs⟩

theorem Repeat.append_right {xs ys : List α} : Repeat xs ys → Repeat xs (xs ++ ys) :=
  fun ⟨w, m, n, hxs, hys⟩ => ⟨w, m, m + n, hxs, by rw [repeated_add, ← hxs, ← hys]⟩

/-- The shorter of two lists that commute starts the other one, and commutes with the rest. -/
theorem exists_append_of_comm {xs ys : List α} (h : xs ++ ys = ys ++ xs)
    (hlength : xs.length ≤ ys.length) : ∃ zs, ys = xs ++ zs ∧ xs ++ zs = zs ++ xs := by
  have hinitial : xs <+: ys :=
    List.prefix_of_prefix_length_le (List.prefix_append xs ys) ⟨xs, h.symm⟩ hlength
  obtain ⟨zs, rfl⟩ := hinitial
  refine ⟨zs, rfl, ?_⟩
  rw [List.append_assoc, List.append_cancel_left_eq] at h
  exact h

theorem Repeat.of_comm {xs ys : List α} (h : xs ++ ys = ys ++ xs) : Repeat xs ys := by
  -- By induction on both lengths together, as in the algorithm of Euclid.
  induction hn : xs.length + ys.length using Nat.strong_induction_on generalizing xs ys with
  | _ n ih =>
    by_cases hempty : xs = [] ∨ ys = []
    · rcases hempty with rfl | rfl
      · exact ⟨ys, 0, 1, rfl, (repeated_one ys).symm⟩
      · exact ⟨xs, 1, 0, (repeated_one xs).symm, rfl⟩
    · have hxs : 0 < xs.length := List.length_pos_of_ne_nil fun h => hempty (.inl h)
      have hys : 0 < ys.length := List.length_pos_of_ne_nil fun h => hempty (.inr h)
      rcases Nat.le_total xs.length ys.length with hle | hle
      · obtain ⟨zs, rfl, hzs⟩ := exists_append_of_comm h hle
        rw [List.length_append] at hn
        exact (ih (xs.length + zs.length) (by omega) hzs rfl).append_right
      · obtain ⟨zs, rfl, hzs⟩ := exists_append_of_comm h.symm hle
        rw [List.length_append] at hn
        exact (ih (ys.length + zs.length) (by omega) hzs rfl).append_right.symm

theorem append_comm_iff {xs ys : List α} : xs ++ ys = ys ++ xs ↔ Repeat xs ys := by
  constructor
  · exact Repeat.of_comm
  · rintro ⟨w, m, n, rfl, rfl⟩
    rw [← repeated_add, ← repeated_add, Nat.add_comm]

end Commuting
