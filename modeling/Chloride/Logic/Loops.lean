import Mathlib

/-!
# Counting loops

The `for` loops of C that count a signed variable up or down, over a state that the body can fail to
change, with their invariant rules.
-/

namespace Loop

variable {State : Type*}

/-- `for (i = first; i < bound; i++)` -/
def up (first bound : ℤ) (f : ℤ → State → Option State) (s : State) : Option State :=
  (List.range (bound - first).toNat).foldlM (fun s (k : ℕ) => f (first + k) s) s

/-- What every iteration preserves, with its number, holds at the end. -/
theorem foldlM_range {f : State → ℕ → Option State} {P : ℕ → State → Prop} {s : State} (n : ℕ)
    (hinit : P 0 s) (hstep : ∀ k < n, ∀ s, P k s → ∃ s', f s k = some s' ∧ P (k + 1) s') :
    ∃ s', (List.range n).foldlM f s = some s' ∧ P n s' := by
  induction n with
  | zero => exact ⟨s, rfl, hinit⟩
  | succ n ih =>
    obtain ⟨s', hs', hinv⟩ := ih fun k hk => hstep k (by omega)
    obtain ⟨s'', hs'', hinv'⟩ := hstep n (by omega) s' hinv
    refine ⟨s'', ?_, hinv'⟩
    rw [List.range_succ, List.foldlM_append, hs', Option.bind_eq_bind, Option.bind_some]
    rw [List.foldlM_cons, hs'']
    rfl

variable {f : ℤ → State → Option State} {P : ℤ → State → Prop} {s : State}

/-- The invariant `P i` holds when the variable is `i`. -/
theorem up_spec {first bound : ℤ} (hle : first ≤ bound) (hinit : P first s)
    (hstep : ∀ i, first ≤ i → i < bound → ∀ s, P i s → ∃ s', f i s = some s' ∧ P (i + 1) s') :
    ∃ s', up first bound f s = some s' ∧ P bound s' := by
  have h := foldlM_range (f := fun s k => f (first + k) s) (P := fun k => P (first + k))
    (s := s) (bound - first).toNat
    (by rwa [Nat.cast_zero, add_zero]) fun k hk s hs => by
      obtain ⟨s', hs', hinv⟩ := hstep (first + k) (by omega) (by omega) s hs
      refine ⟨s', hs', ?_⟩
      rwa [Nat.cast_succ, ← add_assoc]
  rw [Int.toNat_of_nonneg (by omega), add_sub_cancel] at h
  exact h

end Loop
