import Chloride.Containers.Runs

/-!
# Runs that come to a state

What holds of every run of a machine from a state: it is in states with `P` until it comes to one with `Q`. Nothing is
said of what a run does behind that state, and a run may stay in `P` for ever. Two such statements come one behind the
other.
-/

namespace Runs

variable {σ ι : Type*} (step : σ → ι → Option σ)

/-- A run from the state is in `P`, or it has come through `Q`. -/
def Until (P Q : σ → Prop) (s : σ) : Prop :=
  ∀ is s', run step s is = some s' → P s' ∨ ∃ js ks t, is = js ++ ks ∧ run step s js = some t ∧ Q t

variable {step} {P P' Q R : σ → Prop} {s : σ}

namespace Until

theorem now (h : Q s) : Until step P Q s := fun is _ _ => Or.inr ⟨[], is, s, rfl, rfl, h⟩

/-- The states of a loop have `P`, and a step out of it goes where the statement holds. -/
theorem loop {I : σ → Prop} (hP : ∀ s, I s → P s)
    (hstep : ∀ s i s', I s → step s i = some s' → I s' ∨ Until step P Q s') (hs : I s) : Until step P Q s := by
  intro is s' hrun
  induction is generalizing s with
  | nil =>
    cases hrun
    exact Or.inl (hP _ hs)
  | cons i is ih =>
    obtain ⟨t, ht, hrun⟩ := run_cons.mp hrun
    have hrest : P s' ∨ ∃ js ks u, is = js ++ ks ∧ run step t js = some u ∧ Q u := by
      rcases hstep s i t hs ht with hloop | huntil
      · exact ih hloop hrun
      · exact huntil is s' hrun
    rcases hrest with hs' | ⟨js, ks, u, rfl, hjs, hu⟩
    · exact Or.inl hs'
    · exact Or.inr ⟨i :: js, ks, u, rfl, run_cons.mpr ⟨t, ht, hjs⟩, hu⟩

/-- One stretch behind the other. -/
theorem trans (h : Until step P Q s) (h' : ∀ t, Q t → Until step P R t) : Until step P R s := by
  intro is s' hrun
  rcases h is s' hrun with hs' | ⟨js, ks, t, rfl, hjs, ht⟩
  · exact Or.inl hs'
  · obtain ⟨u, hu, hks⟩ := run_append.mp hrun
    cases hjs.symm.trans hu
    rcases h' t ht ks s' hks with hs' | ⟨ks, ls, u, rfl, hks', hR⟩
    · exact Or.inl hs'
    · exact Or.inr ⟨js ++ ks, ls, u, (List.append_assoc ..).symm, run_append.mpr ⟨t, hjs, hks'⟩, hR⟩

theorem mono (h : Until step P Q s) (hP : ∀ t, P t → P' t) (hQ : ∀ t, Q t → R t) : Until step P' R s := by
  intro is s' hrun
  rcases h is s' hrun with hs' | ⟨js, ks, t, his, hjs, ht⟩
  · exact Or.inl (hP s' hs')
  · exact Or.inr ⟨js, ks, t, his, hjs, hQ t ht⟩

end Until

end Runs
