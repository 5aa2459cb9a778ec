import Mathlib

/-!
# Runs of a deterministic machine under a schedule

A machine is a partial step function that takes its state and an input from outside: what the
environment answers, or which of several parties moves. The file has the run over a list of inputs,
the reachable states, and the two induction principles that every safety argument uses: an invariant
of the steps holds in every reachable state, and a relation that every step keeps, holds between the
ends of every run.
-/

namespace Runs

variable {σ ι : Type*} (step : σ → ι → Option σ)

/-- The state after the inputs, if none of them is refused. -/
def run (s : σ) : List ι → Option σ
  | [] => some s
  | i :: is => (step s i).bind fun s' => run s' is

/-- The states that a run from an initial state can end in. -/
inductive Reachable (init : σ → Prop) : σ → Prop where
  | init {s : σ} : init s → Reachable init s
  | step {s s' : σ} {i : ι} : Reachable init s → step s i = some s' → Reachable init s'

variable {step}

@[simp]
theorem run_nil (s : σ) : run step s [] = some s := rfl

theorem run_cons {s s' : σ} {i : ι} {is : List ι} :
    run step s (i :: is) = some s' ↔ ∃ t, step s i = some t ∧ run step t is = some s' := by
  rw [run, Option.bind_eq_some_iff]

/-- A run in two parts. -/
theorem run_append {s s' : σ} {is js : List ι} :
    run step s (is ++ js) = some s' ↔ ∃ t, run step s is = some t ∧ run step t js = some s' := by
  induction is generalizing s with
  | nil => simp
  | cons i is ih =>
    rw [List.cons_append, run_cons]
    constructor
    · rintro ⟨t, hstep, hrun⟩
      obtain ⟨u, hu, hjs⟩ := ih.mp hrun
      exact ⟨u, run_cons.mpr ⟨t, hstep, hu⟩, hjs⟩
    · rintro ⟨u, hu, hjs⟩
      obtain ⟨t, hstep, hrun⟩ := run_cons.mp hu
      exact ⟨t, hstep, ih.mpr ⟨u, hrun, hjs⟩⟩

/-- The end of a run from a reachable state is reachable. -/
theorem Reachable.run {init : σ → Prop} {s s' : σ} (h : Reachable step init s) {is : List ι}
    (hrun : Runs.run step s is = some s') : Reachable step init s' := by
  induction is generalizing s with
  | nil =>
    cases hrun
    exact h
  | cons i is ih =>
    obtain ⟨t, hstep, hrun'⟩ := run_cons.mp hrun
    exact ih (h.step hstep) hrun'

/-- What holds initially and is kept by every step holds in every reachable state. -/
theorem Reachable.invariant {init : σ → Prop} {P : σ → Prop} (hinit : ∀ s, init s → P s)
    (hstep : ∀ s i s', P s → step s i = some s' → P s') {s : σ} (h : Reachable step init s) :
    P s := by
  induction h with
  | init h => exact hinit _ h
  | step _ hs ih => exact hstep _ _ _ ih hs

/-- What every step keeps, a run keeps. -/
theorem run_invariant {P : σ → Prop} (hstep : ∀ s i s', P s → step s i = some s' → P s')
    {s s' : σ} {is : List ι} (hP : P s) (hrun : run step s is = some s') : P s' := by
  induction is generalizing s with
  | nil =>
    cases hrun
    exact hP
  | cons i is ih =>
    obtain ⟨t, hs, hrun'⟩ := run_cons.mp hrun
    exact ih (hstep _ _ _ hP hs) hrun'

/-- What is there at the end of a run was there at its start, or was brought by one of its steps. -/
theorem run_origin {α : Type*} (P : σ → Prop) (There : σ → α → Prop) (Brings : σ → ι → α → Prop)
    (hP : ∀ s i s', P s → step s i = some s' → P s')
    (hstep : ∀ s i s', P s → step s i = some s' → ∀ x, There s' x → There s x ∨ Brings s i x)
    {s s' : σ} {is : List ι} (hs : P s) (hrun : run step s is = some s') (x : α) (hx : There s' x) :
    There s x ∨ ∃ before i after t, is = before ++ i :: after ∧ run step s before = some t ∧
      Brings t i x := by
  induction is generalizing s with
  | nil =>
    cases hrun
    exact Or.inl hx
  | cons i is ih =>
    obtain ⟨u, hu, hrun'⟩ := run_cons.mp hrun
    rcases ih (hP s i u hs hu) hrun' with hthere | ⟨before, j, after, t, rfl, ht, hbrings⟩
    · rcases hstep s i u hs hu x hthere with hthere | hbrings
      · exact Or.inl hthere
      · exact Or.inr ⟨[], i, is, s, rfl, rfl, hbrings⟩
    · exact Or.inr ⟨i :: before, j, after, t, rfl, run_cons.mpr ⟨u, hu, ht⟩, hbrings⟩

/-- Of two steps of a run that are not the same, one comes first. -/
theorem run_ordered {s t t' u u' : σ} {is is' js js' : List ι} {i i' : ι}
    (heq : is ++ i :: js = is' ++ i' :: js') (hrun : run step s is = some t)
    (hstep : step t i = some u) (hrun' : run step s is' = some t') (hstep' : step t' i' = some u') :
    (t = t' ∧ i = i' ∧ u = u') ∨ (∃ mid, run step u mid = some t') ∨
      ∃ mid, run step u' mid = some t := by
  -- A step that comes earlier starts the rest of the longer part.
  have hearlier : ∀ {t t' u : σ} {is is' mid : List ι} {i : ι}, run step s is = some t →
      step t i = some u → run step s is' = some t' → is' = is ++ i :: mid →
      run step u mid = some t' := by
    rintro t t' u is is' mid i ht hu ht' rfl
    obtain ⟨v, hv, hrest⟩ := run_append.mp ht'
    cases ht.symm.trans hv
    obtain ⟨w, hw, hmid⟩ := run_cons.mp hrest
    cases hu.symm.trans hw
    exact hmid
  -- One of the two parts continues the other.
  rcases List.append_eq_append_iff.mp heq with ⟨mid, his, hjs⟩ | ⟨mid, his, hjs⟩
  · cases mid with
    | nil =>
      rw [List.append_nil] at his
      subst his
      cases hrun.symm.trans hrun'
      obtain ⟨rfl, _⟩ := List.cons.inj hjs
      exact Or.inl ⟨rfl, rfl, Option.some.inj (hstep.symm.trans hstep')⟩
    | cons k mid =>
      obtain ⟨rfl, _⟩ := List.cons.inj hjs
      exact Or.inr (Or.inl ⟨mid, hearlier hrun hstep hrun' his⟩)
  · cases mid with
    | nil =>
      rw [List.append_nil] at his
      subst his
      cases hrun.symm.trans hrun'
      obtain ⟨rfl, _⟩ := List.cons.inj hjs
      exact Or.inl ⟨rfl, rfl, Option.some.inj (hstep.symm.trans hstep')⟩
    | cons k mid =>
      obtain ⟨rfl, _⟩ := List.cons.inj hjs
      exact Or.inr (Or.inr ⟨mid, hearlier hrun' hstep' hrun his⟩)

end Runs
