import Mathlib

/-!
# Tables that count their entries

A table keeps counts of its entries and takes more places for them when there are too many. `KeepsCount`
says that in a run the counts are right in every state, that the table grows only with more entries than
its threshold, and that it never has more places than a multiple of the entries it had at once. If the
steps that go wrong are known one by one, `keepsCount_iff` says that a run is right exactly if it has
none of them: the bound on the places follows from the threshold.
-/

namespace Counted

/-- A table under the operations of its users. `threshold` and `grow` are the entries that a table may
have before it grows and the places that it has then, both of the places it has. -/
structure Table (σ ι : Type*) where
  step : σ → ι → Option σ
  live : σ → ℕ
  places : σ → ℕ
  Right : σ → Prop
  threshold : ℕ → ℕ
  grow : ℕ → ℕ
  factor : ℕ
  grow_le : ∀ n, grow n ≤ factor * (threshold n + 1)

namespace Table

variable {σ ι : Type*} (T : Table σ ι)

/-- The counts are right, and the places are a multiple of the entries at most. -/
def Sound (peak : ℕ) (s : σ) : Prop := T.Right s ∧ T.places s ≤ T.factor * max 1 peak

/-- A growing table has more entries than its threshold. -/
def GrowsFull (s s' : σ) : Prop :=
  T.places s < T.places s' → T.threshold (T.places s) < T.live s'

/-- A run whose states are all sound, and which grows full tables only. The first number is the largest
number of entries so far. -/
def KeepsCount : ℕ → σ → List ι → Prop
  | peak, s, [] => T.Sound peak s
  | peak, s, i :: is => T.Sound peak s ∧ ∀ s', T.step s i = some s' →
      T.GrowsFull s s' ∧ KeepsCount (max peak (T.live s')) s' is

/-- A run whose steps all meet a condition on them and the state before them. -/
def Meets (ok : σ → ι → Prop) : σ → List ι → Prop
  | _, [] => True
  | s, i :: is => ∀ s', T.step s i = some s' → ok s i ∧ Meets ok s' is

variable {T}

/-- A table that grows full has no more places than it had entries at once, times the factor. -/
theorem GrowsFull.places_le {s s' : σ} (hfull : T.GrowsFull s s')
    (hplaces : T.places s' = T.places s ∨ T.places s' = T.grow (T.places s)) {peak : ℕ}
    (hle : T.places s ≤ T.factor * max 1 peak) :
    T.places s' ≤ T.factor * max 1 (max peak (T.live s')) := by
  have hpeak : T.factor * max 1 peak ≤ T.factor * max 1 (max peak (T.live s')) :=
    Nat.mul_le_mul_left _ (by omega)
  rcases Nat.lt_or_ge (T.places s) (T.places s') with hlt | hge
  · have hgrow : T.places s' = T.grow (T.places s) := hplaces.resolve_left (by omega)
    have hlive := hfull hlt
    calc T.places s' ≤ T.factor * (T.threshold (T.places s) + 1) := hgrow ▸ T.grow_le _
      _ ≤ T.factor * max 1 (max peak (T.live s')) := Nat.mul_le_mul_left _ (by omega)
  · exact hge.trans (hle.trans hpeak)

/-- A run keeps count exactly if all of its steps meet a condition that tells, from a state with right
counts, whether the counts are right after the step and whether it grows a full table only. -/
theorem keepsCount_iff {Inv : σ → Prop} {ok : σ → ι → Prop}
    (hinv : ∀ s i s', Inv s → T.Right s → T.step s i = some s' → Inv s')
    (hplaces : ∀ s i s', Inv s → T.Right s → T.step s i = some s' →
      T.places s' = T.places s ∨ T.places s' = T.grow (T.places s))
    (hok : ∀ s i s', Inv s → T.Right s → T.step s i = some s' →
      (T.GrowsFull s s' ∧ T.Right s' ↔ ok s i))
    {s : σ} (hs : Inv s) {peak : ℕ} (hsound : T.Sound peak s) (is : List ι) :
    T.KeepsCount peak s is ↔ T.Meets ok s is := by
  induction is generalizing s peak with
  | nil => exact iff_of_true hsound trivial
  | cons i is ih =>
    obtain ⟨hright, hle⟩ := hsound
    have hnext {s' : σ} (hstep : T.step s i = some s') (hfull : T.GrowsFull s s')
        (hright' : T.Right s') :
        T.KeepsCount (max peak (T.live s')) s' is ↔ T.Meets ok s' is :=
      ih (hinv s i s' hs hright hstep)
        ⟨hright', hfull.places_le (hplaces s i s' hs hright hstep) hle⟩
    constructor
    · rintro ⟨-, hrun⟩ s' hstep
      obtain ⟨hfull, hrest⟩ := hrun s' hstep
      -- The state behind the step is the first of the rest.
      have hright' : T.Right s' := by
        cases is with
        | nil => exact hrest.1
        | cons j js => exact hrest.1.1
      exact ⟨(hok s i s' hs hright hstep).mp ⟨hfull, hright'⟩, (hnext hstep hfull hright').mp hrest⟩
    · intro hmeets
      refine ⟨⟨hright, hle⟩, fun s' hstep => ?_⟩
      obtain ⟨hgood, hrest⟩ := hmeets s' hstep
      obtain ⟨hfull, hright'⟩ := (hok s i s' hs hright hstep).mpr hgood
      exact ⟨hfull, (hnext hstep hfull hright').mpr hrest⟩

end Table

end Counted
