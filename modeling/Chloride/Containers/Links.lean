import Mathlib

/-!
# Chains of links

Each thing links to at most one other. A walk along the links from a thing ends or goes on for ever, and writing one
link leaves every walk with an end exactly when the thing is not reached from where its new link goes.
-/

namespace Links

variable {α : Type*}

/-- The walk from here has an end. -/
inductive Ends (next : α → Option α) : Option α → Prop where
  | stop : Ends next none
  | link {a : α} : Ends next (next a) → Ends next (some a)

/-- The walk from here comes to `b`. -/
inductive Reaches (next : α → Option α) (b : α) : Option α → Prop where
  | here : Reaches next b (some b)
  | next {a : α} : Reaches next b (next a) → Reaches next b (some a)

variable {next : α → Option α} {a b : α} {c : Option α}

/-- What comes to a thing comes to where the thing links. -/
theorem Reaches.link (h : Reaches next a c) (hlink : next a = some b) : Reaches next b c := by
  induction h with
  | here =>
    apply Reaches.next
    rw [hlink]
    exact .here
  | next _ ih => exact .next ih

/-- From a thing that its own link comes back to, no walk ends. -/
theorem not_ends_of_reaches (h : Reaches next a (next a)) : ¬Ends next (some a) := by
  intro hends
  generalize hc : some a = c at hends
  induction hends generalizing a with
  | stop => cases hc
  | @link d hd ih =>
    obtain rfl := Option.some.inj hc
    -- the thing that is linked to is on the circle too
    cases hlink : next a with
    | none =>
      rw [hlink] at h
      cases h
    | some b =>
      rw [hlink] at h
      refine ih ?_ hlink.symm
      cases h with
      | here => simpa [hlink] using (Reaches.here : Reaches next a (some a))
      | next h => exact h.link hlink

/-- A loop along the links, which makes each turn with one unit of fuel less, is done for all large fuels. -/
theorem Ends.eventually {P : ℕ → Option α → Prop} (hnone : ∀ n, P n none)
    (hsome : ∀ n a, P n (next a) → P (n + 1) (some a)) (h : Ends next c) : ∀ᶠ n in Filter.atTop, P n c := by
  induction h with
  | stop => exact Filter.Eventually.of_forall hnone
  | @link a _ ih =>
    obtain ⟨N, hN⟩ := Filter.eventually_atTop.mp ih
    rw [Filter.eventually_atTop]
    refine ⟨N + 1, fun n hn => ?_⟩
    obtain ⟨m, rfl⟩ : ∃ m, n = m + 1 := ⟨n - 1, by omega⟩
    exact hsome m a (hN m (by omega))

/-- A loop that goes on to the end is done only where there is one. -/
theorem Ends.of_fuel {P : ℕ → Option α → Prop} (hzero : ∀ a, ¬P 0 (some a))
    (hsucc : ∀ n a, P (n + 1) (some a) → P n (next a)) {n : ℕ} (h : P n c) : Ends next c := by
  induction n generalizing c with
  | zero =>
    cases c with
    | none => exact .stop
    | some a => exact absurd h (hzero a)
  | succ n ih =>
    cases c with
    | none => exact .stop
    | some a => exact .link (ih (hsucc n a h))

/-- To a thing that nothing links to comes only a walk from itself. -/
theorem Reaches.eq_of_unlinked (h : Reaches next a (some b)) (ha : ∀ d, next d ≠ some a) : b = a := by
  generalize hc : some b = c at h
  induction h generalizing b with
  | here => exact Option.some.inj hc
  | @next d hd ih =>
    cases hlink : next d with
    | none =>
      rw [hlink] at hd
      cases hd
    | some e =>
      -- where this one links, the walk comes to the thing, so it is linked to
      obtain rfl := ih hlink.symm
      exact absurd hlink (ha d)

variable [DecidableEq α] {v : Option α}

/-- A walk that does not come to the thing is what it was. -/
theorem Ends.update_of_not_reaches (h : Ends next c) (hc : ¬Reaches next a c) :
    Ends (Function.update next a v) c := by
  induction h with
  | stop => exact .stop
  | @link d _ ih =>
    have hne : d ≠ a := by
      rintro rfl
      exact hc .here
    apply Ends.link
    rw [Function.update_of_ne hne]
    exact ih fun hd => hc (.next hd)

/-- What comes to the thing still does, until it is there for the first time. -/
theorem Reaches.update (h : Reaches next a c) : Reaches (Function.update next a v) a c := by
  induction h with
  | here => exact .here
  | @next d _ ih =>
    by_cases hd : d = a
    · rw [hd]
      exact .here
    · apply Reaches.next
      rw [Function.update_of_ne hd]
      exact ih

/-- Writing the link of a thing leaves every walk with an end exactly when the thing is not reached from where the new
link goes. -/
theorem forall_ends_update_iff (h : ∀ c, Ends next c) :
    (∀ c, Ends (Function.update next a v) c) ↔ ¬Reaches next a v := by
  constructor
  · intro hends hreaches
    have hcircle : Reaches (Function.update next a v) a (Function.update next a v a) := by
      rw [Function.update_self]
      exact hreaches.update
    exact not_ends_of_reaches hcircle (hends (some a))
  · intro hreaches c
    induction h c with
    | stop => exact .stop
    | @link d _ ih =>
      apply Ends.link
      by_cases hd : d = a
      · rw [hd, Function.update_self]
        exact (h v).update_of_not_reaches hreaches
      · rw [Function.update_of_ne hd]
        exact ih

end Links
