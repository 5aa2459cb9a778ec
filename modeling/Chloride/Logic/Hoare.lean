import Mathlib

/-!
# Triples for programs with a state that may fail

Partial correctness for programs in `StateT σ Option`: from a state with `P`, a program that does not
fail ends with an answer and a state that have `Q`. The rules follow the constructors of the monad, so
that a proof about a program in `do` notation goes along its lines.
-/

universe u

namespace Hoare

variable {σ α β : Type u}

/-- From a state with `P`, the program fails or ends with `Q`. -/
def Triple (P : σ → Prop) (m : StateT σ Option α) (Q : α → σ → Prop) : Prop :=
  ∀ s a s', P s → m s = some (a, s') → Q a s'

variable {P P' : σ → Prop} {Q Q' : α → σ → Prop}

namespace Triple

theorem pure {a : α} (h : ∀ s, P s → Q a s) : Triple P (Pure.pure a) Q := by
  intro s b s' hP hrun
  cases hrun
  exact h s hP

theorem bind {R : β → σ → Prop} {m : StateT σ Option β} {f : β → StateT σ Option α}
    (hm : Triple P m R) (hf : ∀ b, Triple (R b) (f b) Q) : Triple P (m >>= f) Q := by
  intro s a s' hP hrun
  obtain ⟨⟨b, t⟩, hb, ha⟩ := Option.bind_eq_some_iff.mp hrun
  exact hf b t a s' (hm s b t hP hb) ha

/-- A program that nothing is asked of. -/
theorem skip {m : StateT σ Option β} {f : β → StateT σ Option α}
    (hf : ∀ b, Triple (fun _ => True) (f b) Q) : Triple (fun _ => True) (m >>= f) Q :=
  bind (R := fun _ _ => True) (fun _ _ _ _ _ => trivial) hf

theorem conseq {m : StateT σ Option α} (h : Triple P m Q) (hP : ∀ s, P' s → P s)
    (hQ : ∀ a s, Q a s → Q' a s) : Triple P' m Q' :=
  fun s a s' hs hrun => hQ a s' (h s a s' (hP s hs) hrun)

/-- The program may be looked at for each state it starts in. -/
theorem of_state {m : StateT σ Option α} (h : ∀ s, P s → Triple (Eq s) m Q) : Triple P m Q :=
  fun s a s' hs hrun => h s hs s a s' rfl hrun

/-- What does not depend on the state is known while the program runs. -/
theorem of_fact {p : Prop} {m : StateT σ Option α} (h : p → Triple P m Q) :
    Triple (fun s => p ∧ P s) m Q :=
  fun s a s' hs hrun => h hs.1 s a s' hs.2 hrun

theorem failure : Triple P (failure : StateT σ Option α) Q :=
  fun _ _ _ _ hrun => nomatch hrun

theorem ite {c : Prop} [Decidable c] {m n : StateT σ Option α} (hm : c → Triple P m Q)
    (hn : ¬c → Triple P n Q) : Triple P (if c then m else n) Q := by
  split
  case isTrue hc => exact hm hc
  case isFalse hc => exact hn hc

/-- The state is read. -/
theorem get_bind {f : σ → StateT σ Option α} (h : ∀ s, P s → Triple P (f s) Q) :
    Triple P (get >>= f) Q :=
  fun s a s' hs hrun => h s hs s a s' hs hrun

/-- The state is read, and the rest of the program starts in it. -/
theorem get_bind_eq {f : σ → StateT σ Option α} (h : ∀ s, P s → Triple (Eq s) (f s) Q) :
    Triple P (get >>= f) Q :=
  fun s a s' hs hrun => h s hs s a s' rfl hrun

theorem of_modify {g : σ → σ} {Q : PUnit → σ → Prop} (h : ∀ s, P s → Q ⟨⟩ (g s)) :
    Triple P (modify g) Q := by
  intro s b s' hs hrun
  cases hrun
  exact h s hs

theorem modify_bind {R : σ → Prop} {g : σ → σ} {f : PUnit → StateT σ Option α}
    (h : ∀ s, P s → R (g s)) (hf : Triple R (f ⟨⟩) Q) : Triple P (modify g >>= f) Q :=
  bind (of_modify h) fun _ => hf

end Triple

end Hoare
