import Mathlib

/-!
# Triples for programs whose failure keeps the state

A program in `OptionT (StateM σ)` ends with an answer or without one, and with a state in both cases, so
that what it did before it failed can be spoken of. A triple has a postcondition for either end. A fault is
a property of states that the program, once it has it, does not lose; `Upto` is for programs that do what
they should unless a fault happens.
-/

namespace Exceptional

variable {σ α β : Type}

/-- An end of a program: with an answer and `Q`, or without one and with `E`. -/
def Ends (Q : α → σ → Prop) (E : σ → Prop) : Option α × σ → Prop
  | (some a, s) => Q a s
  | (none, s) => E s

/-- From a state with `P`, the program ends with an answer and `Q`, or without one and with `E`. -/
def Triple (P : σ → Prop) (m : OptionT (StateM σ) α) (Q : α → σ → Prop) (E : σ → Prop) : Prop :=
  ∀ s, P s → Ends Q E (m.run.run s)

/-- What holds before the program holds after it, however it ends. -/
def Keeps (I : σ → Prop) (m : OptionT (StateM σ) α) : Prop := Triple I m (fun _ => I) I

/-- The program ends with `Q`, unless there is a fault. -/
def Upto (F P : σ → Prop) (m : OptionT (StateM σ) α) (Q : α → σ → Prop) : Prop :=
  Triple P m (fun a s => F s ∨ Q a s) F

variable {P P' E E' F I : σ → Prop} {Q Q' : α → σ → Prop}

namespace Triple

theorem pure {a : α} (h : ∀ s, P s → Q a s) : Triple P (Pure.pure a) Q E := fun s hs => h s hs

theorem bind {R : β → σ → Prop} {m : OptionT (StateM σ) β} {f : β → OptionT (StateM σ) α}
    (hm : Triple P m R E) (hf : ∀ b, Triple (R b) (f b) Q E) : Triple P (m >>= f) Q E := by
  intro s hs
  have hrun := hm s hs
  rw [OptionT.run_bind, Option.elimM, StateT.run_bind]
  rcases hend : m.run.run s with ⟨_ | b, t⟩
  all_goals rw [hend] at hrun
  case none => exact hrun
  case some => exact hf b t hrun

theorem conseq {m : OptionT (StateM σ) α} (h : Triple P m Q E) (hP : ∀ s, P' s → P s)
    (hQ : ∀ a s, Q a s → Q' a s) (hE : ∀ s, E s → E' s) : Triple P' m Q' E' := by
  intro s hs
  have hrun := h s (hP s hs)
  rcases hend : m.run.run s with ⟨_ | a, t⟩
  all_goals rw [hend] at hrun
  case none => exact hE t hrun
  case some => exact hQ a t hrun

/-- Two triples of one program. -/
theorem and {P₁ P₂ E₁ E₂ : σ → Prop} {Q₁ Q₂ : α → σ → Prop} {m : OptionT (StateM σ) α}
    (h₁ : Triple P₁ m Q₁ E₁) (h₂ : Triple P₂ m Q₂ E₂) :
    Triple (fun s => P₁ s ∧ P₂ s) m (fun a s => Q₁ a s ∧ Q₂ a s) (fun s => E₁ s ∧ E₂ s) := by
  rintro s ⟨hs₁, hs₂⟩
  have hrun₁ := h₁ s hs₁
  have hrun₂ := h₂ s hs₂
  rcases hend : m.run.run s with ⟨_ | a, t⟩
  all_goals
    rw [hend] at hrun₁ hrun₂
    exact ⟨hrun₁, hrun₂⟩

theorem failure (h : ∀ s, P s → E s) : Triple P (failure : OptionT (StateM σ) α) Q E := fun s hs => h s hs

theorem ite {c : Prop} [Decidable c] {m n : OptionT (StateM σ) α} (hm : c → Triple P m Q E)
    (hn : ¬c → Triple P n Q E) : Triple P (if c then m else n) Q E := by
  split
  case isTrue hc => exact hm hc
  case isFalse hc => exact hn hc

/-- The program may be looked at for each state it starts in. -/
theorem of_state {m : OptionT (StateM σ) α} (h : ∀ s, P s → Triple (Eq s) m Q E) : Triple P m Q E :=
  fun s hs => h s hs s rfl

/-- The state is read. -/
theorem get_bind {f : σ → OptionT (StateM σ) α} (h : ∀ s, P s → Triple (Eq s) (f s) Q E) :
    Triple P (get >>= f) Q E :=
  fun s hs => h s hs s rfl

theorem modify_bind {R : σ → Prop} {g : σ → σ} {f : PUnit → OptionT (StateM σ) α}
    (h : ∀ s, P s → R (g s)) (hf : Triple R (f ⟨⟩) Q E) : Triple P (modify g >>= f) Q E :=
  fun s hs => hf (g s) (h s hs)

theorem of_modify {g : σ → σ} {Q : PUnit → σ → Prop} (h : ∀ s, P s → Q ⟨⟩ (g s)) :
    Triple P (modify g) Q E :=
  fun s hs => h s hs

/-- An answer that may be missing. -/
theorem getM {o : Option α} (hsome : ∀ a, o = some a → ∀ s, P s → Q a s)
    (hnone : o = none → ∀ s, P s → E s) : Triple P (o.getM : OptionT (StateM σ) α) Q E := by
  cases o with
  | none => exact failure (hnone rfl)
  | some a => exact pure (hsome a rfl)

/-- A program that starts in no state. -/
theorem of_false {m : OptionT (StateM σ) α} (h : ∀ s, ¬P s) : Triple P m Q E :=
  fun s hs => absurd hs (h s)

/-- What does not depend on the state is known while the program runs. -/
theorem of_fact {p : Prop} {m : OptionT (StateM σ) α} (h : p → Triple P m Q E) :
    Triple (fun s => p ∧ P s) m Q E :=
  fun s hs => h hs.1 s hs.2

end Triple

namespace Keeps

theorem pure (a : α) : Keeps I (Pure.pure a : OptionT (StateM σ) α) := fun _ hs => hs

theorem failure : Keeps I (failure : OptionT (StateM σ) α) := fun _ hs => hs

theorem bind {m : OptionT (StateM σ) β} {f : β → OptionT (StateM σ) α} (hm : Keeps I m)
    (hf : ∀ b, Keeps I (f b)) : Keeps I (m >>= f) :=
  Triple.bind hm hf

theorem ite {c : Prop} [Decidable c] {m n : OptionT (StateM σ) α} (hm : Keeps I m) (hn : Keeps I n) :
    Keeps I (if c then m else n) :=
  Triple.ite (fun _ => hm) fun _ => hn

end Keeps

namespace Upto

theorem pure {a : α} (h : ∀ s, P s → Q a s) : Upto F P (Pure.pure a) Q := fun s hs => Or.inr (h s hs)

/-- What follows a program that may end with a fault keeps it. -/
theorem bind {R : β → σ → Prop} {m : OptionT (StateM σ) β} {f : β → OptionT (StateM σ) α}
    (hm : Upto F P m R) (hkeeps : ∀ b, Keeps F (f b)) (hf : ∀ b, Upto F (R b) (f b) Q) :
    Upto F P (m >>= f) Q := by
  refine Triple.bind hm fun b s hs => ?_
  rcases hs with hfault | hs
  case inl => exact (hkeeps b).conseq (fun _ h => h) (fun _ _ h => Or.inl h) (fun _ h => h) s hfault
  case inr => exact hf b s hs

theorem conseq {m : OptionT (StateM σ) α} (h : Upto F P m Q) (hP : ∀ s, P' s → P s)
    (hQ : ∀ a s, Q a s → Q' a s) : Upto F P' m Q' :=
  Triple.conseq h hP (fun a s hs => hs.imp_right (hQ a s)) fun _ hs => hs

theorem ite {c : Prop} [Decidable c] {m n : OptionT (StateM σ) α} (hm : c → Upto F P m Q)
    (hn : ¬c → Upto F P n Q) : Upto F P (if c then m else n) Q :=
  Triple.ite hm hn

end Upto

end Exceptional
