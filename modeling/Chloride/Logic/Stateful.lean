import Chloride.Logic.Logged

/-!
# Programs with a state, errors and fuel

A program changes a state and ends with a value or with an error, or it has not ended when its fuel is used up. A
triple has a postcondition for each of these; one that is false for a program that has not ended says that the program
ends.
-/

/-- From a state, the end and the state that is left. -/
def Stateful (σ ε α : Type) : Type := σ → Status ε α × σ

namespace Stateful

variable {σ ε ε' α β : Type}

instance : Monad (Stateful σ ε) where
  pure a := fun s => (.done a, s)
  bind m f := fun s =>
    match m s with
    | (.done a, s) => f a s
    | (.thrown e, s) => (.thrown e, s)
    | (.running, s) => (.running, s)

def throw (error : ε) : Stateful σ ε α := fun s => (.thrown error, s)

/-- The program goes on. -/
def goOn : Stateful σ ε α := fun s => (.running, s)

/-- An error is a value. -/
def attempt (m : Stateful σ ε α) : Stateful σ ε' (Except ε α) := fun s =>
  match m s with
  | (.done a, s) => (.done (.ok a), s)
  | (.thrown e, s) => (.done (.error e), s)
  | (.running, s) => (.running, s)

/-- The state is looked at. -/
def get (f : σ → α) : Stateful σ ε α := fun s => (.done (f s), s)

def modify (f : σ → σ) : Stateful σ ε Unit := fun s => (.done (), f s)

/-- What holds of an end. -/
def Ends (Q : α → σ → Prop) (E : ε → σ → Prop) (R : σ → Prop) : Status ε α × σ → Prop
  | (.done a, s) => Q a s
  | (.thrown e, s) => E e s
  | (.running, s) => R s

/-- From a state with `P`, the program ends with `Q` or with an error and `E`, or has not ended and is in a state
with `R`. -/
def Triple (P : σ → Prop) (m : Stateful σ ε α) (Q : α → σ → Prop) (E : ε → σ → Prop) (R : σ → Prop) : Prop :=
  ∀ s, P s → Ends Q E R (m s)

/-- What holds before the program holds after it, however it ends. -/
def Keeps (I : σ → Prop) (m : Stateful σ ε α) : Prop := Triple I m (fun _ => I) (fun _ => I) I

namespace Triple

variable {P P' R R' : σ → Prop} {Q Q' : α → σ → Prop} {E E' : ε → σ → Prop} {m : Stateful σ ε α}

theorem pure {a : α} (h : ∀ s, P s → Q a s) : Triple P (Pure.pure a) Q E R := fun s hs => h s hs

theorem throw {e : ε} (h : ∀ s, P s → E e s) : Triple P (Stateful.throw e) Q E R := fun s hs => h s hs

theorem goOn (h : ∀ s, P s → R s) : Triple P (Stateful.goOn : Stateful σ ε α) Q E R := fun s hs => h s hs

theorem bind {m : Stateful σ ε β} {f : β → Stateful σ ε α} {M : β → σ → Prop} (hm : Triple P m M E R)
    (hf : ∀ b, Triple (M b) (f b) Q E R) : Triple P (m >>= f) Q E R := by
  intro s hs
  have hrun := hm s hs
  unfold Bind.bind Monad.toBind instMonad
  dsimp only
  rcases hend : m s with ⟨b | e | _, s'⟩
  all_goals rw [hend] at hrun
  case done => exact hf b s' hrun
  case thrown => exact hrun
  case running => exact hrun

theorem conseq (h : Triple P m Q E R) (hP : ∀ s, P' s → P s) (hQ : ∀ a s, Q a s → Q' a s)
    (hE : ∀ e s, E e s → E' e s) (hR : ∀ s, R s → R' s) : Triple P' m Q' E' R' := by
  intro s hs
  have hrun := h s (hP s hs)
  rcases hend : m s with ⟨a | e | _, s'⟩
  all_goals rw [hend] at hrun
  case done => exact hQ a s' hrun
  case thrown => exact hE e s' hrun
  case running => exact hR s' hrun

theorem ite {c : Prop} [Decidable c] {n : Stateful σ ε α} (hm : c → Triple P m Q E R) (hn : ¬c → Triple P n Q E R) :
    Triple P (if c then m else n) Q E R := by
  split
  case isTrue hc => exact hm hc
  case isFalse hc => exact hn hc

theorem attempt {Q : Except ε α → σ → Prop} {E : ε' → σ → Prop}
    (h : Triple P m (fun a => Q (.ok a)) (fun e => Q (.error e)) R) :
    Triple P (Stateful.attempt m : Stateful σ ε' (Except ε α)) Q E R := by
  intro s hs
  have hrun := h s hs
  unfold Stateful.attempt
  rcases hend : m s with ⟨a | e | _, s'⟩
  all_goals rw [hend] at hrun
  case done => exact hrun
  case thrown => exact hrun
  case running => exact hrun

/-- What is done behind an attempt, for each end of it. -/
theorem attempt_bind {m : Stateful σ ε' β} {f : Except ε' β → Stateful σ ε α} {M : β → σ → Prop} {F : ε' → σ → Prop}
    (hm : Triple P m M F R) (hok : ∀ b, Triple (M b) (f (.ok b)) Q E R)
    (herror : ∀ e, Triple (F e) (f (.error e)) Q E R) : Triple P (Stateful.attempt m >>= f) Q E R := by
  refine bind (M := fun r s => match r with | .ok b => M b s | .error e => F e s) (attempt hm) fun r => ?_
  cases r with
  | ok b => exact hok b
  | error e => exact herror e

theorem get {f : σ → α} (h : ∀ s, P s → Q (f s) s) : Triple P (Stateful.get f) Q E R := fun s hs => h s hs

theorem modify {f : σ → σ} {Q : Unit → σ → Prop} (h : ∀ s, P s → Q () (f s)) :
    Triple P (Stateful.modify f) Q E R := fun s hs => h s hs

/-- The program may be looked at for each state it starts in. -/
theorem of_state (h : ∀ s, P s → Triple (Eq s) m Q E R) : Triple P m Q E R := fun s hs => h s hs s rfl

/-- A program in one of the states that it may start in. -/
theorem in_state (h : Triple P m Q E R) {s : σ} (hs : P s) : Triple (Eq s) m Q E R := fun _ heq => h _ (heq ▸ hs)

/-- Of two programs the second one may be looked at for each state in which the first one ends. -/
theorem bind_state {m : Stateful σ ε β} {f : β → Stateful σ ε α} {M : β → σ → Prop} (hm : Triple P m M E R)
    (hf : ∀ b s, M b s → Triple (Eq s) (f b) Q E R) : Triple P (m >>= f) Q E R := bind hm fun b => of_state (hf b)

/-- A program that starts in no state. -/
theorem of_false (h : ∀ s, ¬P s) : Triple P m Q E R := fun s hs => absurd hs (h s)

end Triple

namespace Keeps

variable {I : σ → Prop} {m : Stateful σ ε α}

theorem bind {m : Stateful σ ε β} {f : β → Stateful σ ε α} (hm : Keeps I m) (hf : ∀ b, Keeps I (f b)) :
    Keeps I (m >>= f) := Triple.bind hm hf

theorem pure (a : α) : Keeps I (Pure.pure a : Stateful σ ε α) := fun _ hs => hs

theorem throw (e : ε) : Keeps I (Stateful.throw e : Stateful σ ε α) := fun _ hs => hs

theorem attempt (hm : Keeps I m) : Keeps I (Stateful.attempt m : Stateful σ ε' (Except ε α)) := Triple.attempt hm

end Keeps

end Stateful
