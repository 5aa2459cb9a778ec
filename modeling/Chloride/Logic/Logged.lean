import Mathlib.Data.List.Basic

/-!
# Programs that ask the outside

A program calls something outside whose answers are not known. What happens is a list of events, an answer depends on
what has happened before, and a program adds what happens in it. It ends with a value or with an error, or it has not
ended yet. `Yields` is what holds of the end and of the events of a program, whatever has happened before.
-/

/-- How a program has ended, or that it goes on. -/
inductive Status (ε α : Type) where
  | done (value : α)
  | thrown (error : ε)
  | running
  deriving DecidableEq

/-- From what has happened, the end and what happens in the program. -/
def Logged (Event ε α : Type) : Type := List Event → Status ε α × List Event

namespace Logged

variable {Event ε α β : Type}

instance : Monad (Logged Event ε) where
  pure a := fun _ => (.done a, [])
  bind m f := fun history =>
    match m history with
    | (.done a, events) => ((f a (history ++ events)).1, events ++ (f a (history ++ events)).2)
    | (.thrown e, events) => (.thrown e, events)
    | (.running, events) => (.running, events)

/-- A call, with the event that its answer is. -/
def call (answer : List Event → α) (event : α → Event) : Logged Event ε α :=
  fun history => (.done (answer history), [event (answer history)])

def throw (error : ε) : Logged Event ε α := fun _ => (.thrown error, [])

/-- The program goes on. -/
def goOn : Logged Event ε α := fun _ => (.running, [])

/-- What has happened is looked at. -/
def ask (answer : List Event → α) : Logged Event ε α := fun history => (.done (answer history), [])

/-- What holds of the end and of the events. -/
def Yields (m : Logged Event ε α) (P : Status ε α → List Event → Prop) : Prop :=
  ∀ history, P (m history).1 (m history).2

namespace Yields

variable {m : Logged Event ε α} {P P' : Status ε α → List Event → Prop} {Q : Status ε β → List Event → Prop}
  {f : α → Logged Event ε β}

theorem pure {a : α} (h : P (.done a) []) : Yields (Pure.pure a) P := fun _ => h

theorem throw {e : ε} (h : P (.thrown e) []) : Yields (Logged.throw e) P := fun _ => h

theorem goOn (h : P .running []) : Yields Logged.goOn P := fun _ => h

theorem conseq (hm : Yields m P) (h : ∀ status events, P status events → P' status events) : Yields m P' :=
  fun history => h _ _ (hm history)

theorem ite {c : Prop} [Decidable c] {n : Logged Event ε α} (hm : c → Yields m P) (hn : ¬c → Yields n P) :
    Yields (if c then m else n) P := by
  split
  case isTrue hc => exact hm hc
  case isFalse hc => exact hn hc

/-- One program behind another. -/
theorem bind (hm : Yields m P)
    (hdone : ∀ a events, P (.done a) events → Yields (f a) fun status more => Q status (events ++ more))
    (hthrown : ∀ e events, P (.thrown e) events → Q (.thrown e) events)
    (hrunning : ∀ events, P .running events → Q .running events) : Yields (m >>= f) Q := by
  intro history
  have h := hm history
  unfold Bind.bind Monad.toBind instMonad
  dsimp only
  rcases hrun : m history with ⟨a | e | _, events⟩
  all_goals rw [hrun] at h
  case done => exact hdone a events h (history ++ events)
  case thrown => exact hthrown e events h
  case running => exact hrunning events h

/-- A program behind a call. -/
theorem call_bind {answer : List Event → α} {event : α → Event}
    (h : ∀ a, Yields (f a) fun status more => Q status (event a :: more)) : Yields (call answer event >>= f) Q :=
  fun history => h (answer history) (history ++ [event (answer history)])

theorem ask_bind {answer : List Event → α} (h : ∀ a, Yields (f a) Q) : Yields (ask answer >>= f) Q :=
  fun history => h (answer history) (history ++ [])

end Yields

end Logged
