import Mathlib

/-!
# Dialogues

A computation that asks questions one after the other, each time with what it has been told so far, and ends with a
value or an error. An answer may be an error, which ends it at once. `Ends` says with what a dialogue ends for a list of
questions with their answers: these are all the questions it asks, in their order. `Begins` says that a list of
questions with their answers is how a dialogue begins, and `run` is a dialogue with someone who has an answer to each
question.
-/

/-- What is asked next, and what is done with the answer. -/
inductive Dialogue (Q A E α : Type) where
  | done (result : Except E α)
  | ask (question : Q) (next : A → Dialogue Q A E α)

namespace Dialogue

variable {Q A E α β : Type}

def bind : Dialogue Q A E α → (α → Dialogue Q A E β) → Dialogue Q A E β
  | .done (.ok a), f => f a
  | .done (.error e), _ => .done (.error e)
  | .ask question next, f => .ask question fun answer => (next answer).bind f

instance : Monad (Dialogue Q A E) where
  pure a := .done (.ok a)
  bind := bind

/-- One question. -/
def question (q : Q) : Dialogue Q A E A := .ask q fun answer => .done (.ok answer)

/-- With these questions and answers the dialogue ends in this way. -/
def Ends : Dialogue Q A E α → List (Q × Except E A) → Except E α → Prop
  | .done result, exchanges, outcome => exchanges = [] ∧ outcome = result
  | .ask q next, exchanges, outcome =>
    (∃ e, exchanges = [(q, .error e)] ∧ outcome = .error e) ∨
      ∃ answer rest, exchanges = (q, .ok answer) :: rest ∧ (next answer).Ends rest outcome

/-- With these questions and answers the dialogue is under way. -/
def Begins : Dialogue Q A E α → List (Q × Except E A) → Prop
  | .done _, exchanges => exchanges = []
  | .ask q next, exchanges =>
    exchanges = [] ∨ ∃ answer rest, exchanges = (q, .ok answer) :: rest ∧ (next answer).Begins rest

/-- The dialogue with someone who has an answer to each question. -/
def run (oracle : Q → Except E A) : Dialogue Q A E α → Except E α
  | .done result => result
  | .ask q next =>
    match oracle q with
    | .ok answer => (next answer).run oracle
    | .error e => .error e

variable {d : Dialogue Q A E α} {f : α → Dialogue Q A E β} {l l' : List (Q × Except E A)} {outcome : Except E β}

@[simp]
theorem bind_pure (d : Dialogue Q A E α) : d >>= pure = d := by
  induction d with
  | done result => cases result <;> rfl
  | ask q next ih => exact congrArg (ask q) (funext ih)

@[simp]
theorem pure_bind (a : α) (f : α → Dialogue Q A E β) : pure a >>= f = f a := rfl

theorem bind_assoc {γ : Type} (d : Dialogue Q A E α) (f : α → Dialogue Q A E β) (g : β → Dialogue Q A E γ) :
    d >>= f >>= g = d >>= fun a => f a >>= g := by
  induction d with
  | done result => cases result <;> rfl
  | ask q next ih => exact congrArg (ask q) (funext ih)

theorem ends_pure (a : α) : (pure a : Dialogue Q A E α).Ends [] (.ok a) := ⟨rfl, rfl⟩

theorem ends_question (q : Q) (answer : Except E A) : (question q : Dialogue Q A E A).Ends [(q, answer)] answer := by
  cases answer with
  | error e => exact Or.inl ⟨e, rfl, rfl⟩
  | ok a => exact Or.inr ⟨a, [], rfl, rfl, rfl⟩

theorem begins_nil (d : Dialogue Q A E α) : d.Begins [] := by
  cases d with
  | done result => rfl
  | ask q next => exact Or.inl rfl

/-- A dialogue goes on behind the end of its first part. -/
theorem Ends.bind {a : α} (h : d.Ends l (.ok a)) (h' : (f a).Ends l' outcome) : (d >>= f).Ends (l ++ l') outcome := by
  induction d generalizing l with
  | done result =>
    obtain ⟨rfl, hresult⟩ := h
    subst hresult
    exact h'
  | ask q next ih =>
    rcases h with ⟨e, -, herror⟩ | ⟨answer, rest, rfl, h⟩
    · cases herror
    · exact Or.inr ⟨answer, rest ++ l', rfl, ih answer h⟩

/-- An error ends it. -/
theorem Ends.bind_error {e : E} (h : d.Ends l (.error e)) : (d >>= f).Ends l (.error e) := by
  induction d generalizing l with
  | done result =>
    obtain ⟨rfl, hresult⟩ := h
    subst hresult
    exact ⟨rfl, rfl⟩
  | ask q next ih =>
    rcases h with ⟨e', rfl, herror⟩ | ⟨answer, rest, rfl, h⟩
    · cases herror
      exact Or.inl ⟨e, rfl, rfl⟩
    · exact Or.inr ⟨answer, rest, rfl, ih answer h⟩

/-- The beginning of the first part of a dialogue is one of the whole. -/
theorem Begins.bind (h : d.Begins l) : (d >>= f).Begins l := by
  induction d generalizing l with
  | done result =>
    cases h
    exact begins_nil _
  | ask q next ih =>
    rcases h with rfl | ⟨answer, rest, rfl, h⟩
    · exact Or.inl rfl
    · exact Or.inr ⟨answer, rest, rfl, ih answer h⟩

/-- Behind the end of the first part the second begins. -/
theorem Ends.begins {a : α} (h : d.Ends l (.ok a)) (h' : (f a).Begins l') : (d >>= f).Begins (l ++ l') := by
  induction d generalizing l with
  | done result =>
    obtain ⟨rfl, hresult⟩ := h
    subst hresult
    exact h'
  | ask q next ih =>
    rcases h with ⟨e, -, herror⟩ | ⟨answer, rest, rfl, h⟩
    · cases herror
    · exact Or.inr ⟨answer, rest ++ l', rfl, ih answer h⟩

theorem run_bind (oracle : Q → Except E A) (d : Dialogue Q A E α) (f : α → Dialogue Q A E β) :
    (d >>= f).run oracle = (d.run oracle).bind fun a => (f a).run oracle := by
  induction d with
  | done result => cases result <;> rfl
  | ask q next ih =>
    show Dialogue.run oracle (.ask q fun answer => next answer >>= f) = _
    rw [run, run]
    cases oracle q with
    | ok answer => exact ih answer
    | error e => rfl

theorem run_question (oracle : Q → Except E A) (q : Q) : (question q).run oracle = oracle q := by
  unfold question run
  cases oracle q <;> rfl

/-- If all the answers are those of an oracle, the dialogue ends as the one with the oracle. -/
theorem Ends.run {outcome : Except E α} {oracle : Q → Except E A} (h : d.Ends l outcome)
    (horacle : ∀ exchange ∈ l, oracle exchange.1 = exchange.2) : d.run oracle = outcome := by
  induction d generalizing l with
  | done result => exact h.2.symm
  | ask q next ih =>
    rcases h with ⟨e, rfl, rfl⟩ | ⟨answer, rest, rfl, h⟩
    · have hq : oracle q = .error e := horacle _ List.mem_cons_self
      rw [Dialogue.run, hq]
    · have hq : oracle q = .ok answer := horacle _ List.mem_cons_self
      rw [Dialogue.run, hq]
      exact ih answer h fun exchange hmem => horacle exchange (List.mem_cons_of_mem _ hmem)

end Dialogue
