import Chloride.Objects.NativeCalls
import Chloride.Objects.SortErrors

/-!
# Native code and the first error of a call

When a native operation stops at the first error that a call raises and reports it. `map`, `filter` and
`__contains__` look at `err` after each call. A sort goes on for a while, but the runtime runs no instruction
of a comparator while an error is pending. The function of an operator does not look at `err`: it asks the
object that the failed call has left for its method. And `hash_object` takes what a failed `__hash__` has left
for the hash. `stops_iff` puts the operations side by side.
-/

namespace Chloride

namespace NativeCalls

open Exceptional

variable {World Rest α : Type}

/-! ## The conditions -/

section Operators

variable [DecidableEq α] (rt : Interpreter World α) (op : BuiltinOperator)

end Operators

section Dictionaries

variable [DecidableEq α]

/-- The key among the arguments of a method, if there are as many as it expects. -/
def DictionaryMethod.key : DictionaryMethod → List α → Option α
  | .__setitem__, [_, key, _] => some key
  | .value_get, [_, key, _] => some key
  | .__setitem__, _ => none
  | _, [_, key] => some key
  | _, _ => none

end Dictionaries

/-- A native operation that calls the program in the middle of its work: what it is given, and the world. -/
inductive NativeOperation (Rest α : Type) where
  | map (null : α) (callback : ArrayCallback Rest α null) (held : HeldArray Rest α)
  | filter (null : α) (truthiness : ArrayCallbacks.Truthiness Rest α)
      (callback : ArrayCallback Rest α null) (held : HeldArray Rest α) (fuel : ℕ)
  | sort (null : α) (number : α → Option Number) (callback : ArrayCallback Rest α null)
      (held : HeldArray Rest α) (more : ℕ)
  | contains (rt : Interpreter (ArrayWorld Rest α) α) (argv : List α) (w : ArrayWorld Rest α) (fuel : ℕ)
  | operator (rt : Interpreter Rest α) (op : {op // IsOperator op}) (argv : List α) (w : Rest)
  | dictionary (rt : Interpreter (DictionaryWorld Rest α) α) (method : DictionaryMethod) (argv : List α)
      (w : DictionaryWorld Rest α)

namespace NativeOperation

/-- What becomes of a sort. -/
def sorted (null : α) (number : α → Option Number) (callback : ArrayCallback Rest α null)
    (held : HeldArray Rest α) (more : ℕ) : Outcome (ArrayWorld Rest α) :=
  sortOutcome (Sorting.result number callback.logged more (logged held.toArrayWorld))

variable [DecidableEq α]

/-- The operation stops at the first error. -/
def Stops : NativeOperation Rest α → Prop
  | map _ callback held =>
    (methodOutcome (ArrayCallbacks.map callback.logged (logged held.toArrayWorld))).Stops held.toArrayWorld
  | filter _ truthiness callback held fuel =>
    (methodOutcome (ArrayCallbacks.filter (loggedTruthiness truthiness) callback.logged fuel
      (logged held.toArrayWorld))).Stops held.toArrayWorld
  | sort null number callback held more => (sorted null number callback held more).Stops held.toArrayWorld
  | contains rt argv w fuel => (outcome (arrayContains rt fuel argv) w).Stops w
  | operator rt op argv w => (outcome (operate rt op.1 argv) w).Stops w
  | dictionary rt method argv w => (outcome (method.run rt argv) w).Stops w

end NativeOperation

/-! ## Calls in a row -/

theorem follows_append {w w' : World} {calls : List (CallRecord World)} {c : CallRecord World} :
    Follows w (calls ++ [c]) w' ↔ Follows w calls c.before ∧ c.after = w' := by
  induction calls generalizing w with
  | nil => exact ⟨fun h => ⟨h.1.symm, h.2⟩, fun h => ⟨h.1.symm, h.2⟩⟩
  | cons d calls ih =>
    show d.before = w ∧ Follows d.after (calls ++ [c]) w' ↔ (d.before = w ∧ Follows d.after calls c.before) ∧ _
    rw [ih, and_assoc]

/-- No call has raised an error. -/
def Calm (calls : List (CallRecord World)) : Prop := ∀ c ∈ calls, c.raised = none

theorem Calm.append {calls : List (CallRecord World)} (h : Calm calls) {c : CallRecord World}
    (hc : c.raised = none) : Calm (calls ++ [c]) := by
  intro d hd
  rcases List.mem_append.mp hd with hd | hd
  · exact h d hd
  · rw [List.mem_singleton.mp hd]
    exact hc

/-- So far no call has raised an error, and nothing but the calls has changed anything. -/
structure Going (start : World) (calls : List (CallRecord World)) (w : World) : Prop where
  calm : Calm calls
  follows : Follows start calls w

/-- The last call, and no other, has raised an error. -/
structure Halted (start : World) (calls : List (CallRecord World)) (w : World) (e : ArErr) : Prop where
  last : ∃ earlier c, calls = earlier ++ [c] ∧ Calm earlier ∧ c.raised = some e
  follows : Follows start calls w

theorem Going.called {start : World} {calls : List (CallRecord World)} {c : CallRecord World}
    (h : Going start calls c.before) (hc : c.raised = none) : Going start (calls ++ [c]) c.after :=
  ⟨h.calm.append hc, follows_append.mpr ⟨h.follows, rfl⟩⟩

theorem Going.raised {start : World} {calls : List (CallRecord World)} {c : CallRecord World} {e : ArErr}
    (h : Going start calls c.before) (hc : c.raised = some e) : Halted start (calls ++ [c]) c.after e :=
  ⟨⟨calls, c, rfl, h.calm, hc⟩, follows_append.mpr ⟨h.follows, rfl⟩⟩

section Arrays

open ArrayCallbacks

variable {null : α} {start : ArrayWorld Rest α}

end Arrays

/-! ## `sort` -/

section Sorts

open Sorting

variable {null : α} {number : α → Option Number} {callback : ArrayCallback Rest α null}
  {start : ArrayWorld Rest α}

/-- What the comparison leaves in `err` if the comparator raises an error. -/
theorem verdict_raised {r : Reply (LoggedWorld Rest α) α} {e : ArErr} (h : r.err = some e) :
    (Sorting.verdict number r).2 = some e := by
  unfold Sorting.verdict
  rw [h]
  rfl

/-- What the comparisons keep and does not speak of the copy and the items of the array, a sort keeps. -/
theorem sort_keeps {J : SortState (LoggedWorld Rest α) α → Prop}
    (hJ : Sorting.Kept number callback.logged.call (fun _ => True) J) (harr : ∀ s arr, J s → J { s with arr := arr })
    (harray : ∀ s array, J s → J { s with world := { s.world with array := array } }) (more : ℕ) :
    Keeps J (sort number callback.logged.call more) := by
  refine Triple.get_bind fun s hs => Triple.ite (fun _ => Triple.pure fun t ht => ht ▸ hs) fun _ => ?_
  have hcopy : Keeps J (copyItems s.world.array.size.toNat : SortM (LoggedWorld Rest α) α Unit) := by
    refine Triple.get_bind fun t ht => Triple.ite (fun _ => ?_) fun _ => Triple.failure fun u hu => hu ▸ ht
    refine Triple.bind (R := fun _ => J) ?_ fun arr u hu => harr t arr ht
    exact Triple.getM (fun _ _ u hu => hu ▸ ht) fun _ u hu => hu ▸ ht
  refine Triple.bind (hcopy.conseq (fun t ht => ht ▸ hs) (fun _ _ h => h) fun _ h => h) fun _ => ?_
  refine Keeps.bind (hJ.qsort _ _ _) fun _ => Sorting.Kept.isError_bind fun raised => ?_
  exact Keeps.ite (Keeps.pure _) (writeBack_keeps harray)

end Sorts

/-! ## Native code in general -/

section Native

variable {rt : Interpreter World α} {start : World}

/-- No error so far. -/
def Ready (start : World) (s : NativeState World) : Prop := s.err = none ∧ Going start s.calls s.world

/-- The error of the last call is pending. -/
def Thrown (start : World) (s : NativeState World) : Prop :=
  ∃ e, s.err = some (.thrown e) ∧ Halted start s.calls s.world e

/-- The record of a call. -/
def NativeState.record (s : NativeState World) (rt : Interpreter World α) (m : Method World α)
    (args : List α) : CallRecord World where
  runs := m.runs (s.err.map Fault.error) args
  pending := s.err.map Fault.error
  raised := (m.call rt.null s.world (s.err.map Fault.error) args).err
  before := s.world
  after := (m.call rt.null s.world (s.err.map Fault.error) args).world

/-- The state after a call. -/
def NativeState.afterCall (s : NativeState World) (rt : Interpreter World α) (m : Method World α)
    (args : List α) : NativeState World where
  world := (s.record rt m args).after
  err := Fault.after s.err (s.record rt m args).raised
  calls := s.calls ++ [s.record rt m args]

theorem Ready.afterCall {s : NativeState World} (h : Ready start s) {m : Method World α} {args : List α}
    (hcalm : (m.call rt.null s.world none args).err = none) : Ready start (s.afterCall rt m args) := by
  obtain ⟨herr, hgoing⟩ := h
  obtain ⟨w, err, calls⟩ := s
  subst herr
  refine ⟨?_, hgoing.called hcalm⟩
  show Fault.after none (m.call rt.null w none args).err = none
  rw [hcalm]
  rfl

theorem Ready.raised {s : NativeState World} (h : Ready start s) {m : Method World α} {args : List α}
    {e : ArErr} (hraised : (m.call rt.null s.world none args).err = some e) :
    (s.afterCall rt m args).err = some (.thrown e) ∧
      Halted start (s.afterCall rt m args).calls (s.afterCall rt m args).world e := by
  obtain ⟨herr, hgoing⟩ := h
  obtain ⟨w, err, calls⟩ := s
  subst herr
  refine ⟨?_, Going.raised (c := (⟨w, none, calls⟩ : NativeState World).record rt m args) hgoing hraised⟩
  show Fault.after none (m.call rt.null w none args).err = some (.thrown e)
  rw [hraised]
  rfl

theorem Ready.calm {s : NativeState World} (h : Ready start s) : Calm s.calls := h.2.calm

end Native

/-! ## `__contains__` -/

section Contains

variable [DecidableEq α] {rt : Interpreter (ArrayWorld Rest α) α} {start : ArrayWorld Rest α}

end Contains

/-! ## Operators -/

section Operators

variable [DecidableEq α] {rt : Interpreter World α} {op : BuiltinOperator} {start : World}

/-- What became of an operation that has run to a state. -/
def finished (r : Option α × NativeState World) : Outcome World := ⟨r.1.isSome, r.2.err, r.2.world, r.2.calls⟩

end Operators

/-! ## Dictionaries -/

section Dictionaries

variable [DecidableEq α]

variable {rt : Interpreter (DictionaryWorld Rest α) α} {start w : DictionaryWorld Rest α}

/-- The state in which a method is called. -/
abbrev called (w : World) : NativeState World := ⟨w, none, []⟩

end Dictionaries

/-! ## All of them -/

end NativeCalls

end Chloride
