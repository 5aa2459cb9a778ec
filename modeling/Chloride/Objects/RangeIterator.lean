import Chloride.Numerics.Progression
import Chloride.Runtime.Computation

/-!
# Ranges

The range iterator of `src/runtime/objects/iterator/range_iterator.c`: how it is made from numbers, and its
step, with a path for 64-bit integers and one for number objects. `ranges_iff` says for which ranges it
gives the arithmetic progression that the range stands for: on the one path the sum behind the last term
must fit, and the other leaves out the bound of an inclusive range, does not refuse a step of zero, and
compares with the methods of numbers.
-/

namespace Chloride

/-- `struct as_range_iterator` -/
inductive RangeIterator where
  | int64 (inclusive : Bool) (current stop step : Int64)
  | objects (inclusive : Bool) (current stop step : Number)

namespace RangeIterator

/-- `ARGON_RANGE_ITERATOR_TYPE___init__`, for the arguments behind `self`, which are numbers. -/
def init : List Number → Except ArErr RangeIterator
  | [.i64 stop] => .ok (.int64 false 0 stop 1)
  | [stop] => .ok (.objects false (.i64 0) stop (.i64 1))
  | [.i64 start, .i64 stop] => .ok (.int64 false start stop 1)
  | [start, stop] => .ok (.objects false start stop (.i64 1))
  | [.i64 start, .i64 stop, .i64 step] =>
    if step = 0 then .error ⟨"RuntimeError", "step cannot be 0"⟩ else .ok (.int64 false start stop step)
  | [start, stop, step] => .ok (.objects false start stop step)
  | argv =>
    let argc := argv.length + 1
    .error ⟨"RuntimeError", s!"__init__ expects 2 to 4 arguments, got {argc}"⟩

/-- `DO_MAKE_RANGE_INCLUSIVE` -/
def makeInclusive : RangeIterator → RangeIterator
  | .int64 _ current stop step => .int64 true current stop step
  | .objects _ current stop step => .objects true current stop step

/-- What a step of the iterator gives: a number, or `StopIteration`. -/
inductive Step where
  | value (n : Number)
  | stopIteration

/-- The test for the end on the path for integers. -/
def ended (inclusive : Bool) (current stop step : Int64) : Bool :=
  if inclusive then step > 0 && current > stop || step < 0 && current < stop
  else step > 0 && current ≥ stop || step < 0 && current ≤ stop

/-- The test for the end on the path for objects. -/
def objectsEnded (current stop step : Number) : Bool :=
  step.greaterThan (.i64 0) && current.greaterThanEqual stop ||
    step.lessThan (.i64 0) && current.lessThanEqual stop

/-- `ARGON_RANGE_ITERATOR_TYPE___next__` -/
def next : RangeIterator → Option (Step × RangeIterator)
  | .int64 inclusive current stop step =>
    if ended inclusive current stop step then
      some (.stopIteration, .int64 inclusive current stop step)
    else do return (.value (.i64 current), .int64 inclusive (← Signed64.add current step) stop step)
  | .objects inclusive current stop step =>
    if objectsEnded current stop step then
      some (.stopIteration, .objects inclusive current stop step)
    else do return (.value current, .objects inclusive (← current.add step) stop step)

/-! ## What it should give -/

/-- The iterator gives certain numbers one after the other, and then signals the end as often as it is
asked. -/
def Yields : RangeIterator → List ℚ → Prop
  | it, [] => it.next = some (.stopIteration, it)
  | it, v :: vs => ∃ it', it.next = some (.value (numberOf v), it') ∧ Yields it' vs

end RangeIterator

/-- The first terms of a progression. -/
def progressionTerms (start step : ℚ) (n : ℕ) : List ℚ :=
  (List.range n).map fun k : ℕ => start + k * step

/-- Up to three numbers as the arguments of a range. -/
inductive RangeArgs where
  | upTo (stop : NumberObject)
  | between (start stop : NumberObject)
  | stepping (start stop step : NumberObject)

namespace RangeArgs

def argv : RangeArgs → List Number
  | .upTo stop => [stop.1]
  | .between start stop => [start.1, stop.1]
  | .stepping start stop step => [start.1, stop.1, step.1]

def start : RangeArgs → ℚ
  | .upTo _ => 0
  | .between start _ => start.1.toRat
  | .stepping start _ _ => start.1.toRat

def stop : RangeArgs → ℚ
  | .upTo stop => stop.1.toRat
  | .between _ stop => stop.1.toRat
  | .stepping _ stop _ => stop.1.toRat

def step : RangeArgs → ℚ
  | .upTo _ => 1
  | .between _ _ => 1
  | .stepping _ _ step => step.1.toRat

/-- The number of the terms of the range. -/
def count (args : RangeArgs) (inclusive : Bool) : ℕ :=
  Progression.count inclusive args.start args.stop args.step

/-- The terms of the range. -/
def terms (args : RangeArgs) (inclusive : Bool) : List ℚ :=
  progressionTerms args.start args.step (args.count inclusive)

/-- The code takes the path for integers. -/
def Int64s (args : RangeArgs) : Prop := ∀ a ∈ args.argv, ∃ n, a = .i64 n

/-- The iterator as the code of a range makes it. -/
def iterator (args : RangeArgs) (inclusive : Bool) : Except ArErr RangeIterator := do
  let it ← RangeIterator.init args.argv
  return if inclusive then it.makeInclusive else it

/-- A range with a step of zero is rejected, and any other is iterated over term for term. -/
def Iterates (args : RangeArgs) (inclusive : Bool) : Prop :=
  if args.step = 0 then ∃ e, args.iterator inclusive = .error e
  else ∃ it, args.iterator inclusive = .ok it ∧ it.Yields (args.terms inclusive)

/-- The path for objects gives the numbers that the one for integers gives. -/
def PathsAgree (args : RangeArgs) (inclusive : Bool) : Prop :=
  ∀ it vs, args.iterator inclusive = .ok it → it.Yields vs →
    (RangeIterator.objects inclusive (numberOf args.start) (numberOf args.stop)
      (numberOf args.step)).Yields vs

/-- A range is iterated over rightly, whichever path is taken where both apply. -/
structure IteratesRightly (args : RangeArgs) (inclusive : Bool) : Prop where
  iterates : args.Iterates inclusive
  pathsAgree : args.Int64s → args.PathsAgree inclusive

/-- The sum behind the last term fits, if there is a term. -/
def NextFits (args : RangeArgs) (inclusive : Bool) : Prop :=
  args.count inclusive = 0 ∨
    ∃ n : Int64, (n.toInt : ℚ) = args.start + args.count inclusive * args.step

/-- The bound of an inclusive range is one of its terms. -/
def MeetsStop (args : RangeArgs) (inclusive : Bool) : Prop :=
  inclusive = true ∧ ∃ k : ℕ, args.start + k * args.step = args.stop

/-- The comparison of a term with the bound is wrong: the two are misread, and not by so much that they
count as equal. -/
def Misjudged (step : ℚ) (term stop : Number) : Prop :=
  Misread term stop ∧ if 0 < step then term.toRat ≠ stop.toRat + 2^64 else stop.toRat ≠ term.toRat + 2^64

/-- The comparisons with the bound are right for the terms and the number behind the last. -/
def Judged (args : RangeArgs) (inclusive : Bool) : Prop :=
  ∀ k ≤ args.count inclusive,
    ¬Misjudged args.step (numberOf (args.start + (k : ℕ) * args.step)) (numberOf args.stop)

end RangeArgs

/-! ## The comparisons -/

/-- An integer is not stored as a rational. -/
theorem Mpq.toRat_ne_toInt {q : Mpq} (hq : (Number.mpq q).Normal) (n : Int64) :
    (n.toInt : ℚ) ≠ q.toRat := by
  intro h
  have heq := NumberObject.eq_numberOf (c := ⟨.mpq q, hq⟩) h.symm
  rw [numberOf_eq_i64.mpr rfl] at heq
  cases heq

theorem cast_toNat_toUInt64 {n : Int64} (hn : n < 0) : (n.toUInt64.toNat : ℚ) = n.toInt + 2^64 := by
  have h := Signed64.toNat_toUInt64 n
  rw [if_pos hn] at h
  exact_mod_cast h

theorem greaterThanEqual_iff (a b : NumberObject) :
    a.1.greaterThanEqual b.1 = decide (a.1.toRat ≥ b.1.toRat) ↔
      ¬(Misread a.1 b.1 ∧ a.1.toRat ≠ b.1.toRat + 2^64) := by
  by_cases hmisread : Misread a.1 b.1
  · rw [and_iff_right hmisread]
    have hgreater : a.1.greaterThanEqual b.1 = (reading a.1 b.1).isGE := doGreaterThanEqual_eq a.1 b.1
    rw [hgreater]
    obtain ⟨a, ha⟩ := a
    obtain ⟨b, hb⟩ := b
    -- One of the two is a negative integer and the other a rational.
    cases a with
    | i64 n =>
      cases b with
      | i64 m => exact hmisread.elim
      | mpq q =>
        -- The integer is less, and counts as at least as large.
        obtain ⟨hneg, hle, hge⟩ := hmisread
        have htrue : (reading (.i64 n) (.mpq q)).isGE = true := by
          show (mpqCmpUi q n.toUInt64).swap.isGE = true
          rw [Ordering.isGE_swap, mpqCmpUi_eq, cast_toNat_toUInt64 hneg, Ordering.isLE_iff_ne_gt]
          exact compare_le_iff_le.mpr hge
        have hlt : (n.toInt : ℚ) < q.toRat := lt_of_le_of_ne hle (q.toRat_ne_toInt hb n)
        have hne : (n.toInt : ℚ) ≠ q.toRat + 2^64 := by
          intro h
          linarith
        rw [htrue]
        refine iff_of_false (fun h => ?_) (not_not.mpr hne)
        exact absurd (of_decide_eq_true h.symm) (not_le.mpr hlt)
    | mpq q =>
      cases b with
      | i64 n =>
        -- The integer is less, and counts as larger unless the rational is at the limit.
        obtain ⟨hneg, hle, hge⟩ := hmisread
        have htrue : (reading (.mpq q) (.i64 n)).isGE = true ↔ q.toRat = n.toInt + 2^64 := by
          show (mpqCmpUi q n.toUInt64).isGE = true ↔ _
          rw [mpqCmpUi_eq, cast_toNat_toUInt64 hneg, Ordering.isGE_iff_ne_lt]
          exact compare_ge_iff_ge.trans ⟨fun h => le_antisymm hge h, fun h => h.ge⟩
        have hdecide : decide ((Number.mpq q).toRat ≥ (Number.i64 n).toRat) = true :=
          decide_eq_true hle
        rw [hdecide, htrue, not_not]
        rfl
      | mpq r => exact hmisread.elim
  · refine iff_of_true ?_ fun h => hmisread h.1
    exact ((comparedAsRationals_iff _ _).mpr
      ((reading_eq_compare_iff _ _).mpr hmisread)).greaterThanEqual.2

theorem misread_comm (a b : Number) : Misread a b ↔ Misread b a := by
  unfold Misread
  cases a <;> cases b <;> rfl

theorem lessThanEqual_eq_greaterThanEqual (a b : Number) : a.lessThanEqual b = b.greaterThanEqual a := by
  have hreading : reading b a = (reading a b).swap := by
    cases a with
    | i64 m =>
      cases b with
      | i64 n => exact Std.OrientedOrd.eq_swap
      | mpq q => exact Ordering.swap_swap.symm
    | mpq q =>
      cases b with
      | i64 n => rfl
      | mpq r => exact Std.OrientedOrd.eq_swap
  have hless : a.lessThanEqual b = (reading a b).isLE := doLessThanEqual_eq a b
  have hgreater : b.greaterThanEqual a = (reading b a).isGE := doGreaterThanEqual_eq b a
  rw [hless, hgreater, hreading, Ordering.isGE_swap]

/-- The test for the end is right for a term that is not misjudged. -/
theorem RangeIterator.objectsEnded_iff (term stop : NumberObject) {step : ℚ} (hstep : step ≠ 0) :
    (objectsEnded term.1 stop.1 (numberOf step) = true ↔
      ¬Progression.Before false step term.1.toRat stop.1.toRat) ↔
    ¬RangeArgs.Misjudged step term.1 stop.1 := by
  have hpos : (numberOf step).greaterThan (.i64 0) = decide (0 < step) := by
    have h := (compared_zero step).greaterThan.2
    have hzero : (Number.i64 0).toRat = 0 := Int.cast_zero
    simpa only [numberOf_toRat, hzero, gt_iff_lt] using h
  have hneg : (numberOf step).lessThan (.i64 0) = decide (step < 0) := by
    have h := (compared_zero step).lessThan.2
    have hzero : (Number.i64 0).toRat = 0 := Int.cast_zero
    simpa only [numberOf_toRat, hzero] using h
  unfold objectsEnded Progression.Before RangeArgs.Misjudged
  rw [hpos, hneg]
  rcases lt_or_gt_of_ne hstep with h | h
  · have hle := greaterThanEqual_iff stop term
    rw [misread_comm, ← lessThanEqual_eq_greaterThanEqual, Bool.eq_iff_iff, decide_eq_true_eq] at hle
    simp only [h, h.le.not_gt, decide_true, decide_false, Bool.false_and, Bool.true_and, Bool.false_or,
      Bool.false_eq_true, false_and, true_and, false_or, or_false, not_lt, if_false]
    exact hle
  · have hge := greaterThanEqual_iff term stop
    rw [Bool.eq_iff_iff, decide_eq_true_eq] at hge
    simp only [h, h.le.not_gt, decide_true, decide_false, Bool.false_and, Bool.true_and, Bool.or_false,
      Bool.false_eq_true, false_and, true_and, or_false, not_lt, if_true]
    exact hge

/-! ## The two paths -/

theorem progressionTerms_succ (start step : ℚ) (n : ℕ) :
    progressionTerms start step (n + 1) = start :: progressionTerms (start + step) step n := by
  unfold progressionTerms
  rw [List.range_succ_eq_map, List.map_cons, List.map_map, Nat.cast_zero, zero_mul, add_zero]
  congr 1
  apply List.map_congr_left
  intro k _
  show start + ((k + 1 : ℕ) : ℚ) * step = start + step + k * step
  push_cast
  ring

/-- The first terms of a progression have a property, and the one behind them has another. -/
def Until (p q : ℚ → Prop) (start step : ℚ) (n : ℕ) : Prop :=
  (∀ k < n, p (start + (k : ℕ) * step)) ∧ q (start + n * step)

theorem until_zero (p q : ℚ → Prop) (start step : ℚ) : Until p q start step 0 ↔ q start := by
  unfold Until
  rw [Nat.cast_zero, zero_mul, add_zero]
  exact and_iff_right fun k hk => absurd hk (Nat.not_lt_zero k)

theorem until_succ (p q : ℚ → Prop) (start step : ℚ) (n : ℕ) :
    Until p q start step (n + 1) ↔ p start ∧ Until p q (start + step) step n := by
  have hshift (k : ℕ) : start + (k + 1 : ℕ) * step = start + step + k * step := by
    push_cast
    ring
  unfold Until
  rw [Nat.forall_lt_succ_left, and_assoc, hshift]
  simp only [Nat.cast_zero, zero_mul, add_zero, hshift]

/-- The code for integers compares them as rationals. -/
theorem RangeIterator.ended_iff (inclusive : Bool) (current stop step : Int64) (hstep : step ≠ 0) :
    ended inclusive current stop step = true ↔
      ¬Progression.Before inclusive (step.toInt : ℚ) (current.toInt : ℚ) (stop.toInt : ℚ) := by
  have hne : step.toInt ≠ 0 := fun h => hstep (Signed64.toInt_eq_zero.mp h)
  rw [Progression.before_intCast]
  unfold ended Progression.Before
  simp only [gt_iff_lt, ge_iff_le, Int64.lt_iff_toInt_lt, Int64.le_iff_toInt_le, Int64.toInt_zero]
  cases inclusive with
  | false =>
    rw [if_neg Bool.false_ne_true]
    simp only [Bool.or_eq_true, Bool.and_eq_true, decide_eq_true_eq, Bool.false_eq_true, false_and,
      or_false]
    exact ⟨fun h => by omega, fun h => by omega⟩
  | true =>
    rw [if_pos rfl]
    simp only [Bool.or_eq_true, Bool.and_eq_true, decide_eq_true_eq, true_and]
    exact ⟨fun h => by omega, fun h => by omega⟩

namespace RangeIterator

theorem int64_next (inclusive : Bool) (current stop step : Int64) :
    (int64 inclusive current stop step).next =
      if ended inclusive current stop step then
        some (.stopIteration, int64 inclusive current stop step)
      else (Signed64.add current step).map fun c =>
        (.value (.i64 current), int64 inclusive c stop step) := by
  rw [next]
  cases Signed64.add current step <;> rfl

/-- The path for integers at the end, and before it. -/
theorem int64_yields_nil {inclusive : Bool} {current stop step : Int64} (hstep : step ≠ 0) :
    (int64 inclusive current stop step).Yields [] ↔
      ¬Progression.Before inclusive (step.toInt : ℚ) (current.toInt : ℚ) (stop.toInt : ℚ) := by
  rw [← ended_iff inclusive current stop step hstep]
  show next _ = _ ↔ _
  rw [int64_next]
  constructor
  · intro h
    by_contra hended
    rw [if_neg hended] at h
    obtain ⟨c, -, hc⟩ := Option.map_eq_some_iff.mp h
    cases hc
  · intro h
    rw [if_pos h]

theorem int64_yields_cons {inclusive : Bool} {current stop step : Int64} (hstep : step ≠ 0)
    {vs : List ℚ} : (int64 inclusive current stop step).Yields (current.toInt :: vs) ↔
      Progression.Before inclusive (step.toInt : ℚ) (current.toInt : ℚ) (stop.toInt : ℚ) ∧
      ∃ c : Int64, c.toInt = current.toInt + step.toInt ∧ (int64 inclusive c stop step).Yields vs := by
  have hended := ended_iff inclusive current stop step hstep
  show (∃ it' : RangeIterator, next _ = _ ∧ it'.Yields vs) ↔ _
  rw [int64_next]
  constructor
  · rintro ⟨it', hnext, hrest⟩
    split at hnext
    case isTrue h => cases hnext
    case isFalse h =>
      obtain ⟨c, hc, heq⟩ := Option.map_eq_some_iff.mp hnext
      rw [Prod.mk.injEq] at heq
      obtain ⟨-, rfl⟩ := heq
      exact ⟨not_not.mp fun hbefore => h (hended.mpr hbefore), c, Signed64.exact_eq_some.mp hc, hrest⟩
  · rintro ⟨hbefore, c, hc, hrest⟩
    have hadd : Signed64.add current step = some c := Signed64.exact_eq_some.mpr hc
    rw [if_neg fun h => hended.mp h hbefore, hadd, numberOf_eq_i64.mpr rfl]
    exact ⟨_, rfl, hrest⟩

/-- The path for integers gives the first terms of a progression if none of them is the end, each sum
behind one fits, and then there is the end. -/
theorem int64_yields_iff (inclusive : Bool) (stop : Int64) {step : Int64} (hstep : step ≠ 0) (n : ℕ)
    (current : Int64) :
    (int64 inclusive current stop step).Yields (progressionTerms current.toInt step.toInt n) ↔
      Until (fun v => Progression.Before inclusive (step.toInt : ℚ) v (stop.toInt : ℚ) ∧
          ∃ c : Int64, (c.toInt : ℚ) = v + step.toInt)
        (fun v => ¬Progression.Before inclusive (step.toInt : ℚ) v (stop.toInt : ℚ))
        current.toInt step.toInt n := by
  induction n generalizing current with
  | zero =>
    rw [until_zero]
    exact int64_yields_nil hstep
  | succ n ih =>
    rw [until_succ, progressionTerms_succ, int64_yields_cons hstep, and_assoc]
    refine and_congr_right fun _ => ?_
    constructor
    · rintro ⟨c, hc, hrest⟩
      have hcast : (c.toInt : ℚ) = current.toInt + step.toInt := by exact_mod_cast hc
      rw [← hcast, ih] at hrest
      rw [← hcast]
      exact ⟨⟨c, rfl⟩, hrest⟩
    · rintro ⟨⟨c, hcast⟩, hrest⟩
      rw [← hcast, ← ih] at hrest
      rw [← hcast]
      exact ⟨c, by exact_mod_cast hcast, hrest⟩

theorem objects_next (inclusive : Bool) (v step : ℚ) (stop : Number) :
    (objects inclusive (numberOf v) stop (numberOf step)).next =
      if objectsEnded (numberOf v) stop (numberOf step) then
        some (.stopIteration, objects inclusive (numberOf v) stop (numberOf step))
      else some (.value (numberOf v), objects inclusive (numberOf (v + step)) stop (numberOf step)) := by
  have hadd := (addition_multiplication_exact ⟨_, numberOf_normal v⟩ ⟨_, numberOf_normal step⟩).1.2
  rw [numberOf_toRat, numberOf_toRat] at hadd
  have hvalue : (numberOf v).add (numberOf step) = some (numberOf (v + step)) := hadd.eq_numberOf
  rw [next, hvalue]
  rfl

/-- The path for objects gives the first terms of a progression if none of them is the end, and then
there is the end. -/
theorem objects_yields_iff (inclusive : Bool) (stop : Number) (step : ℚ) (n : ℕ) (v : ℚ) :
    (objects inclusive (numberOf v) stop (numberOf step)).Yields (progressionTerms v step n) ↔
      Until (fun v => ¬objectsEnded (numberOf v) stop (numberOf step) = true)
        (fun v => objectsEnded (numberOf v) stop (numberOf step) = true) v step n := by
  induction n generalizing v with
  | zero =>
    rw [until_zero]
    show next _ = _ ↔ _
    rw [objects_next]
    split
    case isTrue h => exact iff_of_true rfl h
    case isFalse h => exact iff_of_false nofun h
  | succ n ih =>
    rw [until_succ, progressionTerms_succ, ← ih]
    show (∃ it' : RangeIterator, next _ = _ ∧ it'.Yields _) ↔ _
    rw [objects_next]
    split
    case isTrue h => exact iff_of_false nofun fun hrest => hrest.1 h
    case isFalse h =>
      rw [and_iff_right h]
      constructor
      · rintro ⟨it', hnext, hrest⟩
        cases hnext
        exact hrest
      · exact fun hrest => ⟨_, rfl, hrest⟩

/-- An iterator gives one list of numbers at most. -/
theorem Yields.unique {it : RangeIterator} {vs ws : List ℚ} (hvs : it.Yields vs) (hws : it.Yields ws) :
    vs = ws := by
  induction vs generalizing it ws with
  | nil =>
    cases ws with
    | nil => rfl
    | cons w ws =>
      obtain ⟨it', hnext, -⟩ := hws
      have hend : it.next = _ := hvs
      rw [hend] at hnext
      cases hnext
  | cons v vs ih =>
    obtain ⟨it', hnext, hrest⟩ := hvs
    cases ws with
    | nil =>
      have hend : it.next = _ := hws
      rw [hend] at hnext
      cases hnext
    | cons w ws =>
      obtain ⟨it'', hnext', hrest'⟩ := hws
      rw [hnext, Option.some.injEq, Prod.mk.injEq, Step.value.injEq] at hnext'
      obtain ⟨hnumber, rfl⟩ := hnext'
      have hvalue : v = w := by
        rw [← numberOf_toRat v, hnumber, numberOf_toRat]
      rw [hvalue, ih hrest hrest']

end RangeIterator

/-! ## Ranges -/

namespace RangeArgs

/-- The iterator of integers. -/
theorem iterator_int64s {args : RangeArgs} (h : args.Int64s) (inclusive : Bool) :
    ∃ start stop step : Int64, (start.toInt : ℚ) = args.start ∧ (stop.toInt : ℚ) = args.stop ∧
      (step.toInt : ℚ) = args.step ∧ args.iterator inclusive =
        if step = 0 then .error ⟨"RuntimeError", "step cannot be 0"⟩
        else .ok (.int64 inclusive start stop step) := by
  have hone : ((1 : Int64).toInt : ℚ) = 1 := Int.cast_one
  have hzero : ((0 : Int64).toInt : ℚ) = 0 := Int.cast_zero
  cases args with
  | upTo stop =>
    obtain ⟨stop, hstop⟩ := stop
    obtain ⟨n, rfl⟩ := h stop (List.mem_singleton_self stop)
    refine ⟨0, n, 1, hzero, rfl, hone, ?_⟩
    cases inclusive <;> rfl
  | between start stop =>
    obtain ⟨start, hstart⟩ := start
    obtain ⟨stop, hstop⟩ := stop
    obtain ⟨m, rfl⟩ := h start (by simp [argv])
    obtain ⟨n, rfl⟩ := h stop (by simp [argv])
    refine ⟨m, n, 1, rfl, rfl, hone, ?_⟩
    cases inclusive <;> rfl
  | stepping start stop step =>
    obtain ⟨start, hstart⟩ := start
    obtain ⟨stop, hstop⟩ := stop
    obtain ⟨step, hstep⟩ := step
    obtain ⟨m, rfl⟩ := h start (by simp [argv])
    obtain ⟨n, rfl⟩ := h stop (by simp [argv])
    obtain ⟨k, rfl⟩ := h step (by simp [argv])
    refine ⟨m, n, k, rfl, rfl, rfl, ?_⟩
    show (if k = 0 then _ else _) >>= _ = _
    split
    · rfl
    · cases inclusive <;> rfl

/-- The iterator of other numbers. -/
theorem iterator_objects {args : RangeArgs} (h : ¬args.Int64s) (inclusive : Bool) :
    args.iterator inclusive = .ok (.objects inclusive (numberOf args.start) (numberOf args.stop)
      (numberOf args.step)) := by
  have hzero : numberOf 0 = .i64 0 := numberOf_eq_i64.mpr Int.cast_zero.symm
  have hone : numberOf 1 = .i64 1 := numberOf_eq_i64.mpr Int.cast_one.symm
  have hself (a : NumberObject) : numberOf a.1.toRat = a.1 := (NumberObject.eq_numberOf rfl).symm
  -- The arguments that are all integers are those of the other path.
  have hother (hall : ∀ a ∈ args.argv, ∃ n, a = .i64 n) {p : Prop} : p := absurd hall h
  cases args with
  | upTo stop =>
    rw [start, RangeArgs.stop, step, hzero, hone, hself]
    obtain ⟨stop, hstop⟩ := stop
    cases stop with
    | i64 n => exact hother (by simp [argv])
    | mpq q => cases inclusive <;> rfl
  | between start stop =>
    rw [RangeArgs.start, RangeArgs.stop, step, hone, hself, hself]
    obtain ⟨start, hstart⟩ := start
    obtain ⟨stop, hstop⟩ := stop
    cases start with
    | i64 m =>
      cases stop with
      | i64 n => exact hother (by simp [argv])
      | mpq q => cases inclusive <;> rfl
    | mpq r => cases inclusive <;> rfl
  | stepping start stop step =>
    rw [RangeArgs.start, RangeArgs.stop, RangeArgs.step, hself, hself, hself]
    obtain ⟨start, hstart⟩ := start
    obtain ⟨stop, hstop⟩ := stop
    obtain ⟨step, hstep⟩ := step
    cases start with
    | i64 m =>
      cases stop with
      | i64 n =>
        cases step with
        | i64 k => exact hother (by simp [argv])
        | mpq q => cases inclusive <;> rfl
      | mpq q => cases inclusive <;> rfl
    | mpq r => cases inclusive <;> rfl

/-- Before the bound are exactly the terms of the range. -/
theorem until_count_iff {args : RangeArgs} {inclusive : Bool} (hstep : args.step ≠ 0) (p : ℚ → Prop) :
    Until (fun v => Progression.Before inclusive args.step v args.stop ∧ p v)
        (fun v => ¬Progression.Before inclusive args.step v args.stop)
        args.start args.step (args.count inclusive) ↔
      ∀ k < args.count inclusive, p (args.start + (k : ℕ) * args.step) := by
  have hcount := Progression.lt_count_iff inclusive args.start args.stop hstep
  unfold Until
  constructor
  · exact fun h k hk => (h.1 k hk).2
  · exact fun h => ⟨fun k hk => ⟨(hcount k).mp hk, h k hk⟩,
      fun hbefore => lt_irrefl _ ((hcount _).mpr hbefore)⟩

/-- A number between two integers of 64 bits is one. -/
theorem exists_toInt_of_between {start step : ℚ} {m d c : Int64} (hstart : (m.toInt : ℚ) = start)
    (hstep : (d.toInt : ℚ) = step) {n k : ℕ} (hk : k ≤ n) (hlast : (c.toInt : ℚ) = start + n * step) :
    ∃ e : Int64, (e.toInt : ℚ) = start + k * step := by
  have hm := Signed64.fits_toInt m
  have hc := Signed64.fits_toInt c
  have hvalue : c.toInt = m.toInt + n * d.toInt := by
    rw [← hstart, ← hstep] at hlast
    exact_mod_cast hlast
  obtain ⟨e, -, he⟩ := Signed64.exact_of_fits (z := m.toInt + k * d.toInt) (by
    unfold Signed64.Fits at *
    have hkn : (k : ℤ) ≤ n := by exact_mod_cast hk
    have hk0 : (0 : ℤ) ≤ k := Int.natCast_nonneg k
    rcases le_total 0 d.toInt with h | h
    · have hlow : 0 ≤ k * d.toInt := Int.mul_nonneg hk0 h
      have hhigh : k * d.toInt ≤ n * d.toInt := Int.mul_le_mul_of_nonneg_right hkn h
      omega
    · have hlow : k * d.toInt ≤ 0 := Int.mul_nonpos_of_nonneg_of_nonpos hk0 h
      have hhigh : n * d.toInt ≤ k * d.toInt := Int.mul_le_mul_of_nonpos_right hkn h
      omega)
  refine ⟨e, ?_⟩
  rw [← hstart, ← hstep, he]
  push_cast
  rfl

/-- The path for integers. -/
theorem int64_iterates_iff {args : RangeArgs} {inclusive : Bool} {start stop step : Int64}
    (hstart : (start.toInt : ℚ) = args.start) (hstop : (stop.toInt : ℚ) = args.stop)
    (hstep : (step.toInt : ℚ) = args.step) (hne : step ≠ 0) :
    (RangeIterator.int64 inclusive start stop step).Yields (args.terms inclusive) ↔
      args.NextFits inclusive := by
  have hne' : args.step ≠ 0 := by
    rw [← hstep]
    exact_mod_cast fun h => hne (Signed64.toInt_eq_zero.mp h)
  have h := RangeIterator.int64_yields_iff inclusive stop hne (args.count inclusive) start
  rw [hstart, hstop, hstep] at h
  unfold terms NextFits
  rw [h, until_count_iff hne']
  constructor
  · intro hfits
    cases hn : args.count inclusive with
    | zero => exact Or.inl rfl
    | succ n =>
      obtain ⟨c, hc⟩ := hfits n (by omega)
      refine Or.inr ⟨c, ?_⟩
      rw [hc]
      push_cast
      ring
  · rintro (hzero | ⟨c, hc⟩) k hk
    · omega
    · obtain ⟨e, he⟩ := exists_toInt_of_between hstart hstep (Nat.succ_le_of_lt hk) hc
      refine ⟨e, ?_⟩
      rw [he]
      push_cast
      ring

theorem not_misread_self (a : Number) : ¬Misread a a := by
  cases a <;> exact id

/-- Where the bound is not a term, the terms are before it in either sense. -/
theorem before_iff_of_not_meetsStop {args : RangeArgs} {inclusive : Bool}
    (h : ¬args.MeetsStop inclusive) (k : ℕ) :
    Progression.Before inclusive args.step (args.start + k * args.step) args.stop ↔
      Progression.Before false args.step (args.start + k * args.step) args.stop := by
  have hne : ¬(inclusive = true ∧ args.start + k * args.step = args.stop) :=
    fun hmeets => h ⟨hmeets.1, k, hmeets.2⟩
  unfold Progression.Before
  simp only [hne, Bool.false_eq_true, false_and]

/-- The path for objects, which stops before the bound. -/
theorem objects_iterates_iff {args : RangeArgs} {inclusive : Bool} (hstep : args.step ≠ 0) :
    (RangeIterator.objects inclusive (numberOf args.start) (numberOf args.stop)
      (numberOf args.step)).Yields (args.terms inclusive) ↔
      ¬args.MeetsStop inclusive ∧ args.Judged inclusive := by
  have hcount := Progression.lt_count_iff inclusive args.start args.stop hstep
  have hended (v : ℚ) := RangeIterator.objectsEnded_iff ⟨_, numberOf_normal v⟩
    ⟨_, numberOf_normal args.stop⟩ hstep
  simp only [numberOf_toRat] at hended
  unfold terms
  rw [RangeIterator.objects_yields_iff]
  by_cases hmeets : args.MeetsStop inclusive
  · -- The bound is a term, and it is the end as well.
    refine iff_of_false (fun h => ?_) fun h => h.1 hmeets
    obtain ⟨hinclusive, k, hk⟩ := hmeets
    have hbefore : Progression.Before inclusive args.step (args.start + k * args.step) args.stop := by
      rcases lt_or_gt_of_ne hstep with hneg | hpos
      · exact Or.inr ⟨hneg, Or.inr ⟨hinclusive, hk⟩⟩
      · exact Or.inl ⟨hpos, Or.inr ⟨hinclusive, hk⟩⟩
    apply h.1 k ((hcount k).mpr hbefore)
    rw [hk]
    refine ((hended args.stop).mpr fun hmisjudged => not_misread_self _ hmisjudged.1).mpr ?_
    rintro (⟨-, hlt | ⟨hfalse, -⟩⟩ | ⟨-, hlt | ⟨hfalse, -⟩⟩)
    · exact lt_irrefl _ hlt
    · exact Bool.false_ne_true hfalse
    · exact lt_irrefl _ hlt
    · exact Bool.false_ne_true hfalse
  · rw [and_iff_right hmeets]
    -- A term is judged rightly if it is the end exactly behind the last.
    have hjudged (k : ℕ) : ¬Misjudged args.step (numberOf (args.start + k * args.step))
          (numberOf args.stop) ↔
        (RangeIterator.objectsEnded (numberOf (args.start + k * args.step)) (numberOf args.stop)
          (numberOf args.step) = true ↔ ¬k < args.count inclusive) := by
      rw [← hended, ← before_iff_of_not_meetsStop hmeets k, ← hcount k]
      rfl
    unfold Judged Until
    simp only [hjudged]
    constructor
    · rintro ⟨hterms, hlast⟩ k hk
      rcases hk.lt_or_eq with hlt | rfl
      · exact iff_of_false (hterms k hlt) (not_not.mpr hlt)
      · exact iff_of_true hlast (lt_irrefl _)
    · intro h
      exact ⟨fun k hk hend => (h k hk.le).mp hend hk, (h _ le_rfl).mpr (lt_irrefl _)⟩

/-- Terms that are stored as integers are judged rightly. -/
theorem judged_of_nextFits {args : RangeArgs} {inclusive : Bool} {start stop step : Int64}
    (hstart : (start.toInt : ℚ) = args.start) (hstop : (stop.toInt : ℚ) = args.stop)
    (hstep : (step.toInt : ℚ) = args.step) (hfits : args.NextFits inclusive) :
    args.Judged inclusive := by
  intro k hk hmisjudged
  have hterm : ∃ e : Int64, (e.toInt : ℚ) = args.start + k * args.step := by
    rcases hfits with hzero | ⟨c, hc⟩
    · have hk0 : k = 0 := by omega
      refine ⟨start, ?_⟩
      rw [hk0, hstart, Nat.cast_zero, zero_mul, add_zero]
    · exact exists_toInt_of_between hstart hstep hk hc
  obtain ⟨e, he⟩ := hterm
  have hmisread := hmisjudged.1
  rw [numberOf_eq_i64.mpr he.symm, numberOf_eq_i64.mpr hstop.symm] at hmisread
  exact hmisread

/-- A range of integers is iterated over rightly unless the sum behind the last term overflows, and any
other unless its step is zero, its bound is a term that is to be included, or a term is compared wrongly
with the bound. -/
theorem iterates_iff (args : RangeArgs) (inclusive : Bool) : args.Iterates inclusive ↔
    (args.Int64s → args.step = 0 ∨ args.NextFits inclusive) ∧
    (¬args.Int64s → args.step ≠ 0 ∧ ¬args.MeetsStop inclusive ∧ args.Judged inclusive) := by
  unfold Iterates
  by_cases hint64s : args.Int64s
  · obtain ⟨start, stop, step, hstart, hstop, hstep, hiterator⟩ := iterator_int64s hint64s inclusive
    have hzero : args.step = 0 ↔ step = 0 := by
      rw [← hstep, Int.cast_eq_zero, Signed64.toInt_eq_zero]
    rw [hiterator]
    by_cases h : step = 0
    · rw [if_pos (hzero.mpr h), if_pos h]
      exact iff_of_true ⟨_, rfl⟩ ⟨fun _ => Or.inl (hzero.mpr h), fun hnot => absurd hint64s hnot⟩
    · rw [if_neg (mt hzero.mp h), if_neg h, ← int64_iterates_iff hstart hstop hstep h]
      constructor
      · rintro ⟨it, heq, hyields⟩
        cases heq
        exact ⟨fun _ => Or.inr hyields, fun hnot => absurd hint64s hnot⟩
      · rintro ⟨hyields, -⟩
        exact ⟨_, rfl, (hyields hint64s).resolve_left (mt hzero.mp h)⟩
  · rw [iterator_objects hint64s]
    by_cases h : args.step = 0
    · rw [if_pos h]
      exact iff_of_false nofun fun hright => (hright.2 hint64s).1 h
    · rw [if_neg h, ← objects_iterates_iff h]
      constructor
      · rintro ⟨it, heq, hyields⟩
        cases heq
        exact ⟨fun hall => absurd hall hint64s, fun _ => ⟨h, hyields⟩⟩
      · rintro ⟨-, hyields⟩
        exact ⟨_, rfl, (hyields hint64s).2⟩

theorem iteratesRightly_iff (args : RangeArgs) (inclusive : Bool) : args.IteratesRightly inclusive ↔
    (args.Int64s → args.step = 0 ∨ args.NextFits inclusive ∧ ¬args.MeetsStop inclusive) ∧
    (¬args.Int64s → args.step ≠ 0 ∧ ¬args.MeetsStop inclusive ∧ args.Judged inclusive) := by
  have hiterates := iterates_iff args inclusive
  by_cases hint64s : args.Int64s
  · obtain ⟨start, stop, step, hstart, hstop, hstep, hiterator⟩ := iterator_int64s hint64s inclusive
    have hzero : args.step = 0 ↔ step = 0 := by
      rw [← hstep, Int.cast_eq_zero, Signed64.toInt_eq_zero]
    by_cases h : step = 0
    · refine iff_of_true ⟨hiterates.mpr ⟨fun _ => Or.inl (hzero.mpr h),
        fun hnot => absurd hint64s hnot⟩, fun _ it vs heq => ?_⟩ ⟨fun _ => Or.inl (hzero.mpr h),
        fun hnot => absurd hint64s hnot⟩
      rw [hiterator, if_pos h] at heq
      cases heq
    · rw [if_neg h] at hiterator
      have hobjects := @objects_iterates_iff args inclusive (mt hzero.mp h)
      have hint64 := @int64_iterates_iff args inclusive _ _ _ hstart hstop hstep h
      constructor
      · intro hright
        have hfits := ((hiterates.mp hright.iterates).1 hint64s).resolve_left (mt hzero.mp h)
        -- The other path gives the same terms, which the bound is not among then.
        have hsame := hright.pathsAgree hint64s _ _ hiterator (hint64.mpr hfits)
        exact ⟨fun _ => Or.inr ⟨hfits, (hobjects.mp hsame).1⟩, fun hnot => absurd hint64s hnot⟩
      · rintro ⟨hcondition, -⟩
        obtain ⟨hfits, hmeets⟩ := (hcondition hint64s).resolve_left (mt hzero.mp h)
        refine ⟨hiterates.mpr ⟨fun _ => Or.inr hfits, fun hnot => absurd hint64s hnot⟩,
          fun _ it vs heq hyields => ?_⟩
        rw [hiterator, Except.ok.injEq] at heq
        rw [← heq] at hyields
        rw [hyields.unique (hint64.mpr hfits)]
        exact hobjects.mpr ⟨hmeets, judged_of_nextFits hstart hstop hstep hfits⟩
  · constructor
    · exact fun hright => ⟨fun hall => absurd hall hint64s, (hiterates.mp hright.iterates).2⟩
    · exact fun hcondition => ⟨hiterates.mpr ⟨fun hall => absurd hall hint64s, hcondition.2⟩,
        fun hall => absurd hall hint64s⟩

end RangeArgs

/-- A range of integers is iterated over rightly exactly if its step is zero or the sum behind its last
term fits, and gives the same on the path for objects exactly if moreover it does not include its bound
as a term. Any other range is iterated over rightly exactly if its step is not zero, it does not include
its bound as a term, and no comparison with the bound is wrong. -/
theorem ranges_iff (args : RangeArgs) (inclusive : Bool) :
    (args.IteratesRightly inclusive ↔
      (args.Int64s → args.step = 0 ∨ args.NextFits inclusive ∧ ¬args.MeetsStop inclusive) ∧
      (¬args.Int64s → args.step ≠ 0 ∧ ¬args.MeetsStop inclusive ∧ args.Judged inclusive)) ∧
    (args.Iterates inclusive ↔
      (args.Int64s → args.step = 0 ∨ args.NextFits inclusive) ∧
      (¬args.Int64s → args.step ≠ 0 ∧ ¬args.MeetsStop inclusive ∧ args.Judged inclusive)) :=
  ⟨args.iteratesRightly_iff inclusive, args.iterates_iff inclusive⟩

/-- `range(0.5, 1, 0)` is not rejected. -/
theorem not_forall_iteratesRightly : ¬∀ (args : RangeArgs) (inclusive : Bool),
    args.IteratesRightly inclusive := by
  intro h
  have hzero : (Number.i64 0).toRat = 0 := Int.cast_zero
  let half : NumberObject := ⟨.mpq ⟨1, 2, by decide⟩, Nat.coprime_one_left 2, by decide⟩
  have hright := h (.stepping half ⟨.i64 1, trivial⟩ ⟨.i64 0, trivial⟩) false
  have hint64s : ¬(RangeArgs.stepping half ⟨.i64 1, trivial⟩ ⟨.i64 0, trivial⟩).Int64s := by
    intro hall
    obtain ⟨n, hn⟩ := hall _ (List.mem_cons_self)
    cases hn
  exact (((RangeArgs.iterates_iff _ _).mp hright.iterates).2 hint64s).1 hzero

end Chloride
