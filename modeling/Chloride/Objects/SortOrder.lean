import Chloride.Objects.SortSafety

/-!
# The order that the sort gives

`sort` for comparators that rank the items: where they answer, the sign of the answer is that of a total
preorder. If the comparator does not raise, the array is a permutation of its items in that order. If it
raises, the call ends with an error and the array as it was, but with the error that was raised if and only
if the calls after it leave it (`sorts_rightly_iff`): the insertion sort and the choice of the pivot go on
to compare while an error is pending.
-/

namespace Chloride

namespace Sorting

open Exceptional Shuffling

variable {Rest α : Type}

/-- A call of `sort` with a comparator that ranks the items: in the worlds that it is called in, of which
it does not leave the class, it leaves the array alone, and where it answers it answers with an integer,
whose sign is that of a total preorder of the items. -/
structure RankedSort (Rest α : Type) where
  number : α → Option Number
  callback : Callback Rest α
  held : HeldArray Rest α
  worlds : ArrayWorld Rest α → Prop
  le : α → α → Prop
  starts : worlds held.toArrayWorld
  total : ∀ a ∈ held.items, ∀ b ∈ held.items, le a b ∨ le b a
  trans : ∀ a ∈ held.items, ∀ b ∈ held.items, ∀ c ∈ held.items, le a b → le b c → le a c
  stays : ∀ w err, worlds w → ∀ a ∈ held.items, ∀ b ∈ held.items, worlds (callback.call w err [a, b]).world
  alone : ∀ w err, worlds w → ∀ a ∈ held.items, ∀ b ∈ held.items,
    (callback.call w err [a, b]).world.array = w.array
  sign : ∀ w err, worlds w → ∀ a ∈ held.items, ∀ b ∈ held.items, (callback.call w err [a, b]).err = none →
    ∃ m n, number (callback.call w err [a, b]).value = some m ∧ StringSearch.argonToI64 m = .ok n ∧
      (n ≤ 0 ↔ le a b) ∧ (0 ≤ n ↔ le b a)

namespace RankedSort

/-- What becomes of the call. -/
def run (s : RankedSort Rest α) (more : ℕ) : Option Unit × SortState (ArrayWorld Rest α) α :=
  result s.number s.callback more s.held.toArrayWorld

/-- The comparator raises no error. -/
def NeverRaises (s : RankedSort Rest α) : Prop :=
  ∀ w, s.worlds w → ∀ a ∈ s.held.items, ∀ b ∈ s.held.items, (s.callback.call w none [a, b]).err = none

/-- What is asked of the call: the items in order, if the comparator raises nothing, and from a comparison
that raises an error on, that error, and at the end the array as it was. -/
structure SortsRightly (s : RankedSort Rest α) (more : ℕ) : Prop where
  sorted : s.NeverRaises → (s.run more).1 = some () ∧ (s.run more).2.err = none ∧
    ∃ l, Represents (s.run more).2.world.array l ∧ l.Perm s.held.items ∧ l.Pairwise s.le
  propagated : ∀ later c earlier e, (s.run more).2.comparisons = later ++ c :: earlier → c.raised = some e →
    (s.run more).1 = some () ∧ (s.run more).2.err = some e ∧ (∀ d ∈ later, d.raised = some e) ∧
      (s.run more).2.world.array = s.held.array

/-- The comparator leaves the error that is pending when it is called. -/
def KeepsPending (s : RankedSort Rest α) (more : ℕ) : Prop :=
  ∀ c ∈ (s.run more).2.comparisons, ∀ e, c.pending = some e → c.raised = some e

end RankedSort

/-! ## Errors from comparison to comparison -/

/-- Each comparison starts with the error that the one before it leaves, and the last leaves the error that
is pending. -/
def Chained : Option ArErr → List (Comparison α) → Prop
  | err, [] => err = none
  | err, c :: earlier => err = c.raised ∧ Chained c.pending earlier

theorem Chained.drop {err : Option ArErr} {later : List (Comparison α)} {c : Comparison α}
    {earlier : List (Comparison α)} (h : Chained err (later ++ c :: earlier)) :
    Chained c.raised (c :: earlier) := by
  induction later generalizing err with
  | nil => exact ⟨rfl, h.2⟩
  | cons d later ih => exact ih h.2

/-- An error that every comparison leaves is pending at the end. -/
theorem Chained.stays {err : Option ArErr} {later : List (Comparison α)} {c : Comparison α}
    {earlier : List (Comparison α)} (h : Chained err (later ++ c :: earlier)) {e : ArErr}
    (he : c.raised = some e) (hkeeps : ∀ d ∈ later, ∀ e, d.pending = some e → d.raised = some e) :
    err = some e ∧ ∀ d ∈ later, d.raised = some e := by
  induction later generalizing err with
  | nil => exact ⟨h.1.trans he, fun d hd => (List.not_mem_nil hd).elim⟩
  | cons d later ih =>
    obtain ⟨hd, hlater⟩ := List.forall_mem_cons.mp hkeeps
    obtain ⟨hpending, hall⟩ := ih h.2 hlater
    have hraised := hd e hpending
    exact ⟨h.1.trans hraised, List.forall_mem_cons.mpr ⟨hraised, hall⟩⟩

/-- An error that is pending was left by the comparison before. -/
theorem Chained.exists_before {err : Option ArErr} {c : Comparison α} {earlier : List (Comparison α)}
    (h : Chained err (c :: earlier)) {e : ArErr} (he : c.pending = some e) :
    ∃ d earlier', earlier = d :: earlier' ∧ d.raised = some e := by
  have hpending := h.2
  cases earlier with
  | nil =>
    have hnone : c.pending = none := hpending
    rw [hnone] at he
    cases he
  | cons d earlier' => exact ⟨d, earlier', rfl, hpending.1.symm.trans he⟩

/-! ## The verdicts on the answers -/

section

variable {World : Type} {number : α → Option Number}

theorem verdict_raised {result : Reply World α} {e : ArErr} (h : result.err = some e) :
    verdict number result = (0, some e) := by
  unfold verdict
  rw [if_pos (by rw [h]; rfl), h]

theorem verdict_answer {result : Reply World α} {m : Number} {n : Int64} (h : result.err = none)
    (hm : number result.value = some m) (hn : StringSearch.argonToI64 m = .ok n) :
    (verdict number result).2 = none ∧ ((verdict number result).1 ≤ 0 ↔ n ≤ 0) ∧
      (0 ≤ (verdict number result).1 ↔ 0 ≤ n) := by
  have hlt : n < 0 ↔ n.toInt < 0 := Int64.lt_iff_toInt_lt
  have hgt : 0 < n ↔ 0 < n.toInt := Int64.lt_iff_toInt_lt
  have hle : n ≤ 0 ↔ n.toInt ≤ 0 := Int64.le_iff_toInt_le
  have hge : 0 ≤ n ↔ 0 ≤ n.toInt := Int64.le_iff_toInt_le
  unfold verdict
  rw [if_neg (by rw [h]; simp), hm]
  dsimp only
  rw [hn]
  dsimp only
  rw [hle, hge]
  by_cases hneg : n < 0
  · have hint := hlt.mp hneg
    rw [if_pos hneg]
    exact ⟨rfl, by omega, by omega⟩
  · have hint := mt hlt.mpr hneg
    rw [if_neg hneg]
    by_cases hpos : n > 0
    · have hint' := hgt.mp hpos
      rw [if_pos hpos]
      exact ⟨rfl, by omega, by omega⟩
    · have hint' := mt hgt.mpr hpos
      rw [if_neg hpos]
      exact ⟨rfl, by omega, by omega⟩

end

/-! ## The course of a sort -/

variable {number : α → Option Number} {callback : Callee (ArrayWorld Rest α) α} {elem : α → Prop}
  {I J : SortState (ArrayWorld Rest α) α → Prop}

/-- What follows from what every part of the sort keeps, and does not speak of the array, holds at the
end. -/
theorem sort_keeps (hI : Kept number callback elem I) {w : ArrayWorld Rest α} {l : List α}
    (h : Represents w.array l) (hstart : I { start w with arr := l }) (hfew : J (start w))
    (hIJ : ∀ s, I s → J s) (hwrite : ∀ s array, J s → J { s with world := { s.world with array := array } })
    (more : ℕ) : Triple (Eq (start w)) (sort number callback more) (fun _ => J) J := by
  refine Triple.get_bind fun s hs => ?_
  subst hs
  refine Triple.ite (fun _ => Triple.pure fun s hs => hs ▸ hfew) fun _ => ?_
  have hn : (start w).world.array.size.toNat = l.length := h.size
  rw [hn]
  have hcopy := copyItems_spec (s := start w) h
  refine Triple.bind (hcopy.conseq (fun _ h => h) (fun _ _ h => h) fun _ h => h.elim) fun _ => ?_
  have hqsort := hI.qsort (l.length + more) 0 (l.length - 1)
  refine Triple.bind (hqsort.conseq (fun s hs => hs ▸ hstart) (fun _ _ h => h) hIJ) fun _ => ?_
  have hrest : Keeps J (do
      let raised ← isError
      if raised then pure () else writeBack l.length : SortM (ArrayWorld Rest α) α Unit) :=
    Kept.isError_bind fun e => Keeps.ite (Keeps.pure _) (writeBack_keeps hwrite)
  exact hrest.conseq hIJ (fun _ _ h => h) fun _ h => h

/-- The comparisons of a sort: the errors are chained, and no item is said to be below itself. -/
structure Honest (t : SortState (ArrayWorld Rest α) α) : Prop where
  chained : Chained t.err t.comparisons
  itself : ¬BelowItself t

namespace RankedSort

variable (s : RankedSort Rest α)

/-- What holds while the items are sorted. -/
structure Course (t : SortState (ArrayWorld Rest α) α) : Prop where
  world : s.worlds t.world
  array : t.world.array = s.held.array
  items : ∀ x ∈ t.arr, x ∈ s.held.items
  honest : Honest t

/-- The verdict on what the comparator gives. -/
theorem verdict_sign {w : ArrayWorld Rest α} (hw : s.worlds w) (err : Option ArErr) {a b : α}
    (ha : a ∈ s.held.items) (hb : b ∈ s.held.items)
    (hcalm : (s.callback.call w err [a, b]).err = none) :
    (verdict s.number (s.callback.call w err [a, b])).2 = none ∧
      ((verdict s.number (s.callback.call w err [a, b])).1 ≤ 0 ↔ s.le a b) ∧
      (0 ≤ (verdict s.number (s.callback.call w err [a, b])).1 ↔ s.le b a) := by
  obtain ⟨m, n, hm, hn, hle, hge⟩ := s.sign w err hw a ha b hb hcalm
  obtain ⟨hnone, hle', hge'⟩ := verdict_answer hcalm hm hn
  exact ⟨hnone, hle'.trans hle, hge'.trans hge⟩

/-- No item is said to be below itself. -/
theorem verdict_itself {w : ArrayWorld Rest α} (hw : s.worlds w) (err : Option ArErr) {a : α}
    (ha : a ∈ s.held.items) : 0 ≤ (verdict s.number (s.callback.call w err [a, a])).1 := by
  cases hcalm : (s.callback.call w err [a, a]).err with
  | none =>
    have hrefl : s.le a a := (s.total a ha a ha).elim id id
    exact (s.verdict_sign hw err ha ha hcalm).2.2.mpr hrefl
  | some e => rw [verdict_raised hcalm]

theorem course_kept : Kept s.number s.callback.call (· ∈ s.held.items) s.Course where
  access t a ht := ⟨ht.world, ht.array, ht.items, ht.honest.chained, ht.honest.itself⟩
  elem_of_mem t ht := ht.items
  write t i x ht hx := by
    refine ⟨ht.world, ht.array, fun y hy => ?_, ht.honest.chained, ht.honest.itself⟩
    rcases List.mem_or_eq_of_mem_set hy with hy | rfl
    · exact ht.items y hy
    · exact hx
  compare site a b ha hb := by
    refine Triple.of_state fun t ht => ?_
    refine (compare_spec site a b t).conseq (fun _ h => h) ?_ fun _ h => h.elim
    rintro z u ⟨result, rfl, rfl, rfl⟩
    refine ⟨s.stays _ _ ht.world a ha b hb, (s.alone _ _ ht.world a ha b hb).trans ht.array, ht.items,
      ⟨rfl, ht.honest.chained⟩, ?_⟩
    rintro ⟨c, hc, hsame, hneg⟩
    rcases List.mem_cons.mp hc with rfl | hc
    · obtain rfl : a = b := hsame
      have hge := s.verdict_itself ht.world t.err ha
      exact absurd hneg (not_lt.mpr hge)
    · exact ht.honest.itself ⟨c, hc, hsame, hneg⟩

theorem course_start : s.Course { start s.held.toArrayWorld with arr := s.held.items } :=
  ⟨s.starts, rfl, fun _ hx => hx, rfl, fun ⟨_, hc, _⟩ => (List.not_mem_nil hc).elim⟩

/-- The comparisons of the whole call. -/
theorem run_honest (more : ℕ) : Honest (s.run more).2 := by
  have hkeeps := sort_keeps (J := Honest) s.course_kept s.held.represents s.course_start
    ⟨rfl, fun ⟨_, hc, _⟩ => (List.not_mem_nil hc).elim⟩ (fun _ ht => ht.honest)
    (fun _ _ ht => ⟨ht.chained, ht.itself⟩) more _ rfl
  change Ends (fun _ => Honest) Honest (s.run more) at hkeeps
  rcases hrun : s.run more with ⟨_ | _, t⟩
  all_goals
    rw [hrun] at hkeeps
    exact hkeeps

/-- The call returns, whatever the comparator raises, and an error leaves the array as it was. -/
theorem run_finished (more : ℕ) : (s.run more).1 = some () ∧
    Finished (fun _ _ => True) s.held.items s.held.toArrayWorld (s.run more).2 := by
  have hhonest := s.run_honest more
  have hupto := sort_upto (guided_any s.course_kept) s.held.represents s.course_start
    (fun _ ht => ht.array) more _ rfl
  change Ends _ _ (s.run more) at hupto
  rcases hrun : s.run more with ⟨_ | _, t⟩
  all_goals rw [hrun] at hupto hhonest
  case none => exact absurd hupto.itself hhonest.itself
  case some =>
    rcases hupto with hover | hfinished
    · exact absurd hover.itself hhonest.itself
    · exact ⟨rfl, hfinished⟩

/-- While nothing is raised, the comparator respects the order. -/
theorem guided (hnever : s.NeverRaises) : Guided s.number s.callback.call (· ∈ s.held.items)
    (fun a b => a ∈ s.held.items ∧ b ∈ s.held.items ∧ s.le a b) (fun t => s.Course t ∧ t.err = none) where
  kept :=
    { access := fun t a ht => ⟨s.course_kept.access t a ht.1, ht.2⟩
      elem_of_mem := fun t ht => s.course_kept.elem_of_mem t ht.1
      write := fun t i x ht hx => ⟨s.course_kept.write t i x ht.1 hx, ht.2⟩
      compare := fun site a b ha hb => by
        intro t ht
        have hcourse := s.course_kept.compare site a b ha hb t ht.1
        have hspec := @compare_spec _ _ s.number s.callback.call site a b t t rfl
        rcases hend : (Sorting.compare s.number s.callback.call site a b).run.run t with ⟨_ | z, u⟩
        all_goals rw [hend] at hcourse hspec
        case none => exact hspec.elim
        case some =>
          obtain ⟨result, rfl, -, rfl⟩ := hspec
          have hcalm : (s.callback.call t.world t.err [a, b]).err = none := by
            rw [ht.2]
            exact hnever _ ht.1.world a ha b hb
          exact ⟨hcourse, (s.verdict_sign ht.1.world t.err ha hb hcalm).1⟩ }
  judged site a b ha hb := by
    refine Triple.of_state fun t ht => ?_
    refine (compare_spec site a b t).conseq (fun _ h => h) ?_ fun _ h => h.elim
    rintro z u ⟨result, rfl, rfl, -⟩
    have hcalm : (s.callback.call t.world t.err [a, b]).err = none := by
      rw [ht.2]
      exact hnever _ ht.1.world a ha b hb
    obtain ⟨-, hle, hge⟩ := s.verdict_sign ht.1.world t.err ha hb hcalm
    exact ⟨fun hz => ⟨ha, hb, hle.mp hz⟩, fun hz => ⟨hb, ha, hge.mp hz⟩⟩
  refl a ha := ⟨ha, ha, (s.total a ha a ha).elim id id⟩
  trans := by
    rintro a b c ⟨ha, hb, hab⟩ ⟨-, hc, hbc⟩
    exact ⟨ha, hc, s.trans a ha b hb c hc hab hbc⟩
  raised t ht herr := by
    rw [ht.2] at herr
    cases herr
  itself t ht hbelow := absurd hbelow ht.1.honest.itself

/-- Nothing is raised in the whole call. -/
theorem run_calm (hnever : s.NeverRaises) (more : ℕ) : (s.run more).2.err = none := by
  have hkeeps := sort_keeps (J := fun t => t.err = none) (s.guided hnever).kept s.held.represents
    ⟨s.course_start, rfl⟩ rfl (fun _ ht => ht.2) (fun _ _ ht => ht) more _ rfl
  change Ends _ _ (s.run more) at hkeeps
  rcases hrun : s.run more with ⟨_ | _, t⟩
  all_goals
    rw [hrun] at hkeeps
    exact hkeeps

theorem run_sorted (hnever : s.NeverRaises) (more : ℕ) :
    ∃ l, Represents (s.run more).2.world.array l ∧ l.Perm s.held.items ∧ l.Pairwise s.le := by
  have hhonest := s.run_honest more
  have hcalm := s.run_calm hnever more
  have hupto := sort_upto (s.guided hnever) s.held.represents ⟨s.course_start, rfl⟩
    (fun _ ht => ht.1.array) more _ rfl
  change Ends _ _ (s.run more) at hupto
  rcases hrun : s.run more with ⟨_ | _, t⟩
  all_goals rw [hrun] at hupto hhonest hcalm
  case none => exact absurd hupto.itself hhonest.itself
  case some =>
    rcases hupto with hover | hfinished
    · exact absurd hover.itself hhonest.itself
    · obtain ⟨l, hl, hperm, hordered⟩ := hfinished.sorted hcalm
      exact ⟨l, hl, hperm, hordered.imp fun h => h.2.2⟩

/-- `sort` with a comparator that ranks the items gives them in order, or the error that is raised, if and
only if the comparator leaves the errors that are pending when it is called. -/
theorem sorts_rightly_iff (more : ℕ) : s.SortsRightly more ↔ s.KeepsPending more := by
  have hchained := (s.run_honest more).chained
  obtain ⟨hreturns, hfinished⟩ := s.run_finished more
  constructor
  · intro h c hc e he
    obtain ⟨later, earlier, hsplit⟩ := List.append_of_mem hc
    rw [hsplit] at hchained
    obtain ⟨d, earlier', rfl, hd⟩ := hchained.drop.exists_before he
    have hsplit' : (s.run more).2.comparisons = (later ++ [c]) ++ d :: earlier' := by
      rw [hsplit, List.append_assoc]
      rfl
    obtain ⟨-, -, hlater, -⟩ := h.propagated _ d earlier' e hsplit' hd
    exact hlater c (List.mem_append_right _ (List.mem_singleton.mpr rfl))
  · intro h
    refine ⟨fun hnever => ⟨hreturns, s.run_calm hnever more, s.run_sorted hnever more⟩, ?_⟩
    intro later c earlier e hsplit he
    rw [hsplit] at hchained
    have hkeeps : ∀ d ∈ later, ∀ e, d.pending = some e → d.raised = some e := by
      intro d hd
      exact h d (by rw [hsplit]; exact List.mem_append_left _ hd)
    obtain ⟨herr, hall⟩ := hchained.stays he hkeeps
    have hraised : (s.run more).2.err ≠ none := by
      rw [herr]
      exact Option.some_ne_none e
    exact ⟨hreturns, herr, hall, hfinished.unchanged hraised⟩

end RankedSort

/-! ### The comparator `number.__subtract__` -/

/-- Things that are no numbers. -/
inductive Thing where
  | string
  | array
  deriving DecidableEq

/-- The name of the type of a thing. -/
def Thing.typeName : Thing → String
  | string => "string"
  | array => "array"

/-- What `number.__subtract__` raises for a second argument that is no number. -/
def cannotSubtract (b : Thing) : ArErr :=
  ⟨"RuntimeError", "__subtract__ cannot perform subtraction between number and " ++ b.typeName⟩

/-- `number.__subtract__` on things that are no numbers. It does not look at the error that is pending. -/
def subtract : Callback Unit Thing where
  call w _ args :=
    match args with
    | [_, b] => ⟨.string, some (cannotSubtract b), w⟩
    | _ =>
      ⟨.string, some ⟨"RuntimeError", "__subtract__ expects 2 arguments, got " ++ toString args.length⟩, w⟩
  wellFormed w err args h := by
    split <;> exact h

/-- `["a", [], "b"].sort(number.__subtract__)` -/
def sortThings : RankedSort Unit Thing where
  number _ := none
  callback := subtract
  held :=
    { array := ⟨[some .string, some .array, some .string], 3, 3⟩
      block := 0
      rest := ()
      items := [.string, .array, .string]
      represents := ⟨by decide, by decide, by decide, by decide, by decide⟩ }
  worlds _ := True
  le _ _ := True
  starts := trivial
  total _ _ _ _ := Or.inl trivial
  trans _ _ _ _ _ _ _ _ := trivial
  stays _ _ _ _ _ _ _ := trivial
  alone _ _ _ _ _ _ _ := rfl
  sign _ _ _ _ _ _ _ h := by cases h

/-- The second comparison replaces the error of the first. -/
theorem not_forall_sorts_rightly : ¬∀ s : RankedSort Unit Thing, s.SortsRightly 0 := by
  intro h
  have hcomparisons : (sortThings.run 0).2.comparisons =
      [⟨.other, .array, .string, some (cannotSubtract .array), some (cannotSubtract .string), 0⟩,
        ⟨.other, .string, .array, none, some (cannotSubtract .array), 0⟩] := by
    decide
  obtain ⟨-, -, hlater, -⟩ := (h sortThings).propagated [_] _ [] _ hcomparisons rfl
  have hsame : cannotSubtract .string = cannotSubtract .array :=
    Option.some.inj (hlater _ List.mem_cons_self)
  exact absurd hsame (by decide)

end Sorting

end Chloride
