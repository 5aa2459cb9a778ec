import Chloride.Runtime.Comparison

/-!
# Computations with numbers

Code that computes with numbers can overflow, which is undefined, and it can raise an error. `Computes`
says for which numbers it does neither, and which number it gives then; there is a rule for a number that
is at hand, for a handler that is exact, and for one computation behind another.
-/

namespace Chloride

/-- A result of one computation behind another. -/
theorem run_bind_eq_ok {α β : Type} {x : ExceptT ArErr Option α} {f : α → ExceptT ArErr Option β} {b : β} :
    (x >>= f).run = some (.ok b) ↔ ∃ a, x.run = some (.ok a) ∧ (f a).run = some (.ok b) := by
  rw [ExceptT.run_bind, Option.bind_eq_bind, Option.bind_eq_some_iff]
  constructor
  · rintro ⟨a, ha, hb⟩
    cases a with
    | error e => cases hb
    | ok a => exact ⟨a, ha, hb⟩
  · rintro ⟨a, ha, hb⟩
    exact ⟨.ok a, ha, hb⟩

/-- The number object of a rational number. -/
def numberOf (q : ℚ) : Number := newNumberObject (Mpq.ofRat q)

/-- A computation gives a number exactly under a condition, and the number is a certain one. -/
def Computes (r : ExceptT ArErr Option Number) (p : Prop) (q : ℚ) : Prop :=
  ∀ c, r.run = some (.ok c) ↔ p ∧ c = numberOf q

theorem Computes.pure (q : ℚ) : Computes (pure (numberOf q)) True q := by
  intro c
  rw [true_and]
  exact ⟨fun h => by cases h; rfl, fun h => by rw [h]; rfl⟩

theorem Computes.congr {r : ExceptT ArErr Option Number} {p p' : Prop} {q : ℚ} (h : Computes r p q)
    (hp : p ↔ p') : Computes r p' q := fun c => by rw [h c, hp]

/-- A computation behind another. -/
theorem Computes.bind {r : ExceptT ArErr Option Number} {f : Number → ExceptT ArErr Option Number}
    {p p' : Prop} {q q' : ℚ} (h : Computes r p q) (hf : Computes (f (numberOf q)) p' q') :
    Computes (r >>= f) (p ∧ p') q' := by
  intro c
  rw [run_bind_eq_ok]
  constructor
  · rintro ⟨a, ha, hc⟩
    obtain ⟨hp, rfl⟩ := (h a).mp ha
    obtain ⟨hp', rfl⟩ := (hf c).mp hc
    exact ⟨⟨hp, hp'⟩, rfl⟩
  · rintro ⟨⟨hp, hp'⟩, rfl⟩
    exact ⟨_, (h _).mpr ⟨hp, rfl⟩, (hf _).mpr ⟨hp', rfl⟩⟩

theorem numberOf_normal (q : ℚ) : (numberOf q).Normal := newNumberObject_normal (Mpq.canonical_ofRat q)

@[simp]
theorem numberOf_toRat (q : ℚ) : (numberOf q).toRat = q := by
  unfold numberOf
  rw [newNumberObject_toRat, Mpq.toRat_ofRat]

/-- The number object of a rational number is the only one. -/
theorem NumberObject.eq_numberOf {c : NumberObject} {q : ℚ} (h : c.1.toRat = q) : c.1 = numberOf q := by
  have heq : c = ⟨numberOf q, numberOf_normal q⟩ :=
    NumberObject.toRat_injective (h.trans (numberOf_toRat q).symm)
  exact congrArg Subtype.val heq

theorem Exact.eq_numberOf {r : Option Number} {q : ℚ} (h : Exact r q) : r = some (numberOf q) := by
  obtain ⟨c, rfl, hc⟩ := h
  exact congrArg some (NumberObject.eq_numberOf hc)

theorem Computes.of_exact {r : Option Number} {q : ℚ} (h : Exact r q) :
    Computes (ExceptT.lift r) True q := by
  intro c
  rw [h.eq_numberOf, true_and]
  exact ⟨fun h => by cases h; rfl, fun h => by rw [h]; rfl⟩

/-- A handler that is exact but for some numbers, with which it overflows. -/
theorem Computes.of_exact_iff {r : Option Number} {p : Prop} {q : ℚ} (h : ¬p → Exact r q)
    (hnone : p → r = none) : Computes (ExceptT.lift r) (¬p) q := by
  by_cases hp : p
  · intro c
    rw [hnone hp]
    exact iff_of_false nofun fun h => h.1 hp
  · exact (Computes.of_exact (h hp)).congr (iff_of_true trivial hp)

/-! ## The handlers -/

section

variable (a b : ℚ)

theorem doAddition_computes :
    Computes (ExceptT.lift (doAddition (numberOf a) (numberOf b))) True (a + b) := by
  have h := (addition_multiplication_exact ⟨_, numberOf_normal a⟩ ⟨_, numberOf_normal b⟩).1.1
  rw [numberOf_toRat, numberOf_toRat] at h
  exact .of_exact h

theorem doMultiplication_computes :
    Computes (ExceptT.lift (doMultiplication (numberOf a) (numberOf b))) True (a * b) := by
  have h := (addition_multiplication_exact ⟨_, numberOf_normal a⟩ ⟨_, numberOf_normal b⟩).2.1
  rw [numberOf_toRat, numberOf_toRat] at h
  exact .of_exact h

theorem doSubtraction_computes :
    Computes (ExceptT.lift (doSubtraction (numberOf a) (numberOf b)))
      (¬SubtractionOverflows (numberOf a) (numberOf b)) (a - b) := by
  refine .of_exact_iff (fun h => ?_) fun h => subtraction_eq_none h
  have hexact := (subtraction_iff _ _).mpr h
  rw [numberOf_toRat, numberOf_toRat] at hexact
  exact hexact

theorem doNegation_computes :
    Computes (ExceptT.lift (doNegation (numberOf a))) (¬NegationOverflows (numberOf a)) (-a) := by
  refine .of_exact_iff (fun h => ?_) fun h => ?_
  · have hexact := (negate_iff _).mpr h
    rw [numberOf_toRat] at hexact
    exact hexact
  · unfold NegationOverflows at h
    rw [h]
    decide

theorem doDivision_computes : Computes (doDivision (numberOf a) (numberOf b))
    (b ≠ 0 ∧ ¬DivisionOverflows (numberOf a) (numberOf b)) (a / b) := by
  intro c
  show divide (numberOf a) (numberOf b) = some (.ok c) ↔ _
  by_cases hoverflows : DivisionOverflows (numberOf a) (numberOf b)
  · rw [divide_eq_none hoverflows]
    exact iff_of_false nofun fun h => h.1.2 hoverflows
  · have hquotient := (divide_iff ⟨_, numberOf_normal a⟩ ⟨_, numberOf_normal b⟩).mpr hoverflows
    unfold ExactQuotient at hquotient
    rw [numberOf_toRat, numberOf_toRat] at hquotient
    by_cases hzero : b = 0
    · rw [if_pos hzero] at hquotient
      rw [hquotient]
      exact iff_of_false nofun fun h => h.1.1 hzero
    · rw [if_neg hzero] at hquotient
      obtain ⟨d, hd, hvalue⟩ := hquotient
      rw [hd, NumberObject.eq_numberOf hvalue, Option.some.injEq, Except.ok.injEq]
      exact ⟨fun h => ⟨⟨hzero, hoverflows⟩, h.symm⟩, fun h => h.2.symm⟩

end

/-- The numbers that are stored as 64-bit integers. -/
theorem numberOf_eq_i64 {q : ℚ} {n : Int64} : numberOf q = .i64 n ↔ q = n.toInt := by
  constructor
  · intro h
    rw [← numberOf_toRat q, h]
    rfl
  · intro h
    exact (NumberObject.eq_numberOf (c := ⟨.i64 n, trivial⟩) h.symm).symm

/-- Every number is compared rightly with zero, for no other integer than a negative one is misread, and
zero is stored as an integer. -/
theorem compared_zero (q : ℚ) : ComparedAsRationals (numberOf q) (.i64 0) := by
  refine (comparedAsRationals_iff _ _).mpr ((reading_eq_compare_iff _ _).mpr fun hmisread => ?_)
  cases hq : numberOf q with
  | i64 n =>
    rw [hq] at hmisread
    exact hmisread
  | mpq r =>
    rw [hq] at hmisread
    exact absurd hmisread.1 (by decide)

end Chloride
