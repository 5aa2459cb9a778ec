import Chloride.Numerics.Progression
import Chloride.Objects.Slice

/-!
# Slicing

What a slice selects, in integers: its bounds are counted from the end when they are negative and brought
into the sequence, and its indices go from the first in steps as long as they are before the second
(`NormalisedSlice`). The code computes exactly these indices and their number unless the sum of the
distance of the bounds and the step overflows (`slicing_iff`).
-/

namespace Chloride

/-- The bounds and the step of a slice, brought into a sequence. -/
structure NormalisedSlice where
  first : ℤ
  bound : ℤ
  step : ℤ

/-- A bound of a slice, counted from the end when it is negative. -/
def normaliseBound (length low high index : ℤ) : ℤ :=
  max low (min high (if index < 0 then index + length else index))

/-- The slice of a sequence; `none` for a field that is null. -/
def normalise (length : ℤ) (start stop step : Option ℤ) : NormalisedSlice :=
  if 0 < step.getD 1 then
    { first := start.elim 0 (normaliseBound length 0 length)
      bound := stop.elim length (normaliseBound length 0 length)
      step := step.getD 1 }
  else
    { first := start.elim (length - 1) (normaliseBound length (-1) (length - 1))
      bound := stop.elim (-1) (normaliseBound length (-1) (length - 1))
      step := step.getD 1 }

namespace NormalisedSlice

variable (s : NormalisedSlice)

/-- The number of indices. -/
def count : ℕ := Progression.count false (s.first : ℚ) s.bound s.step

/-- The indices, in the order in which they are taken. -/
def indices : List ℤ := (List.range s.count).map fun k : ℕ => s.first + k * s.step

/-- Bounds as they are in a sequence of `n` items. -/
structure Within (n : ℤ) : Prop where
  first : -1 ≤ s.first ∧ s.first ≤ n
  bound : -1 ≤ s.bound ∧ s.bound ≤ n
  forwards : 0 < s.step → 0 ≤ s.first
  backwards : s.step < 0 → s.first < n

/-- The distance of the bounds and the step together are too large, if there is an index at all. -/
def Overflows : Prop :=
  (0 < s.step ∧ s.first < s.bound ∧ 2^63 ≤ s.bound - s.first + s.step) ∨
  (s.step < 0 ∧ s.bound < s.first ∧ 2^63 ≤ s.first - s.bound - s.step)

instance : Decidable s.Overflows := inferInstanceAs (Decidable (_ ∨ _))

end NormalisedSlice

/-- The three integers that `slice_indices` gives. -/
def SliceIndices.normalised (indices : SliceIndices) : NormalisedSlice :=
  ⟨indices.start.toInt, indices.stop.toInt, indices.step.toInt⟩

/-- The slice of a sequence for the fields of a slice object. -/
def sliceOf (n : ℕ) (start stop step : Option Int64) : NormalisedSlice :=
  normalise n (start.map Int64.toInt) (stop.map Int64.toInt) (step.map Int64.toInt)

/-- A `__getitem__` method selects the items of a slice: it computes the number of the indices and each of
them, which is in the sequence, and the items at these are its result. -/
structure SelectsSlice {α : Type}
    (getSlice : List α → Option Int64 → Option Int64 → Option Int64 → Option (Except ArErr (List α)))
    (data : List α) (start stop step : Option Int64) : Prop where
  computed : ∃ indices, sliceIndices start stop step (Int64.ofNat data.length) = some (.ok indices) ∧
    (∃ size, indices.size = some size ∧
      size.toInt = (sliceOf data.length start stop step).indices.length) ∧
    ∀ (k : ℕ) (i : ℤ), (sliceOf data.length start stop step).indices[k]? = some i →
      0 ≤ i ∧ i < data.length ∧ ∃ index, indices.index k = some index ∧ index.toInt = i
  items : ∃ slice, getSlice data start stop step = some (.ok slice) ∧
    slice.map some = (sliceOf data.length start stop step).indices.map fun i => data[i.toNat]?

/-! ## The indices of a normalised slice -/

theorem normaliseBound_mem (length : ℤ) {low high : ℤ} (h : low ≤ high) (index : ℤ) :
    low ≤ normaliseBound length low high index ∧ normaliseBound length low high index ≤ high := by
  unfold normaliseBound
  omega

theorem normalise_within {n : ℤ} (hn : 0 ≤ n) (start stop step : Option ℤ) :
    (normalise n start stop step).Within n := by
  have hlow (index : ℤ) := normaliseBound_mem n hn index
  have hhigh (index : ℤ) := normaliseBound_mem n (show -1 ≤ n - 1 by omega) index
  unfold normalise
  split
  case isTrue hpos =>
    have hneg : ¬step.getD 1 < 0 := by omega
    cases start <;> cases stop <;> constructor <;> simp only [Option.elim] <;> grind
  case isFalse hpos =>
    cases start <;> cases stop <;> constructor <;> simp only [Option.elim] <;> grind

namespace NormalisedSlice

variable {s : NormalisedSlice} {n : ℤ}

theorem length_indices : s.indices.length = s.count := by
  unfold indices
  rw [List.length_map, List.length_range]

theorem getElem?_indices {k : ℕ} {i : ℤ} :
    s.indices[k]? = some i ↔ k < s.count ∧ s.first + k * s.step = i := by
  unfold indices
  rw [List.getElem?_map, Option.map_eq_some_iff]
  constructor
  · rintro ⟨m, hm, rfl⟩
    obtain ⟨hlt, hm⟩ := List.getElem?_eq_some_iff.mp hm
    rw [List.length_range] at hlt
    rw [List.getElem_range] at hm
    exact ⟨hlt, by rw [hm]⟩
  · rintro ⟨hlt, rfl⟩
    exact ⟨k, List.getElem?_range hlt, rfl⟩

theorem lt_count_iff (hstep : s.step ≠ 0) (k : ℕ) :
    k < s.count ↔ Progression.Before false s.step (s.first + k * s.step) s.bound := by
  have h := Progression.lt_count_iff false (s.first : ℚ) s.bound (Int.cast_ne_zero.mpr hstep) k
  rw [← Progression.before_intCast]
  push_cast
  exact h

/-- Every index is in the sequence. -/
theorem Within.index_mem (h : s.Within n) (hstep : s.step ≠ 0) {k : ℕ} (hk : k < s.count) :
    0 ≤ s.first + k * s.step ∧ s.first + k * s.step < n := by
  have hfirst := h.first
  have hbound := h.bound
  rcases (lt_count_iff hstep k).mp hk with ⟨hpos, hbefore⟩ | ⟨hneg, hbefore⟩
  · have hforwards := h.forwards hpos
    have hmul : 0 ≤ (k : ℤ) * s.step := mul_nonneg (Int.natCast_nonneg k) hpos.le
    simp only [Bool.false_eq_true, false_and, or_false] at hbefore
    omega
  · have hbackwards := h.backwards hneg
    have hmul : (k : ℤ) * s.step ≤ 0 := mul_nonpos_of_nonneg_of_nonpos (Int.natCast_nonneg k) hneg.le
    simp only [Bool.false_eq_true, false_and, or_false] at hbefore
    omega

/-- There are no more indices than items. -/
theorem Within.count_le (h : s.Within n) (hstep : s.step ≠ 0) (hn : 0 ≤ n) : (s.count : ℤ) ≤ n := by
  by_contra hlt
  obtain ⟨m, rfl⟩ := Int.eq_ofNat_of_zero_le hn
  have hk : m < s.count := by omega
  have hmem := h.index_mem hstep hk
  have hfirst := h.index_mem hstep (k := 0) (by omega)
  rw [Nat.cast_zero, zero_mul, add_zero] at hfirst
  rcases lt_or_gt_of_ne hstep with hneg | hpos
  · have hmul : (m : ℤ) * s.step ≤ m * (-1) :=
      mul_le_mul_of_nonneg_left (by omega) (Int.natCast_nonneg m)
    omega
  · have hmul : (m : ℤ) * 1 ≤ m * s.step := mul_le_mul_of_nonneg_left (by omega) (Int.natCast_nonneg m)
    omega

/-- The number of indices is that of the steps that fit between the bounds. -/
theorem count_eq {d : ℤ} {q : ℕ} (hstep : s.step ≠ 0)
    (hd : ∀ k : ℕ, Progression.Before false s.step (s.first + k * s.step) s.bound ↔
      k * |s.step| < d) (hq : (q : ℤ) = (d + |s.step| - 1) / |s.step|) : q = s.count := by
  have habs : 0 < |s.step| := abs_pos.mpr hstep
  have hlt (k : ℕ) : k < q ↔ k * |s.step| < d := by
    have hle : (k : ℤ) + 1 ≤ (d + |s.step| - 1) / |s.step| ↔ ((k : ℤ) + 1) * |s.step| ≤
      d + |s.step| - 1 := Int.le_ediv_iff_mul_le habs
    rw [← hq, add_mul, one_mul] at hle
    omega
  apply Progression.eq_count (Int.cast_ne_zero.mpr hstep)
  intro k
  rw [hlt, ← hd, ← Progression.before_intCast]
  push_cast
  rfl

end NormalisedSlice

/-! ## What the code computes -/

section

variable {length : Int64}

theorem clampIndex_spec (hlength : 0 ≤ length.toInt) {low high : Int64} (h : low.toInt ≤ high.toInt)
    (index : Int64) : ∃ c, clampIndex length low high index = some c ∧
      c.toInt = normaliseBound length.toInt low.toInt high.toInt index.toInt := by
  have hbounds := Signed64.fits_toInt length
  have hindex := Signed64.fits_toInt index
  have hneg : index < 0 ↔ index.toInt < 0 := Int64.lt_iff_toInt_lt
  have hclamp (i : Int64) : (if i < low then low else if high < i then high else i).toInt =
      max low.toInt (min high.toInt i.toInt) := by
    simp only [Int64.lt_iff_toInt_lt]
    split_ifs <;> omega
  unfold clampIndex normaliseBound
  by_cases hcounted : index < 0
  · obtain ⟨i, hi, hvalue⟩ : ∃ i, Signed64.add index length = some i ∧
        i.toInt = index.toInt + length.toInt := Signed64.exact_of_fits (by
      have hlt := hneg.mp hcounted
      unfold Signed64.Fits at *
      omega)
    rw [if_pos hcounted, if_pos (hneg.mp hcounted), hi, ← hvalue]
    exact ⟨_, rfl, hclamp i⟩
  · rw [if_neg hcounted, if_neg (mt hneg.mpr hcounted)]
    refine ⟨if index < low then low else if high < index then high else index, ?_, hclamp index⟩
    rfl

/-- A field that is null or is clamped. -/
theorem elim_clampIndex_spec (hlength : 0 ≤ length.toInt) {low high : Int64}
    (default : Int64) (h : low.toInt ≤ high.toInt) (field : Option Int64) :
    ∃ c, field.elim (some default) (clampIndex length low high) = some c ∧
      c.toInt = (field.map Int64.toInt).elim default.toInt
        (normaliseBound length.toInt low.toInt high.toInt) := by
  cases field with
  | none => exact ⟨default, rfl, rfl⟩
  | some index => exact clampIndex_spec hlength h index

/-- `slice_indices` normalises a slice. -/
theorem sliceIndices_spec (hlength : 0 ≤ length.toInt) (start stop : Option Int64) {step : Option Int64}
    (hstep : step ≠ some 0) : ∃ indices, sliceIndices start stop step length = some (.ok indices) ∧
      indices.normalised = normalise length.toInt (start.map Int64.toInt) (stop.map Int64.toInt)
        (step.map Int64.toInt) := by
  have hstepValue : (step.map Int64.toInt).getD 1 = (step.getD 1).toInt := by
    cases step <;> rfl
  have hne : step.getD 1 ≠ 0 := by
    cases step with
    | none => decide
    | some m => exact fun h => hstep (congrArg some h)
  unfold sliceIndices normalise
  dsimp only
  rw [if_neg hne, hstepValue]
  have hzero : (0 : Int64).toInt = 0 := rfl
  have hminus : (-1 : Int64).toInt = -1 := by decide
  by_cases hpos : step.getD 1 > 0
  · have hpos' : 0 < (step.getD 1).toInt := by
      rw [gt_iff_lt, Int64.lt_iff_toInt_lt] at hpos
      exact hpos
    have hlength' : (0 : Int64).toInt ≤ length.toInt := hlength
    obtain ⟨first, hfirst, hfirstValue⟩ := elim_clampIndex_spec hlength 0 hlength' start
    obtain ⟨bound, hbound, hboundValue⟩ := elim_clampIndex_spec hlength length hlength' stop
    rw [if_pos hpos, if_pos hpos', hfirst, hbound]
    refine ⟨⟨first, bound, step.getD 1⟩, rfl, ?_⟩
    unfold SliceIndices.normalised
    rw [hfirstValue, hboundValue, hzero]
  · have hpos' : ¬0 < (step.getD 1).toInt := by
      rw [gt_iff_lt, Int64.lt_iff_toInt_lt] at hpos
      exact hpos
    have hfits := Signed64.fits_toInt length
    obtain ⟨last, hlast, hlastValue⟩ : ∃ last, Signed64.sub length 1 = some last ∧
        last.toInt = length.toInt - 1 := Signed64.exact_of_fits (by
      have hone : (1 : Int64).toInt = 1 := by decide
      unfold Signed64.Fits at *
      omega)
    have hle : (-1 : Int64).toInt ≤ last.toInt := by omega
    obtain ⟨first, hfirst, hfirstValue⟩ := elim_clampIndex_spec hlength last hle start
    obtain ⟨bound, hbound, hboundValue⟩ := elim_clampIndex_spec hlength (-1) hle stop
    rw [if_neg hpos, if_neg hpos', hlast, Option.bind_eq_bind, Option.bind_some, hfirst, hbound]
    refine ⟨⟨first, bound, step.getD 1⟩, rfl, ?_⟩
    unfold SliceIndices.normalised
    rw [hfirstValue, hboundValue, hlastValue, hminus]

end

/-- `(d + c - 1) / c` in 64 bits. -/
theorem ceilDiv_spec {d : ℤ} {c n : Int64} (hd : 0 < d) (hc : 0 < c.toInt) (hn : n.toInt = d + c.toInt) :
    ∃ q, ((Signed64.sub n 1).bind fun n => Signed64.quot n c) = some q ∧
      q.toInt = (d + c.toInt - 1) / c.toInt := by
  have hfits := Signed64.fits_toInt n
  have hone : (1 : Int64).toInt = 1 := by decide
  obtain ⟨m, hm, hvalue⟩ := Signed64.exact_of_fits (z := n.toInt - (1 : Int64).toInt) (by
    unfold Signed64.Fits at *
    omega)
  have hm' : Signed64.sub n 1 = some m := hm
  have hne : c ≠ 0 := fun h => by rw [h] at hc; exact absurd hc (by decide)
  have hminus : ¬(m = Int64.minValue ∧ c = -1) := by
    rintro ⟨-, h⟩
    rw [h] at hc
    exact absurd hc (by decide)
  obtain ⟨q, hq, hquot⟩ := Signed64.quot_of_fits (a := m) hne ((Signed64.fits_tdiv_iff hne).mpr hminus)
  refine ⟨q, ?_, ?_⟩
  · rw [hm', Option.bind_some, hq]
  · rw [hquot, hvalue, hone, hn]
    exact Int.tdiv_eq_ediv_of_nonneg (by omega)

namespace SliceIndices

variable {indices : SliceIndices} {n : ℤ}

/-- The distance of two bounds. -/
theorem distance_spec {a b : Int64} (hab : b.toInt < a.toInt) (hbound : a.toInt - b.toInt < 2^63) :
    ∃ d, Signed64.sub a b = some d ∧ d.toInt = a.toInt - b.toInt := Signed64.exact_of_fits (by
  unfold Signed64.Fits
  omega)

/-- The computed size is the number of indices unless a sum overflows. -/
theorem size_spec (hn : Signed64.Fits n) (hwithin : indices.normalised.Within n)
    (hstep : indices.normalised.step ≠ 0) (hfits : ¬indices.normalised.Overflows) :
    ∃ size, indices.size = some size ∧ size.toInt = indices.normalised.count := by
  have hfirst := hwithin.first
  have hbound := hwithin.bound
  have hforwards := hwithin.forwards
  have hbackwards := hwithin.backwards
  have hstepFits := Signed64.fits_toInt indices.step
  have hforth : indices.step > 0 ∧ indices.stop > indices.start ↔
      0 < indices.step.toInt ∧ indices.start.toInt < indices.stop.toInt :=
    and_congr Int64.lt_iff_toInt_lt Int64.lt_iff_toInt_lt
  have hback : indices.step < 0 ∧ indices.stop < indices.start ↔
      indices.step.toInt < 0 ∧ indices.stop.toInt < indices.start.toInt :=
    and_congr Int64.lt_iff_toInt_lt Int64.lt_iff_toInt_lt
  unfold NormalisedSlice.Overflows at hfits
  unfold Signed64.Fits at hn hstepFits
  simp only [normalised] at hfirst hbound hforwards hbackwards hfits hstep
  have hcount {d : ℤ} {q : Int64} (hd : ∀ k : ℕ,
      Progression.Before false indices.step.toInt (indices.start.toInt + k * indices.step.toInt)
        indices.stop.toInt ↔ k * |indices.step.toInt| < d) (hnonneg : 0 ≤ q.toInt)
      (hq : q.toInt = (d + |indices.step.toInt| - 1) / |indices.step.toInt|) :
      q.toInt = indices.normalised.count := by
    rw [← NormalisedSlice.count_eq (s := indices.normalised) (q := q.toInt.toNat) hstep hd (by
      rw [Int.toNat_of_nonneg hnonneg]
      exact hq), Int.toNat_of_nonneg hnonneg]
  unfold size
  by_cases hf : indices.step > 0 ∧ indices.stop > indices.start
  · have hf' := hforth.mp hf
    obtain ⟨d, hd, hdvalue⟩ := distance_spec hf'.2 (by omega)
    obtain ⟨m, hm, hmvalue⟩ : ∃ m, Signed64.add d indices.step = some m ∧
        m.toInt = d.toInt + indices.step.toInt := Signed64.exact_of_fits (by
      unfold Signed64.Fits
      omega)
    rw [hdvalue] at hmvalue
    obtain ⟨q, hq, hqvalue⟩ := ceilDiv_spec (by omega) hf'.1 hmvalue
    rw [if_pos hf, hd, Option.bind_eq_bind, Option.bind_some, hm, Option.bind_some]
    refine ⟨q, hq, hcount (d := indices.stop.toInt - indices.start.toInt) (fun k => ?_) ?_ ?_⟩
    · unfold Progression.Before
      rw [abs_of_pos hf'.1]
      simp only [Bool.false_eq_true, false_and, or_false]
      omega
    · rw [hqvalue]
      exact Int.ediv_nonneg (by omega) hf'.1.le
    · rw [hqvalue, abs_of_pos hf'.1]
  · rw [if_neg hf]
    by_cases hb : indices.step < 0 ∧ indices.stop < indices.start
    · have hb' := hback.mp hb
      obtain ⟨d, hd, hdvalue⟩ := distance_spec hb'.2 (by omega)
      obtain ⟨m, hm, hmvalue⟩ : ∃ m, Signed64.sub d indices.step = some m ∧
          m.toInt = d.toInt - indices.step.toInt := Signed64.exact_of_fits (by
        unfold Signed64.Fits
        omega)
      obtain ⟨c, hc, hcvalue⟩ : ∃ c, Signed64.neg indices.step = some c ∧
          c.toInt = -indices.step.toInt := Signed64.exact_of_fits (by
        unfold Signed64.Fits
        omega)
      rw [hdvalue, sub_eq_add_neg, ← hcvalue] at hmvalue
      obtain ⟨q, hq, hqvalue⟩ := ceilDiv_spec (by omega) (by omega) hmvalue
      rw [if_pos hb, hd, Option.bind_eq_bind, Option.bind_some, hm, Option.bind_some]
      simp only [hc, Option.bind_some]
      refine ⟨q, hq, hcount (d := indices.start.toInt - indices.stop.toInt) (fun k => ?_) ?_ ?_⟩
      · unfold Progression.Before
        rw [abs_of_neg hb'.1]
        simp only [Bool.false_eq_true, false_and, or_false, mul_neg]
        omega
      · rw [hqvalue]
        exact Int.ediv_nonneg (by omega) (by omega)
      · rw [hqvalue, abs_of_neg hb'.1, hcvalue]
    · rw [if_neg hb]
      have hzero : ¬0 < indices.normalised.count := by
        rw [NormalisedSlice.lt_count_iff hstep]
        have hf' := mt hforth.mpr hf
        have hb' := mt hback.mpr hb
        unfold Progression.Before normalised
        simp only [Bool.false_eq_true, false_and, or_false, Nat.cast_zero, zero_mul, add_zero]
        omega
      refine ⟨0, rfl, ?_⟩
      have hcount0 : indices.normalised.count = 0 := by omega
      rw [hcount0]
      rfl

/-- If the sum overflows, the size is undefined. -/
theorem size_eq_none (hn : Signed64.Fits n) (hwithin : indices.normalised.Within n)
    (hoverflows : indices.normalised.Overflows) : indices.size = none := by
  have hfirst := hwithin.first
  have hbound := hwithin.bound
  have hforwards := hwithin.forwards
  have hbackwards := hwithin.backwards
  unfold Signed64.Fits at hn
  simp only [normalised] at hfirst hbound hforwards hbackwards
  unfold size
  rcases hoverflows with ⟨hpos, hforth, hlarge⟩ | ⟨hneg, hback, hlarge⟩
  · simp only [normalised] at hpos hforth hlarge
    have hf : indices.step > 0 ∧ indices.stop > indices.start :=
      ⟨Int64.lt_iff_toInt_lt.mpr hpos, Int64.lt_iff_toInt_lt.mpr hforth⟩
    obtain ⟨d, hd, hdvalue⟩ := distance_spec hforth (by omega)
    have hsum : Signed64.add d indices.step = none := Signed64.exact_eq_none.mpr (by
      unfold Signed64.Fits
      omega)
    rw [if_pos hf, hd, Option.bind_eq_bind, Option.bind_some, hsum, Option.bind_none]
  · simp only [normalised] at hneg hback hlarge
    have hf : ¬(indices.step > 0 ∧ indices.stop > indices.start) := fun h => by
      have hpos : 0 < indices.step.toInt := Int64.lt_iff_toInt_lt.mp h.1
      omega
    have hb : indices.step < 0 ∧ indices.stop < indices.start :=
      ⟨Int64.lt_iff_toInt_lt.mpr hneg, Int64.lt_iff_toInt_lt.mpr hback⟩
    obtain ⟨d, hd, hdvalue⟩ := distance_spec hback (by omega)
    have hsum : Signed64.sub d indices.step = none := Signed64.exact_eq_none.mpr (by
      unfold Signed64.Fits
      omega)
    rw [if_neg hf, if_pos hb, hd, Option.bind_eq_bind, Option.bind_some, hsum, Option.bind_none]

/-- Every index is computed, and it is in the sequence. -/
theorem index_spec (hn : Signed64.Fits n) (hwithin : indices.normalised.Within n)
    (hstep : indices.normalised.step ≠ 0) {k : ℕ} (hk : k < indices.normalised.count) :
    ∃ index, indices.index k = some index ∧
      index.toInt = indices.normalised.first + k * indices.normalised.step := by
  have hmem := hwithin.index_mem hstep hk
  have hfirst := hwithin.first
  have hn0 : 0 ≤ n := by omega
  have hcount := hwithin.count_le hstep hn0
  unfold Signed64.Fits at hn
  have hcast : (Int64.ofNat k).toInt = k := Int64.toInt_ofNat_of_lt (by omega)
  simp only [normalised] at hmem hfirst
  obtain ⟨m, hm, hmvalue⟩ : ∃ m, Signed64.mul (Int64.ofNat k) indices.step = some m ∧
      m.toInt = (Int64.ofNat k).toInt * indices.step.toInt := Signed64.exact_of_fits (by
    rw [hcast]
    unfold Signed64.Fits
    omega)
  rw [hcast] at hmvalue
  obtain ⟨index, hindex, hvalue⟩ : ∃ index, Signed64.add indices.start m = some index ∧
      index.toInt = indices.start.toInt + m.toInt := Signed64.exact_of_fits (by
    unfold Signed64.Fits
    omega)
  refine ⟨index, ?_, ?_⟩
  · unfold SliceIndices.index
    rw [hm, Option.bind_eq_bind, Option.bind_some, hindex]
  · rw [hvalue, hmvalue]
    rfl

end SliceIndices

theorem itemAt_of_mem {α : Type} {data : List α} {index : Int64} (h : 0 ≤ index.toInt) :
    itemAt data index = data[index.toInt.toNat]? := by
  unfold itemAt
  rw [if_neg]
  intro hneg
  have hlt : index.toInt < 0 := Int64.lt_iff_toInt_lt.mp hneg
  omega

/-- The items at the indices that a list of computations gives. -/
theorem mapM_items {α β : Type} {l : List β} {f : β → Option α} {g : β → Option α}
    (h : ∀ b ∈ l, f b = g b ∧ (g b).isSome) : ∃ r, l.mapM f = some r ∧ r.map some = l.map g := by
  induction l with
  | nil => exact ⟨[], rfl, rfl⟩
  | cons b l ih =>
    obtain ⟨r, hr, hmap⟩ := ih fun c hc => h c (List.mem_cons_of_mem b hc)
    obtain ⟨hb, hsome⟩ := h b List.mem_cons_self
    obtain ⟨a, ha⟩ := Option.isSome_iff_exists.mp hsome
    refine ⟨a :: r, ?_, ?_⟩
    · rw [List.mapM_cons, hb, ha, hr]
      rfl
    · rw [List.map_cons, List.map_cons, ha, hmap]

section

variable {α : Type} {data : List α} {start stop step : Option Int64}

theorem sliceOf_within (n : ℕ) (start stop step : Option Int64) : (sliceOf n start stop step).Within n :=
  normalise_within (Int.natCast_nonneg n) _ _ _

theorem sliceOf_step (n : ℕ) (start stop : Option Int64) {step : Option Int64} (h : step ≠ some 0) :
    (sliceOf n start stop step).step ≠ 0 := by
  have hne : (step.map Int64.toInt).getD 1 ≠ 0 := by
    cases step with
    | none => decide
    | some m => exact fun hm => h (congrArg some (Signed64.toInt_eq_zero.mp hm))
  unfold sliceOf normalise
  split <;> exact hne

/-- The fields of a slice object are normalised, for a sequence in memory. -/
theorem sliceIndices_sliceOf {n : ℕ} (hn : n < 2^63) (start stop : Option Int64) (hstep : step ≠ some 0) :
    ∃ indices, sliceIndices start stop step (Int64.ofNat n) = some (.ok indices) ∧
      indices.normalised = sliceOf n start stop step := by
  have hcast : (Int64.ofNat n).toInt = n := Int64.toInt_ofNat_of_lt hn
  have hnonneg : 0 ≤ (Int64.ofNat n).toInt := by omega
  have h := sliceIndices_spec hnonneg start stop hstep
  rw [hcast] at h
  exact h

/-- The copying loop takes the items at the indices. -/
theorem select_spec {indices : SliceIndices} (hdata : data.length < 2^63)
    (hwithin : indices.normalised.Within data.length) (hstep : indices.normalised.step ≠ 0)
    (hfits : ¬indices.normalised.Overflows) : ∃ slice, indices.select data = some slice ∧
      slice.map some = indices.normalised.indices.map fun i => data[i.toNat]? := by
  have hn : Signed64.Fits (data.length : ℤ) := by
    unfold Signed64.Fits
    omega
  obtain ⟨size, hsize, hvalue⟩ := SliceIndices.size_spec hn hwithin hstep hfits
  have hitems := mapM_items (l := List.range indices.normalised.count)
    (f := fun i => do itemAt data (← indices.index i))
    (g := fun k : ℕ => data[(indices.normalised.first + k * indices.normalised.step).toNat]?) (by
    intro k hk
    have hk' := List.mem_range.mp hk
    have hmem := hwithin.index_mem hstep hk'
    obtain ⟨index, hindex, heq⟩ := SliceIndices.index_spec hn hwithin hstep hk'
    constructor
    · rw [hindex, Option.bind_eq_bind, Option.bind_some, itemAt_of_mem (by omega), heq]
    · rw [Option.isSome_iff_ne_none, ne_eq, List.getElem?_eq_none_iff]
      omega)
  obtain ⟨slice, hslice, hmap⟩ := hitems
  refine ⟨slice, ?_, ?_⟩
  · unfold SliceIndices.select
    rw [hsize, Option.bind_eq_bind, Option.bind_some, hvalue, Int.toNat_natCast]
    exact hslice
  · unfold NormalisedSlice.indices
    rw [hmap, List.map_map]
    rfl

/-- A slice is selected exactly if no sum overflows. -/
theorem selectsSlice_iff (hdata : data.length < 2^63) (start stop : Option Int64)
    (hstep : step ≠ some 0) :
    SelectsSlice getSlice data start stop step ↔ ¬(sliceOf data.length start stop step).Overflows := by
  obtain ⟨indices, hindices, hnormalised⟩ := sliceIndices_sliceOf hdata start stop hstep
  have hwithin := sliceOf_within data.length start stop step
  have hstep' := sliceOf_step data.length start stop hstep
  have hn : Signed64.Fits (data.length : ℤ) := by
    unfold Signed64.Fits
    omega
  constructor
  · rintro ⟨⟨indices', hindices', ⟨size, hsize, -⟩, -⟩, -⟩ hoverflows
    rw [hindices, Option.some.injEq, Except.ok.injEq] at hindices'
    subst hindices'
    rw [← hnormalised] at hwithin hoverflows
    rw [SliceIndices.size_eq_none hn hwithin hoverflows] at hsize
    cases hsize
  · intro hfits
    rw [← hnormalised] at hwithin hstep' hfits
    refine ⟨⟨indices, hindices, ?_, ?_⟩, ?_⟩
    · obtain ⟨size, hsize, hvalue⟩ := SliceIndices.size_spec hn hwithin hstep' hfits
      refine ⟨size, hsize, ?_⟩
      rw [hvalue, ← hnormalised, NormalisedSlice.length_indices]
    · intro k i hi
      rw [← hnormalised] at hi
      obtain ⟨hlt, rfl⟩ := NormalisedSlice.getElem?_indices.mp hi
      have hmem := hwithin.index_mem hstep' hlt
      exact ⟨hmem.1, hmem.2, SliceIndices.index_spec hn hwithin hstep' hlt⟩
    · obtain ⟨slice, hslice, hmap⟩ := select_spec hdata hwithin hstep' hfits
      refine ⟨slice, ?_, by rw [hmap, hnormalised]⟩
      unfold getSlice
      rw [hindices, Option.bind_eq_bind, Option.bind_some]
      show (indices.select data).bind _ = _
      rw [hslice]
      rfl

end

/-- Arrays, tuples, strings and buffers are sliced in 64 bits as in integers, unless the sum of the step
and of the distance of the bounds, which is computed for the size, is too large. -/
theorem slicing_iff {α : Type} (items : {items : List α // items.length < 2^63})
    (bytes : {bytes : List UInt8 // bytes.length < 2^63}) (start stop : Option Int64)
    (step : {step : Option Int64 // step ≠ some 0}) :
    (SelectsSlice arrayGetSlice items.1 start stop step ↔
      ¬(sliceOf items.1.length start stop step).Overflows) ∧
    (SelectsSlice tupleGetSlice items.1 start stop step ↔
      ¬(sliceOf items.1.length start stop step).Overflows) ∧
    (SelectsSlice stringGetSlice bytes.1 start stop step ↔
      ¬(sliceOf bytes.1.length start stop step).Overflows) ∧
    (SelectsSlice bufferGetSlice bytes.1 start stop step ↔
      ¬(sliceOf bytes.1.length start stop step).Overflows) :=
  ⟨selectsSlice_iff items.2 start stop step.2, selectsSlice_iff items.2 start stop step.2,
    selectsSlice_iff bytes.2 start stop step.2, selectsSlice_iff bytes.2 start stop step.2⟩

/-- `[a, b][0:2:9223372036854775807]`. -/
theorem not_forall_selectsSlice : ¬∀ (items : {items : List ℕ // items.length < 2^63})
    (start stop : Option Int64) (step : {step : Option Int64 // step ≠ some 0}),
    SelectsSlice arrayGetSlice items.1 start stop step := by
  intro h
  have hselects := h ⟨[0, 1], by decide⟩ (some 0) (some 2) ⟨some Int64.maxValue, by decide⟩
  exact (selectsSlice_iff (by decide) _ _ (by decide)).mp hselects (by decide)

end Chloride
