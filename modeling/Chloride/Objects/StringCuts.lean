import Chloride.Objects.Slicing
import Chloride.Objects.StringSearch

/-!
# Cutting strings

A string that is cut in two with slices at an index, where `index_of` has found something or behind it. A string in
memory has a zero behind it, so that it is shorter than `2^63 - 1`, and then no sum of `slice_indices` overflows.
-/

namespace Chloride

namespace StringCuts

open Substring (firstFrom cutAt firstFrom_of_cutAt eq_append_of_cutAt)

/-- The length of a string in memory. -/
def Short (s : List UInt8) : Prop := s.length + 1 < 2^63

instance (s : List UInt8) : Decidable (Short s) := inferInstanceAs (Decidable (_ < _))

theorem Short.of_length_le {s t : List UInt8} (hs : Short s) (h : t.length ≤ s.length) : Short t := by
  unfold Short at *
  omega

/-- The parts of a short string are short. -/
theorem Short.of_append {x y : List UInt8} (hs : Short (x ++ y)) : Short x ∧ Short y := by
  constructor
  · exact hs.of_length_le (by simp)
  · exact hs.of_length_le (by simp)

variable {s x y z : List UInt8}

/-- A slice of step one takes the items between its bounds. -/
theorem getSlice_of_sliceOf {start stop : Option Int64} {a b : ℕ} (hs : Short s)
    (hslice : sliceOf s.length start stop none = ⟨a, b, 1⟩) (hb : b ≤ s.length) :
    getSlice s start stop none = some (.ok ((s.take b).drop a)) := by
  unfold Short at hs
  have hfits : ¬(sliceOf s.length start stop none).Overflows := by
    unfold NormalisedSlice.Overflows
    rw [hslice]
    dsimp only
    omega
  have hdata : s.length < 2^63 := by omega
  have hstep : (none : Option Int64) ≠ some 0 := by simp
  obtain ⟨-, slice, hget, hitems⟩ := (selectsSlice_iff hdata start stop hstep).mpr hfits
  rw [hget]
  have hcount (k : ℕ) : k < (sliceOf s.length start stop none).count ↔ a + k < b := by
    rw [NormalisedSlice.lt_count_iff (by rw [hslice]; exact one_ne_zero), hslice]
    simp [Progression.Before]
    omega
  have heq : slice = (s.take b).drop a := by
    apply List.map_injective_iff.mpr (Option.some_injective _)
    rw [hitems]
    apply List.ext_getElem?
    intro k
    rw [List.getElem?_map, List.getElem?_map, List.getElem?_drop]
    by_cases hk : a + k < b
    · have hindex := NormalisedSlice.getElem?_indices.mpr ⟨(hcount k).mpr hk, rfl⟩
      rw [hindex, List.getElem?_take_of_lt hk, hslice, Option.map_some]
      have hnat : ((a : ℤ) + (k : ℤ) * 1).toNat = a + k := by omega
      have hlt : a + k < s.length := by omega
      simp only [hnat, List.getElem?_eq_getElem hlt, Option.map_some]
    · have hlength : (sliceOf s.length start stop none).indices.length ≤ k := by
        rw [NormalisedSlice.length_indices]
        have hnot := mt (hcount k).mp hk
        omega
      rw [List.getElem?_eq_none hlength, List.getElem?_eq_none (by rw [List.length_take]; omega)]
      rfl
  rw [heq]

theorem toInt_ofNat {i : ℕ} (h : i < 2^63) : (Int64.ofNat i).toInt = i := Int64.toInt_ofNat_of_lt h

/-- A bound in the sequence is left as it is. -/
theorem normaliseBound_of_le {n i : ℕ} (h : i ≤ n) : normaliseBound n 0 n i = i := by
  unfold normaliseBound
  rw [if_neg (by omega)]
  omega

/-- `[:i]` -/
theorem slice_to (hs : Short (x ++ z)) :
    stringGetSlice (x ++ z) none (some (Int64.ofNat x.length)) none = some (.ok x) := by
  have hlength : x.length ≤ (x ++ z).length := by simp
  have hbound : (Int64.ofNat x.length).toInt = x.length := toInt_ofNat (by unfold Short at hs; omega)
  have hslice : sliceOf (x ++ z).length none (some (Int64.ofNat x.length)) none = ⟨(0 : ℕ), x.length, 1⟩ := by
    simp only [sliceOf, normalise, Option.map_none, Option.map_some, hbound]
    simpa using normaliseBound_of_le hlength
  have h := getSlice_of_sliceOf hs hslice hlength
  rw [List.take_left, List.drop_zero] at h
  exact h

/-- `[i:]` -/
theorem slice_from (hs : Short (x ++ z)) :
    stringGetSlice (x ++ z) (some (Int64.ofNat x.length)) none none = some (.ok z) := by
  have hlength : x.length ≤ (x ++ z).length := by simp
  have hbound : (Int64.ofNat x.length).toInt = x.length := toInt_ofNat (by unfold Short at hs; omega)
  have hslice : sliceOf (x ++ z).length (some (Int64.ofNat x.length)) none none =
      ⟨x.length, (x ++ z).length, 1⟩ := by
    simp only [sliceOf, normalise, Option.map_none, Option.map_some, hbound]
    simpa using normaliseBound_of_le hlength
  have h := getSlice_of_sliceOf hs hslice le_rfl
  rw [List.take_length, List.drop_left] at h
  exact h

/-- `index_of`, by what is before the first occurrence. -/
theorem searchIndex_eq {needle : List UInt8} (hs : Short s) (hneedle : Short needle) (hne : needle ≠ []) :
    StringSearch.indexOf s needle none =
      some (.ok ((cutAt needle s).elim (-1) fun parts => Int64.ofNat parts.1.length)) := by
  have hlength (t : List UInt8) (ht : Short t) : t.length < 2^63 := by
    unfold Short at ht
    omega
  have h := StringSearch.indexOf_eq (hlength s hs) (hlength needle hneedle) hne none
  rw [h]
  cases hcut : cutAt needle s with
  | none =>
    have hnone : firstFrom needle s 0 = none := Option.map_eq_none_iff.mp hcut
    simp only [StringSearch.startArgument, Except.map, StringSearch.naiveIndexOf, Option.elim, hnone,
      StringSearch.answer]
  | some parts =>
    have hsome : firstFrom needle s 0 = some parts.1.length := firstFrom_of_cutAt hcut
    simp only [StringSearch.startArgument, Except.map, StringSearch.naiveIndexOf, Option.elim, hsome,
      StringSearch.answer]

/-- A place that is found is not negative. -/
theorem ofNat_nonneg {i : ℕ} (h : i < 2^63) : Int64.ofNat i ≥ 0 := by
  rw [ge_iff_le, Int64.le_iff_toInt_le, toInt_ofNat h, Int64.toInt_zero]
  exact Int.natCast_nonneg i

/-! ## In a computation -/

/-- `s.index_of(needle)` -/
def indexOf (s needle : List UInt8) : ExceptT ArErr Option Int64 := ExceptT.mk (StringSearch.indexOf s needle none)

/-- `s[start:stop]` -/
def slice (s : List UInt8) (start stop : Option Int64) : ExceptT ArErr Option (List UInt8) :=
  ExceptT.mk (stringGetSlice s start stop none)

/-- What is found at a cut. -/
theorem indexOf_of_cutAt {c : UInt8} {t : List UInt8} (hs : Short s) (ht : Short (c :: t))
    (h : cutAt (c :: t) s = some (x, y)) :
    (indexOf s (c :: t)).run = some (.ok (Int64.ofNat x.length)) ∧ Int64.ofNat x.length ≥ 0 ∧
      (slice s none (some (Int64.ofNat x.length))).run = some (.ok x) ∧
      (slice s (some (Int64.ofNat x.length)) none).run = some (.ok (c :: t ++ y)) ∧
      (slice s (some (Int64.ofNat (x.length + (c :: t).length))) none).run = some (.ok y) := by
  have hindex := StringCuts.searchIndex_eq hs ht (List.cons_ne_nil c t)
  rw [h] at hindex
  obtain rfl := eq_append_of_cutAt h
  have hlength : x.length < 2^63 := by
    unfold Short at hs
    rw [List.length_append] at hs
    omega
  refine ⟨hindex, ofNat_nonneg hlength, slice_to hs, slice_from hs, ?_⟩
  rw [← List.append_assoc] at hs ⊢
  rw [← List.length_append]
  exact slice_from hs

theorem indexOf_of_cutAt_eq_none {c : UInt8} {t : List UInt8} (hs : Short s) (ht : Short (c :: t))
    (h : cutAt (c :: t) s = none) : (indexOf s (c :: t)).run = some (.ok (-1)) := by
  have hindex := StringCuts.searchIndex_eq hs ht (List.cons_ne_nil c t)
  rwa [h] at hindex

end StringCuts

end Chloride
