import Chloride.Objects.ArrayMethods
import Chloride.Stdlib.Maths

/-!
# Random values

`stdlib/random`: the generator of `native/random.c`, and the methods of the class `Random` of `init.ar` on what it puts
out. Numbers are exact rationals here; `Maths.int_computes` says that `int` of `stdlib/maths` computes `mathsInt`.

`range` scales with the upper bound where it should scale with the width of the interval. `values_in_range_iff` says
for which bounds the values are in the interval all the same, and for which all of its integers come up.
-/

namespace Chloride

/-- `Random` of `random.h`. -/
structure Random where
  state : UInt64
  inc : UInt64

namespace Random

/-! ## The generator -/

/-- `pcg32_next` -/
def pcg32Next (r : Random) : UInt32 × Random :=
  let oldstate := r.state
  let xorshifted := (((oldstate >>> 18) ^^^ oldstate) >>> 27).toUInt32
  let rot := (oldstate >>> 59).toUInt32
  ((xorshifted >>> rot) ||| (xorshifted <<< ((-rot) &&& 31)),
    { r with state := oldstate * 6364136223846793005 + (r.inc ||| 1) })

/-- `random_seed` -/
def randomSeed (seed : UInt64) : Random :=
  let r := (pcg32Next ⟨0, (seed <<< 1) ||| 1⟩).2
  (pcg32Next { r with state := r.state + seed }).2

/-- The 53 bits of `random_next_double`. -/
def combined (a b : UInt32) : UInt64 := ((a >>> 5).toUInt64 <<< 26) ||| (b >>> 6).toUInt64

/-- `random_next_double` -/
def randomNextDouble (r : Random) : ℚ × Random :=
  let (a, r) := pcg32Next r
  let (b, r) := pcg32Next r
  ((combined a b).toNat / 9007199254740992, r)

/-! ## The methods -/

/-- `a // b` -/
def floorDiv (a b : ℚ) : ℚ := ⌊a / b⌋

/-- `maths.int` -/
def mathsInt (num : ℚ) : ℚ := if num < 0 then -floorDiv (-num) 1 else floorDiv num 1

/-- `range`, where `random` gives `r`. -/
def range (r start stop : ℚ) : ℚ := start + r * stop

/-- `int`, where `random` gives `r`. -/
def int (r start stop : ℚ) : ℚ := mathsInt (range r start stop)

/-- `choice`, where `random` gives `r`: the item at the index, or the error of the array. -/
def choice {α : Type} (null : α) (r : ℚ) (arr : List α) : ArrayResult α :=
  (ListOp.step null (.getitem (Int64.ofInt ⌊int r 0 arr.length⌋)) arr).1

/-- What the generator puts out. -/
def output (k : ℕ) : ℚ := k / 2^53

/-! ## What they should give -/

/-- Every value is in the interval. -/
def RangeInside (start stop : ℚ) : Prop :=
  ∀ k < 2^53, start ≤ range (output k) start stop ∧ range (output k) start stop < stop

/-- Every integer value is one, in the interval. -/
def IntInside (start stop : ℤ) : Prop :=
  ∀ k < 2^53, ∃ n : ℤ, int (output k) start stop = n ∧ start ≤ n ∧ n < stop

/-- Every integer of an interval that is not too long comes up. -/
def IntReaches (start stop : ℤ) : Prop :=
  stop - start ≤ 2^53 → ∀ n : ℤ, start ≤ n → n < stop → ∃ k < 2^53, int (output k) start stop = n

/-- The bounds for which the integers are in the interval. -/
def InsideBounds (start stop : ℤ) : Prop := stop = -1 ∨ 0 ≤ stop ∧ start * 2^53 < stop

/-- The bounds for which all integers come up. -/
def ReachedBounds (start stop : ℤ) : Prop :=
  start = 0 ∨ (start, stop) ∈ [(-2, -1), (-1, 0), (-1, 1), (1, (2 : ℤ)^53 + 1)]

/-! ## The generator's output -/

theorem combined_lt (a b : UInt32) : (combined a b).toNat < 2^53 := by
  have ha : (a >>> 5).toUInt64.toNat < 2^27 := by
    rw [UInt32.toNat_toUInt64, UInt32.toNat_shiftRight]
    have := a.toNat_lt
    show a.toNat >>> 5 < _
    rw [Nat.shiftRight_eq_div_pow]
    omega
  have hb : (b >>> 6).toUInt64.toNat < 2^26 := by
    rw [UInt32.toNat_toUInt64, UInt32.toNat_shiftRight]
    have := b.toNat_lt
    show b.toNat >>> 6 < _
    rw [Nat.shiftRight_eq_div_pow]
    omega
  rw [combined, UInt64.toNat_or, UInt64.toNat_shiftLeft]
  apply Nat.or_lt_two_pow
  · show ((a >>> 5).toUInt64.toNat <<< 26) % 2^64 < _
    rw [Nat.shiftLeft_eq]
    omega
  · omega

/-- The output is a multiple of `2^-53` below one. -/
theorem randomNextDouble_eq (r : Random) : ∃ k < 2^53, (randomNextDouble r).1 = output k := by
  refine ⟨_, combined_lt (pcg32Next r).1 (pcg32Next (pcg32Next r).2).1, ?_⟩
  rw [output]
  norm_num [randomNextDouble]

theorem output_nonneg (k : ℕ) : 0 ≤ output k := by unfold output; positivity

theorem output_lt_one {k : ℕ} (hk : k < 2^53) : output k < 1 := by
  rw [output, div_lt_one (by positivity)]
  exact_mod_cast hk

/-- The largest output. -/
theorem output_last : output (2^53 - 1) = 1 - 1 / 2^53 := by norm_num [output]

/-! ## Rounding -/

/-- `int` drops the fractional part. -/
theorem mathsInt_eq (q : ℚ) : mathsInt q = truncate q := by
  unfold mathsInt floorDiv truncate
  split
  · rw [div_one, Int.floor_neg, Int.cast_neg, neg_neg]
  · rw [div_one]

theorem int_eq (r start stop : ℚ) : int r start stop = truncate (start + r * stop) := mathsInt_eq _

/-- What drops to an integer below zero, or to zero. -/
theorem truncate_of_neg {q : ℚ} (hq : q < 0) (n : ℤ) : truncate q = n ↔ n - 1 < q ∧ q ≤ n := by
  rw [truncate, if_pos hq, Int.ceil_eq_iff]

theorem truncate_of_nonneg {q : ℚ} (hq : 0 ≤ q) (n : ℤ) : truncate q = n ↔ (n : ℚ) ≤ q ∧ q < n + 1 := by
  rw [truncate, if_neg hq.not_gt, Int.floor_eq_iff]

/-! ## The interval -/

/-- The values are in the interval if and only if scaling with the upper bound does not lead out of it. -/
theorem rangeInside_iff {start stop : ℚ} :
    RangeInside start stop ↔ 0 ≤ stop ∧ start * 2^53 < stop := by
  constructor
  · intro hinside
    have hlow := (hinside 1 (by norm_num)).1
    have hhigh := (hinside (2^53 - 1) (by norm_num)).2
    rw [range] at hlow hhigh
    rw [output_last] at hhigh
    have hone : output 1 = 1 / 2^53 := by norm_num [output]
    rw [hone] at hlow
    exact ⟨by linarith, by linarith⟩
  · rintro ⟨hstop, hstart⟩ k hk
    have hscaled : output k * stop ≤ (1 - 1 / 2^53) * stop := by
      apply mul_le_mul_of_nonneg_right _ hstop
      rw [← output_last, output, output]
      gcongr
      have hlast : k ≤ 2^53 - 1 := Nat.le_sub_one_of_lt hk
      exact_mod_cast hlast
    rw [range]
    exact ⟨le_add_of_nonneg_right (mul_nonneg (output_nonneg k) hstop), by linarith⟩

section

variable {start stop : ℤ}

theorem intInside_iff_truncate : IntInside start stop ↔ ∀ k < 2^53,
    start ≤ truncate (start + output k * stop) ∧ truncate (start + output k * stop) < stop := by
  refine forall₂_congr fun k hk => ?_
  simp only [int_eq, Int.cast_inj]
  constructor
  · rintro ⟨n, rfl, hn⟩
    exact hn
  · exact fun hn => ⟨_, rfl, hn⟩

/-- An integer is not passed in dropping a fractional part. -/
theorem le_truncate {q : ℚ} {n : ℤ} (h : (n : ℚ) ≤ q) : n ≤ truncate q := by
  unfold truncate
  split
  · exact Int.cast_le.mp (h.trans (Int.le_ceil q))
  · exact Int.le_floor.mpr h

/-- Below zero the values go away from the interval, by less than one only where the upper bound is `-1`. -/
theorem truncate_minus_one (h : start < -1) {k : ℕ} (hk : k < 2^53) :
    truncate (start + output k * ((-1 : ℤ) : ℚ)) = start := by
  have hnonneg := output_nonneg k
  have hlt := output_lt_one hk
  have hcast : (start : ℚ) < -1 := by exact_mod_cast h
  push_cast
  exact (truncate_of_neg (by linarith) _).mpr ⟨by linarith, by linarith⟩

theorem intInside_iff (h : start < stop) : IntInside start stop ↔ InsideBounds start stop := by
  rw [intInside_iff_truncate]
  constructor
  · intro hinside
    rcases lt_trichotomy stop (-1) with hlow | rfl | hhigh
    · -- half of the upper bound leads out of the interval
      exfalso
      have hhalf := (hinside (2^52) (by norm_num)).1
      have hout : output (2^52) = 1 / 2 := by norm_num [output]
      have hstop : (stop : ℚ) ≤ -2 := by exact_mod_cast (show stop ≤ -2 by omega)
      have hstart : (start : ℚ) < stop := by exact_mod_cast h
      rw [hout] at hhalf
      have hneg : (start : ℚ) + 1 / 2 * stop < 0 := by linarith
      have hle := ((truncate_of_neg hneg _).mp rfl).1
      have hcast : (start : ℚ) ≤ truncate (start + 1 / 2 * stop) := by exact_mod_cast hhalf
      linarith
    · exact Or.inl rfl
    · refine Or.inr ⟨by omega, ?_⟩
      rcases lt_or_ge 0 start with hpos | hnonpos
      · have hlast := (hinside (2^53 - 1) (by norm_num)).2
        rw [output_last] at hlast
        have hstart : (0 : ℚ) < start := by exact_mod_cast hpos
        have hstop : (0 : ℚ) < stop := by exact_mod_cast hpos.trans h
        have hnonneg : (0 : ℚ) ≤ start + (1 - 1 / 2^53) * stop := by
          have : (0 : ℚ) ≤ (1 - 1 / 2^53) * stop := mul_nonneg (by norm_num) hstop.le
          linarith
        have hvalue : (start : ℚ) + (1 - 1 / 2^53) * stop < stop := by
          have hfloor := ((truncate_of_nonneg hnonneg _).mp rfl).2
          have hcast : (truncate (start + (1 - 1 / 2^53) * stop) : ℚ) + 1 ≤ stop := by exact_mod_cast hlast
          linarith
        have hcast : (start : ℚ) * 2^53 < stop := by linarith
        exact_mod_cast hcast
      · omega
  · rintro (rfl | ⟨hstop, hstart⟩) k hk
    · rw [truncate_minus_one h hk]
      exact ⟨le_rfl, h⟩
    · have hinside := (@rangeInside_iff start stop).mpr ⟨by exact_mod_cast hstop, by exact_mod_cast hstart⟩ k hk
      rw [range] at hinside
      refine ⟨le_truncate hinside.1, ?_⟩
      rcases lt_or_ge ((start : ℚ) + output k * stop) 0 with hneg | hnonneg
      · have hlow := ((truncate_of_neg hneg _).mp rfl).1
        by_contra hge
        have hcast : (stop : ℚ) ≤ truncate (start + output k * stop) := by exact_mod_cast not_lt.mp hge
        -- a value below zero is dropped to zero at most
        have hzero : truncate ((start : ℚ) + output k * stop) < 1 := by
          have : (truncate ((start : ℚ) + output k * stop) : ℚ) < 1 := by linarith
          exact_mod_cast this
        obtain rfl : stop = 0 := by omega
        have hstart' : (start : ℚ) ≤ -1 := by exact_mod_cast (show start ≤ -1 by omega)
        push_cast at hlow hcast
        linarith
      · have hfloor := ((truncate_of_nonneg hnonneg _).mp rfl).1
        have hcast : (truncate ((start : ℚ) + output k * stop) : ℚ) < stop := hfloor.trans_lt hinside.2
        exact_mod_cast hcast

theorem int_eq_iff {k : ℕ} {n : ℤ} :
    int (output k) start stop = n ↔ truncate (start + output k * stop) = n := by
  rw [int_eq, Int.cast_inj]

/-- From zero on, every integer comes up. -/
theorem reaches_zero (hlength : stop ≤ 2^53) {n : ℤ} (hn : 0 ≤ n) (hstop : n < stop) :
    ∃ k < 2^53, int (output k) (0 : ℤ) stop = n := by
  have hpos : 0 < stop := by omega
  -- the first output from which on the value is not below the integer
  obtain ⟨k, hk⟩ : ∃ k : ℕ, (k : ℤ) = (n * 2^53 + stop - 1) / stop :=
    ⟨_, Int.toNat_of_nonneg (Int.ediv_nonneg (by omega) hpos.le)⟩
  have hle : n * 2^53 ≤ k * stop := by
    have hlt := Int.lt_ediv_add_one_mul_self (n * 2^53 + stop - 1) hpos
    rw [← hk, add_mul, one_mul] at hlt
    omega
  have hlt : k * stop ≤ n * 2^53 + stop - 1 := by
    rw [hk]
    exact Int.ediv_mul_le _ hpos.ne'
  have hsmall : k < 2^53 := by
    have hbelow : (k : ℤ) * stop < 2^53 * stop :=
      calc (k : ℤ) * stop ≤ n * 2^53 + stop - 1 := hlt
        _ < n * 2^53 + 2^53 := by omega
        _ = (n + 1) * 2^53 := by ring
        _ ≤ stop * 2^53 := by omega
        _ = 2^53 * stop := by ring
    exact_mod_cast lt_of_mul_lt_mul_right hbelow hpos.le
  have hvalue : ((0 : ℤ) : ℚ) + output k * stop = (k * stop : ℤ) / 2^53 := by
    rw [output]
    push_cast
    ring
  refine ⟨k, hsmall, int_eq_iff.mpr ?_⟩
  rw [hvalue, truncate_of_nonneg]
  · rw [le_div_iff₀ (by norm_num), div_lt_iff₀ (by norm_num)]
    exact ⟨by exact_mod_cast hle, by exact_mod_cast (show (k : ℤ) * stop < (n + 1) * 2^53 by omega)⟩
  · have hnonneg : 0 ≤ (k : ℤ) * stop := by positivity
    have hcast : (0 : ℚ) ≤ ((k * stop : ℤ) : ℚ) := by exact_mod_cast hnonneg
    positivity

/-- The value of the first output. -/
theorem int_output_zero : int (output 0) start stop = start := by
  rw [int_eq_iff]
  have hzero : (start : ℚ) + output 0 * stop = start := by
    rw [output]
    push_cast
    ring
  rw [hzero, Maths.truncate_intCast]

theorem intReaches_of_bounds (h : ReachedBounds start stop) : IntReaches start stop := by
  intro hlength n hstart hstop
  rcases h with rfl | hpairs
  · exact reaches_zero (by omega) hstart hstop
  · simp only [List.mem_cons, Prod.mk.injEq, List.not_mem_nil, or_false] at hpairs
    rcases hpairs with ⟨rfl, rfl⟩ | ⟨rfl, rfl⟩ | ⟨rfl, rfl⟩ | ⟨rfl, rfl⟩
    · obtain rfl : n = -2 := by omega
      exact ⟨0, by norm_num, int_output_zero⟩
    · obtain rfl : n = -1 := by omega
      exact ⟨0, by norm_num, int_output_zero⟩
    · obtain rfl | rfl : n = -1 ∨ n = 0 := by omega
      · exact ⟨0, by norm_num, int_output_zero⟩
      · refine ⟨1, by norm_num, int_eq_iff.mpr ?_⟩
        rw [truncate_of_neg] <;> norm_num [output]
    · -- each output is one further, and the rest stays below one
      obtain ⟨k, rfl⟩ : ∃ k : ℕ, n = k + 1 := ⟨(n - 1).toNat, by omega⟩
      have hk : k < 2^53 := by
        have hcast : (k : ℤ) < 2^53 := by omega
        exact_mod_cast hcast
      have hvalue : ((1 : ℤ) : ℚ) + output k * ((2^53 + 1 : ℤ) : ℚ) = k + 1 + output k := by
        rw [output]
        push_cast
        ring
      refine ⟨k, hk, int_eq_iff.mpr ?_⟩
      have hnonneg := output_nonneg k
      have hlt := output_lt_one hk
      rw [hvalue, truncate_of_nonneg (by positivity)]
      push_cast
      exact ⟨by linarith, by linarith⟩

/-- The bounds for which the integers are in the interval and all come up. -/
theorem intReaches_iff (h : start < stop) (hinside : InsideBounds start stop) (hlength : stop - start ≤ 2^53) :
    IntReaches start stop ↔ ReachedBounds start stop := by
  refine ⟨fun hreaches => ?_, intReaches_of_bounds⟩
  have hpairs : (start = -2 ∧ stop = -1) ∨ (start = -1 ∧ stop = 0) ∨ (start = -1 ∧ stop = 1) ∨
      (start = 1 ∧ stop = 2^53 + 1) → ReachedBounds start stop := fun hpairs =>
    Or.inr (by simpa only [List.mem_cons, Prod.mk.injEq, List.not_mem_nil, or_false] using hpairs)
  rcases hinside with rfl | ⟨hstop, hstart⟩
  · -- all values are the lower bound
    obtain ⟨k, hk, hvalue⟩ := hreaches hlength (-2) (by omega) (by omega)
    rw [int_eq_iff, truncate_minus_one h hk] at hvalue
    exact hpairs (Or.inl ⟨hvalue, rfl⟩)
  · rcases lt_trichotomy start 0 with hneg | rfl | hpos
    · -- the largest integer of the interval
      obtain ⟨k, hk, hvalue⟩ := hreaches hlength (stop - 1) (by omega) (by omega)
      rw [int_eq_iff] at hvalue
      rcases eq_or_lt_of_le hstop with rfl | hstop
      · have hzero : (start : ℚ) + output k * ((0 : ℤ) : ℚ) = start := by
          push_cast
          ring
        rw [hzero, Maths.truncate_intCast] at hvalue
        exact hpairs (Or.inr (Or.inl ⟨by omega, rfl⟩))
      · have hstopℚ : (0 : ℚ) < stop := by exact_mod_cast hstop
        have hbelow : (start : ℚ) + output k * stop < start + stop := by
          have := mul_lt_mul_of_pos_right (output_lt_one hk) hstopℚ
          linarith
        have hstartℚ : (start : ℚ) ≤ -1 := by exact_mod_cast (show start ≤ -1 by omega)
        rcases lt_or_ge ((start : ℚ) + output k * stop) 0 with hq | hq
        · obtain ⟨hlow, -⟩ := (truncate_of_neg hq _).mp hvalue
          push_cast at hlow
          have hone : (stop : ℚ) < 2 := by linarith
          have hone' : stop < 2 := by exact_mod_cast hone
          obtain rfl : stop = 1 := by omega
          have hminus : (-2 : ℚ) < start := by
            push_cast at hlow hbelow
            linarith
          have hminus' : -2 < start := by exact_mod_cast hminus
          exact hpairs (Or.inr (Or.inr (Or.inl ⟨by omega, rfl⟩)))
        · obtain ⟨hlow, -⟩ := (truncate_of_nonneg hq _).mp hvalue
          push_cast at hlow
          linarith
    · exact Or.inl rfl
    · have hone : start = 1 := by omega
      exact hpairs (Or.inr (Or.inr (Or.inr ⟨hone, by omega⟩)))

end

/-! ## The items of an array -/

/-- The item at an index that is there. -/
theorem choice_eq {α : Type} (null : α) {arr : List α} (hlength : arr.length < 2^61) {r : ℚ} {i : ℕ}
    (hi : i < arr.length) (hvalue : int r 0 arr.length = (i : ℤ)) : choice null r arr = .ok arr[i]? := by
  have hindex : (Int64.ofInt ⌊int r 0 arr.length⌋).toInt = i := by
    rw [hvalue, Int.floor_intCast]
    exact Int64.toInt_ofInt_of_le (by omega) (by omega)
  have hposition : ListOp.position arr (Int64.ofInt ⌊int r 0 arr.length⌋) = some i := by
    have hi' : (i : ℤ) < arr.length := by exact_mod_cast hi
    have hnonneg : ¬(i : ℤ) < 0 := by omega
    rw [ListOp.position, hindex]
    simp only [if_neg hnonneg]
    rw [if_pos ⟨by omega, hi'⟩, Int.toNat_natCast]
  have hitem : choice null r arr =
      (ListOp.atIndex arr (Int64.ofInt ⌊int r 0 arr.length⌋) fun i => (arr[i]?, arr)).1 := rfl
  rw [hitem, ListOp.atIndex, hposition]

/-- `choice` of an array that is not empty gives an item, and can give each. -/
theorem choice_spec {α : Type} (null : α) {arr : List α} (hne : arr ≠ []) (hlength : arr.length < 2^61) :
    (∀ k < 2^53, ∃ a ∈ arr, choice null (output k) arr = .ok (some a)) ∧
      (arr.length ≤ 2^53 → ∀ a ∈ arr, ∃ k < 2^53, choice null (output k) arr = .ok (some a)) := by
  have hpos : (0 : ℤ) < arr.length := by exact_mod_cast List.length_pos_iff.mpr hne
  have hinside := (intInside_iff hpos).mpr (Or.inr ⟨hpos.le, by rw [zero_mul]; exact hpos⟩)
  constructor
  · intro k hk
    obtain ⟨n, hn, hlow, hhigh⟩ := hinside k hk
    obtain ⟨i, rfl⟩ := Int.eq_ofNat_of_zero_le hlow
    have hi : i < arr.length := by exact_mod_cast hhigh
    have hvalue : int (output k) 0 arr.length = (i : ℤ) := by
      push_cast at hn
      exact_mod_cast hn
    refine ⟨arr[i], List.getElem_mem hi, ?_⟩
    rw [choice_eq null hlength hi hvalue, List.getElem?_eq_getElem hi]
  · intro hshort a ha
    obtain ⟨i, hi, rfl⟩ := List.mem_iff_getElem.mp ha
    have hlength' : (arr.length : ℤ) ≤ 2^53 := by exact_mod_cast hshort
    have hstop : (i : ℤ) < arr.length := by exact_mod_cast hi
    obtain ⟨k, hk, hvalue⟩ := reaches_zero hlength' (Int.natCast_nonneg i) hstop
    have hvalue' : int (output k) 0 arr.length = (i : ℤ) := by
      push_cast at hvalue
      exact_mod_cast hvalue
    exact ⟨k, hk, by rw [choice_eq null hlength hi hvalue', List.getElem?_eq_getElem hi]⟩

/-! ## The result -/

/-- On what the generator puts out, `range` stays in its interval, and `int` in its interval and reaches all of it, for
these bounds only; `choice` gives an item of every array and can give each. -/
theorem values_in_range_iff {α : Type} (r : Random) (start stop : ℚ) (first last : ℤ) (null : α) (arr : List α) :
    (∃ k < 2^53, (randomNextDouble r).1 = output k) ∧
    (start < stop → (RangeInside start stop ↔ 0 ≤ stop ∧ start * 2^53 < stop)) ∧
    (first < last → (IntInside first last ∧ IntReaches first last ↔
      InsideBounds first last ∧ (last - first ≤ 2^53 → ReachedBounds first last))) ∧
    (arr ≠ [] → arr.length < 2^61 →
      (∀ k < 2^53, ∃ a ∈ arr, choice null (output k) arr = .ok (some a)) ∧
        (arr.length ≤ 2^53 → ∀ a ∈ arr, ∃ k < 2^53, choice null (output k) arr = .ok (some a))) := by
  refine ⟨randomNextDouble_eq r, fun _ => rangeInside_iff, fun h => ?_, choice_spec null⟩
  rw [intInside_iff h]
  refine and_congr_right fun hinside => ?_
  by_cases hlength : last - first ≤ 2^53
  · rw [intReaches_iff h hinside hlength, imp_iff_right hlength]
  · exact iff_of_true (fun hshort => absurd hshort hlength) fun hshort => absurd hshort hlength

/-- `range(5, 10)` and `int(5, 10)` give 10 and more. -/
theorem not_forall_in_range : ¬((∀ start stop : ℚ, start < stop → RangeInside start stop) ∧
    ∀ start stop : ℤ, start < stop → IntInside start stop ∧ IntReaches start stop) := by
  rintro ⟨hrange, hint⟩
  have hhigh := (hrange 5 10 (by norm_num) (2^52) (by norm_num)).2
  norm_num [range, output] at hhigh

end Random

end Chloride
