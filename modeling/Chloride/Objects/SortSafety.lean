import Chloride.Logic.Loops
import Chloride.Objects.Quicksort

/-!
# The safety of the sort

`sort` for any comparator that leaves the array alone: it ends, keeps its accesses in the ranges that it
sorts and leaves a permutation of the items, if and only if no scan finds that even the last item of its
range is below the pivot (`sort_safe_iff`). A scan that does goes on behind the range.
-/

namespace Chloride

namespace Sorting

open Exceptional Shuffling

variable {Rest α : Type} {number : α → Option Number} {callback : Callee (ArrayWorld Rest α) α}

/-- An index that is no more than some number of items, as a size. -/
theorem toNat_index {i : ℕ} (hi : i < 2^61) : (UInt64.ofNat i).toNat = i :=
  UInt64.toNat_ofNat_of_lt' (by show i < 2^64; omega)

/-- The items of the array are copied. -/
theorem copyItems_spec {l : List α} {s : SortState (ArrayWorld Rest α) α}
    (h : Represents s.world.array l) :
    Triple (Eq s) (copyItems l.length) (fun _ t => t = { s with arr := l }) fun _ => False := by
  have hroom := h.room
  have hinside : s.world.array.Inside 0 l.length := by
    refine Or.inr ⟨le_rfl, ?_, ?_⟩
    · rw [h.size]
      omega
    · rw [h.block]
      omega
  obtain ⟨arr, hcopy, harr⟩ := Loop.foldlM_range
    (f := fun (arr : List α) i => do return arr ++ [← s.world.array.get (UInt64.ofNat i)])
    (P := fun k arr => arr = l.take k) (s := []) l.length rfl fun k hk arr harr => by
      refine ⟨arr ++ [l[k]], ?_, ?_⟩
      · rw [ArrayMethods.get_spec h (toNat_index (hk.trans h.bounded)) hk, List.getElem?_eq_getElem hk]
        rfl
      · rw [harr, List.take_append_getElem]
  rw [List.take_length] at harr
  refine Triple.get_bind fun t ht => ?_
  subst ht
  rw [if_pos hinside, hcopy, harr]
  rintro _ rfl
  rfl

/-- The copy is written over the first items of the array. -/
theorem writeBack_spec {l : List α} {s : SortState (ArrayWorld Rest α) α}
    (h : Represents s.world.array l) (hn : s.arr.length ≤ l.length) :
    Triple (Eq s) (writeBack s.arr.length)
      (fun _ t => ∃ array, t = { s with world := { s.world with array := array } } ∧
        Represents array (s.arr ++ l.drop s.arr.length)) fun _ => False := by
  have hroom := h.room
  have hlength : (s.arr ++ l.drop s.arr.length).length = l.length := by
    rw [List.length_append, List.length_drop]
    omega
  have hsize := h.size
  have hblock := h.block
  obtain ⟨r, hr, hrsize, hcapacity, hrlength, hget⟩ := DArray.memcpy_spec s.world.array 0 (s.arr.map some)
    (by rw [List.length_map]; omega) (by rw [List.length_map]; omega)
  have hr' : Represents r (s.arr ++ l.drop s.arr.length) := by
    refine ⟨by rw [hrsize, hsize, hlength], by rw [hrlength, hblock, hcapacity], ?_, fun j hj => ?_, ?_⟩
    · rw [hlength, hcapacity]
      exact hroom
    rotate_left
    · rw [hlength]
      exact h.bounded
    rw [hget, List.length_map]
    by_cases hcopied : j < s.arr.length
    · rw [if_pos (by omega), List.getElem?_append_left hcopied, Nat.sub_zero, List.getElem?_map,
        List.getElem?_eq_getElem hcopied]
      rfl
    · rw [if_neg (by omega), List.getElem?_append_right (by omega), List.getElem?_drop,
        h.items j (by omega)]
      congr 2
      omega
  obtain ⟨array, hwrite, harray⟩ := Loop.foldlM_range
    (f := fun (self : DArray α) i => do self.set (UInt64.ofNat i) (← s.arr[i]?))
    (P := fun _ self => Represents self (s.arr ++ l.drop s.arr.length)) (s := r) s.arr.length hr'
    fun k hk self hself => by
      have hk' : k < (s.arr ++ l.drop s.arr.length).length := by omega
      obtain ⟨t, ht, hset⟩ := ArrayMethods.represents_set hself (toNat_index (hk'.trans hself.bounded)) hk' s.arr[k]
      refine ⟨t, ?_, ?_⟩
      · rw [List.getElem?_eq_getElem hk, Option.bind_eq_bind, Option.bind_some, ht]
      · have hsame : (s.arr ++ l.drop s.arr.length).set k s.arr[k] = s.arr ++ l.drop s.arr.length := by
          rw [List.set_append_left _ _ hk, List.set_getElem_self]
        rwa [hsame] at hset
  rw [Nat.cast_zero] at hr
  refine Triple.get_bind fun t ht => ?_
  subst ht
  rw [hr]
  refine Triple.bind (R := fun self t => self = r ∧ t = s) (fun t ht => ⟨rfl, ht.symm⟩) fun self => ?_
  refine Triple.of_fact fun hself => ?_
  rw [hself, hwrite]
  rintro t rfl
  exact ⟨array, rfl, harray⟩

/-- What does not speak of the array is kept. -/
theorem writeBack_keeps {J : SortState (ArrayWorld Rest α) α → Prop} {n : ℕ}
    (h : ∀ s array, J s → J { s with world := { s.world with array := array } }) :
    Keeps J (writeBack n) := by
  refine Triple.get_bind fun s hs => ?_
  refine Triple.bind (R := fun _ => Eq s) ?_ fun self => Triple.bind (R := fun _ => Eq s) ?_ fun self' => ?_
  · exact Triple.getM (fun _ _ _ ht => ht) fun _ t ht => ht ▸ hs
  · exact Triple.getM (fun _ _ _ ht => ht) fun _ t ht => ht ▸ hs
  · exact fun t ht => h s self' hs

/-- How a call of `sort` ends that keeps to the ranges: with an error and the array as it was, or with its
items in order. -/
structure Finished (le : α → α → Prop) (l : List α) (w : ArrayWorld Rest α)
    (s : SortState (ArrayWorld Rest α) α) : Prop where
  clean : Clean s
  unchanged : s.err ≠ none → s.world.array = w.array
  sorted : s.err = none → ∃ b, Represents s.world.array b ∧ b.Perm l ∧ b.Pairwise le

variable {elem : α → Prop} {le : α → α → Prop} {I : SortState (ArrayWorld Rest α) α → Prop}

/-- What a call of `sort` does, if the items are sorted and the array is not touched meanwhile. -/
theorem sort_upto (hg : Guided number callback elem le I) {w : ArrayWorld Rest α} {l : List α}
    (h : Represents w.array l) (hstart : I { start w with arr := l })
    (harray : ∀ s, I s → s.world.array = w.array) (more : ℕ) :
    Upto Overran (Eq (start w)) (sort number callback more) (fun _ => Finished le l w) := by
  have hsize := h.size
  have hclean : Clean (start w) := ⟨fun a ha => (nomatch ha), fun d hd => (nomatch hd)⟩
  refine Triple.get_bind fun s hs => ?_
  subst hs
  refine Upto.ite (fun hfew => Upto.pure fun s hs => ?_) fun hmany => ?_
  · subst hs
    refine ⟨hclean, fun _ => rfl, fun _ => ⟨l, h, List.Perm.refl l, ?_⟩⟩
    rw [UInt64.le_iff_toNat_le] at hfew
    have hshort : l.length ≤ 1 := hsize ▸ hfew
    exact List.pairwise_iff_getElem.mpr fun i j hi hj hij => by omega
  have hlong : 1 < l.length := by
    rw [UInt64.not_le, UInt64.lt_iff_toNat_lt] at hmany
    exact hsize ▸ hmany
  have hn : (start w).world.array.size.toNat = l.length := hsize
  rw [hn]
  refine Triple.bind ((copyItems_spec (s := start w) h).conseq (fun _ h => h) (fun _ _ h => h) fun _ h => h.elim)
    fun _ => ?_
  have hqsort := qsort_spec hg (l.length + more) l 0 (l.length - 1) (Nat.zero_le _) (by omega) (by omega)
  refine Upto.bind (hqsort.conseq (fun s hs => ⟨hs ▸ rfl, hs ▸ hstart, hs ▸ ⟨hclean.accesses, hclean.comparisons⟩⟩) fun _ _ h => h)
    (fun _ => ?_) fun _ => ?_
  · exact Kept.isError_bind fun e => Keeps.ite (Keeps.pure _) (writeBack_keeps fun s array hs =>
      ⟨hs.comparison, hs.access, hs.itself⟩)
  refine isError_bind fun e => Upto.ite (fun hraised => Upto.pure fun s hs => ?_) fun hcalm => ?_
  · obtain ⟨⟨b, hb, -, -⟩, he⟩ := hs
    refine ⟨hb.clean, fun _ => harray s hb.inv, fun hnone => ?_⟩
    rw [hraised, hnone] at he
    cases he
  · refine Triple.of_state fun s hs => ?_
    obtain ⟨⟨b, hb, hshuffle, hordered⟩, he⟩ := hs
    rw [Nat.sub_add_cancel (by omega)] at hshuffle hordered
    have hlength := hshuffle.length
    have harr := hb.arr
    have hrep : Represents s.world.array l := (harray s hb.inv).symm ▸ h
    have hwrite := writeBack_spec (s := s) hrep (by rw [harr]; omega)
    rw [harr, hlength, List.drop_length, List.append_nil] at hwrite
    refine hwrite.conseq (fun _ h => h) ?_ fun _ h => h.elim
    rintro _ t ⟨array, rfl, hsorted⟩
    refine Or.inr ⟨⟨hb.clean.accesses, hb.clean.comparisons⟩, fun herr => ?_, fun _ => ?_⟩
    · have hsome : s.err.isSome := Option.isSome_iff_ne_none.mpr herr
      exact absurd (he.symm.trans hsome) hcalm
    · rw [← hlength] at hordered
      exact ⟨b, hsorted, hshuffle.perm, hordered.pairwise⟩

/-- A comparator that leaves the array alone. -/
def LeavesArray (callback : Callback Rest α) : Prop :=
  ∀ w err args, (callback.call w err args).world.array = w.array

theorem array_kept {callback : Callback Rest α} (h : LeavesArray callback) (array : DArray α) :
    Kept number callback.call (fun _ => True) (fun s => s.world.array = array) where
  access _ _ hs := hs
  elem_of_mem _ _ _ _ := trivial
  write _ _ _ hs _ := hs
  compare site a b _ _ := by
    refine Triple.of_state fun s hs => (compare_spec site a b s).conseq (fun _ h => h) ?_ fun _ h => h.elim
    rintro z t ⟨result, rfl, -, rfl⟩
    exact (h _ _ _).trans hs

/-- Every comparator respects the order that relates everything. -/
theorem guided_any {callback : Callee (ArrayWorld Rest α) α} {elem : α → Prop}
    {I : SortState (ArrayWorld Rest α) α → Prop} (h : Kept number callback elem I) :
    Guided number callback elem (fun _ _ => True) I where
  kept := h
  judged site a b _ _ s _ := by
    rcases (compare number callback site a b).run.run s with ⟨_ | z, t⟩
    · exact trivial
    · exact ⟨fun _ => trivial, fun _ => trivial⟩
  refl _ _ := trivial
  trans _ _ _ _ _ := trivial
  raised _ _ _ _ _ := trivial
  itself _ _ _ _ _ := trivial

/-- What is asked of a call of `sort`: every access is in the range that is being sorted, the call returns,
and the array holds the items in some order. -/
structure Safe (items : List α) (r : Option Unit × SortState (ArrayWorld Rest α) α) : Prop where
  inside : ∀ a ∈ r.2.accesses, a.Inside
  returns : r.1 = some ()
  permutes : ∃ l, Represents r.2.world.array l ∧ l.Perm items

/-- `sort` is safe with a comparator that leaves the array alone if and only if no scan for an item that is
not below the pivot is told that the last item of its range is below it. -/
theorem sort_safe_iff (number : α → Option Number) (callback : {c : Callback Rest α // LeavesArray c})
    (w : HeldArray Rest α) (more : ℕ) :
    Safe w.items (result number callback.1 more w.toArrayWorld) ↔
      ∀ c ∈ (result number callback.1 more w.toArrayWorld).2.comparisons, ¬c.Overruns := by
  have hg : Guided number callback.1.call (fun _ => True) (fun _ _ => True) (fun s => s.world.array = w.array) :=
    guided_any (array_kept callback.2 w.array)
  have hupto : Ends _ _ (result number callback.1 more w.toArrayWorld) :=
    sort_upto hg w.represents rfl (fun _ hs => hs) more _ rfl
  generalize result number callback.1 more w.toArrayWorld = r at hupto ⊢
  rcases r with ⟨_ | _, t⟩
  case none =>
    constructor
    case mp => exact fun h => nomatch h.returns
    case mpr =>
      intro h
      obtain ⟨d, hd, hover⟩ := hupto.comparison
      exact absurd hover (h d hd)
  case some =>
    rcases hupto with hover | hfinished
    · obtain ⟨d, hd, hoverruns⟩ := hover.comparison
      obtain ⟨x, hx, hout⟩ := hover.access
      exact ⟨fun h => absurd (h.inside x hx) hout, fun h => absurd hoverruns (h d hd)⟩
    · refine ⟨fun _ => hfinished.clean.comparisons, fun _ => ⟨hfinished.clean.accesses, rfl, ?_⟩⟩
      by_cases herr : t.err = none
      · obtain ⟨b, hb, hperm, -⟩ := hfinished.sorted herr
        exact ⟨b, hb, hperm⟩
      · exact ⟨w.items, hfinished.unchanged herr ▸ w.represents, List.Perm.refl _⟩

/-- The comparator `(a, b) => -1`. -/
def alwaysBelow : Callback Unit Int64 where
  call w err _ := ⟨-1, err, w⟩
  wellFormed _ _ _ h := h

/-- An array of seventeen zeros, in a block for 32 items. -/
def seventeenZeros : HeldArray Unit Int64 where
  array := ⟨List.replicate 17 (some 0) ++ List.replicate 15 none, 17, 32⟩
  block := 0
  rest := ()
  items := List.replicate 17 0
  represents := ⟨by decide, by decide, by decide, by decide, by decide⟩

/-- The scan reads behind seventeen items if each is below the pivot. -/
theorem not_forall_safe : ¬∀ (callback : Callback Unit Int64) (w : HeldArray Unit Int64),
    LeavesArray callback →
      Safe w.items (result (fun n => some (.i64 n)) callback 0 w.toArrayWorld) := by
  intro h
  have hsafe := h alwaysBelow seventeenZeros fun _ _ _ => rfl
  have hout : (result (fun n => some (.i64 n)) alwaysBelow 0
      seventeenZeros.toArrayWorld).2.accesses.head? = some ⟨0, 16, 17⟩ := by decide +kernel
  have hinside := hsafe.inside ⟨0, 16, 17⟩ (List.mem_of_mem_head? hout)
  exact absurd hinside.2 (by decide)

end Sorting

end Chloride
