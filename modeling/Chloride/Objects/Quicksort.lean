import Chloride.Objects.SortingRules

/-!
# What the sort does to the items

The sort of a range, for any comparator whose answers respect an order: it ends, all its accesses are in the
range, it exchanges items of the range until they are in order. The exception is a scan for an item that is
not below the pivot when the comparator finds none, not even the pivot: then the scan leaves the range
(`Overran`). An order that relates everything is respected by every comparator.
-/

namespace Chloride

namespace Sorting

open Exceptional Shuffling

variable {World α : Type} {number : α → Option Number} {callback : Callee World α}

/-- The last item of the range is said to be below the pivot, and the scan goes on behind it. -/
def Comparison.Overruns (c : Comparison α) : Prop := ∃ hi, c.site = .forward hi hi ∧ c.answer < 0

/-- An access in the range that is being sorted. -/
def Access.Inside (a : Access) : Prop := a.lo ≤ a.index ∧ a.index ≤ a.hi

/-- All accesses were in their ranges, and no scan is about to leave its range. -/
structure Clean (s : SortState World α) : Prop where
  accesses : ∀ a ∈ s.accesses, a.Inside
  comparisons : ∀ c ∈ s.comparisons, ¬c.Overruns

/-- An item was said to be below itself. -/
def BelowItself (s : SortState World α) : Prop := ∃ c ∈ s.comparisons, c.first = c.second ∧ c.answer < 0

/-- A scan has left its range. -/
structure Overran (s : SortState World α) : Prop where
  comparison : ∃ c ∈ s.comparisons, c.Overruns
  access : ∃ a ∈ s.accesses, ¬a.Inside
  itself : BelowItself s

/-- A comparator that respects an order while a property of states holds, which the sort keeps. What an
error makes of the order is left open, as is what an item does that is below itself. -/
structure Guided (number : α → Option Number) (callback : Callee World α) (elem : α → Prop)
    (le : α → α → Prop) (I : SortState World α → Prop) : Prop where
  kept : Kept number callback elem I
  judged : ∀ site a b, elem a → elem b → Triple I (compare number callback site a b)
    (fun z _ => (z ≤ 0 → le a b) ∧ (0 ≤ z → le b a)) fun _ => True
  refl : ∀ a, elem a → le a a
  trans : ∀ a b c, le a b → le b c → le a c
  raised : ∀ s, I s → s.err.isSome → ∀ a b, le a b
  itself : ∀ s, I s → BelowItself s → ∀ a b, le a b

/-- The items are those of `a`, and all is well. -/
structure At (I : SortState World α → Prop) (a : List α) (s : SortState World α) : Prop where
  arr : s.arr = a
  inv : I s
  clean : Clean s

/-- What is known after a comparison in a clean state. -/
structure Compared (I : SortState World α → Prop) (a : List α) (site : Site) (x y : α) (answer : ℤ)
    (s : SortState World α) : Prop where
  arr : s.arr = a
  inv : I s
  accesses : ∀ a ∈ s.accesses, a.Inside
  calm : answer ≠ 0 → s.err = none
  made : ∃ pending raised earlier, s.comparisons = ⟨site, x, y, pending, raised, answer⟩ :: earlier ∧
    ∀ c ∈ earlier, ¬c.Overruns

/-- A scan goes on only if the item is below the other one. -/
theorem not_below {I : SortState World α → Prop} {a : List α} {site : Site} {x y : α} {answer : ℤ}
    {s : SortState World α} (h : Compared I a site x y answer s) {e : Bool} (he : s.err.isSome = e)
    (hstop : ¬(answer < 0 ∧ !e)) : 0 ≤ answer := by
  by_contra hneg
  have hnone : s.err = none := h.calm (by omega)
  rw [hnone] at he
  exact hstop ⟨by omega, by rw [← he]; rfl⟩

theorem Compared.clean {I : SortState World α → Prop} {a : List α} {site : Site} {x y : α} {answer : ℤ}
    {s : SortState World α} (h : Compared I a site x y answer s)
    (hsite : ∀ k, site = .forward k k → 0 ≤ answer) : At I a s := by
  obtain ⟨pending, raised, earlier, hmade, hearlier⟩ := h.made
  refine ⟨h.arr, h.inv, h.accesses, fun c hc => ?_⟩
  rw [hmade] at hc
  rcases List.mem_cons.mp hc with rfl | hc
  · rintro ⟨k, hk, hneg⟩
    have hpos := hsite k hk
    exact absurd hneg (not_lt.mpr hpos)
  · exact hearlier c hc

/-! ## The steps -/

/-- An answer other than 0 means that no error is pending. -/
theorem verdict_calm (result : Reply World α) :
    (verdict number result).1 ≠ 0 → (verdict number result).2 = none := by
  unfold verdict
  split
  case isTrue => exact fun h => absurd rfl h
  case isFalse =>
    split
    case h_1 => exact fun _ => rfl
    case h_2 =>
      split
      case h_1 => exact fun _ => rfl
      case h_2 => exact fun h => absurd rfl h

/-- What a comparison does. -/
theorem compare_spec (site : Site) (a b : α) (s : SortState World α) :
    Triple (Eq s) (compare number callback site a b)
      (fun z t => ∃ result : Reply World α, result = callback s.world s.err [a, b] ∧
        z = (verdict number result).1 ∧ t = { s with
          world := result.world
          err := (verdict number result).2
          comparisons := ⟨site, a, b, s.err, (verdict number result).2, z⟩ :: s.comparisons })
      fun _ => False := by
  rintro _ rfl
  exact ⟨_, rfl, rfl, rfl⟩

/-- What more accesses and comparisons do not undo, the sort keeps. -/
theorem Kept.of_grows {I : SortState World α → Prop}
    (h : ∀ s t, s.accesses ⊆ t.accesses → s.comparisons ⊆ t.comparisons → I s → I t) :
    Kept number callback (fun _ => True) I where
  access s a hs := h s _ (List.subset_cons_of_subset a (List.Subset.refl _)) (List.Subset.refl _) hs
  elem_of_mem _ _ _ _ := trivial
  write s i x hs _ := h s _ (List.Subset.refl _) (List.Subset.refl _) hs
  compare site a b _ _ := by
    refine Triple.of_state fun s hs => (compare_spec site a b s).conseq (fun _ h => h) ?_ fun _ h => h.elim
    rintro z t ⟨result, -, -, rfl⟩
    exact h s _ (List.Subset.refl _) (List.subset_cons_of_subset _ (List.Subset.refl _)) hs

theorem Kept.and {elem : α → Prop} {I J : SortState World α → Prop} (hI : Kept number callback elem I)
    (hJ : Kept number callback (fun _ => True) J) :
    Kept number callback elem (fun s => I s ∧ J s) where
  access s a hs := ⟨hI.access s a hs.1, hJ.access s a hs.2⟩
  elem_of_mem s hs := hI.elem_of_mem s hs.1
  write s i x hs hx := ⟨hI.write s i x hs.1 hx, hJ.write s i x hs.2 trivial⟩
  compare site a b ha hb s hs := by
    have hcI := hI.compare site a b ha hb s hs.1
    have hcJ := hJ.compare site a b trivial trivial s hs.2
    rcases hend : (Sorting.compare number callback site a b).run.run s with ⟨_ | z, u⟩
    all_goals
      rw [hend] at hcI hcJ
      exact ⟨hcI, hcJ⟩

theorem belowItself_kept : Kept number callback (fun _ => True) BelowItself :=
  Kept.of_grows fun _ _ _ hcomparisons ⟨c, hc, h⟩ => ⟨c, hcomparisons hc, h⟩

/-- Nothing that the sort does undoes an overrun. -/
theorem overran_kept : Kept number callback (fun _ => True) Overran := by
  refine Kept.of_grows fun s t haccesses hcomparisons h => ?_
  obtain ⟨c, hc, hover⟩ := h.comparison
  obtain ⟨x, hx, hout⟩ := h.access
  obtain ⟨d, hd, hbelow⟩ := h.itself
  exact ⟨⟨c, hcomparisons hc, hover⟩, ⟨x, haccesses hx, hout⟩, ⟨d, hcomparisons hd, hbelow⟩⟩

/-- Once an item was said to be below itself, everything is related. -/
theorem Guided.below {elem : α → Prop} {le : α → α → Prop} {I : SortState World α → Prop}
    (hg : Guided number callback elem le I) :
    Guided number callback elem le (fun s => I s ∧ BelowItself s) where
  kept := hg.kept.and belowItself_kept
  judged site a b ha hb := (hg.judged site a b ha hb).conseq (fun _ h => h.1) (fun _ _ h => h) fun _ h => h
  refl := hg.refl
  trans := hg.trans
  raised s hs := hg.raised s hs.1
  itself s hs := hg.itself s hs.1

section Steps

variable {elem : α → Prop} {le : α → α → Prop} {I : SortState World α → Prop} {a : List α} {β : Type}
  {Q : β → SortState World α → Prop}

/-- What the items are is known while the program runs. -/
theorem of_elem (hg : Guided number callback elem le I) {m : SortM World α β}
    (h : (∀ x ∈ a, elem x) → Upto Overran (At I a) m Q) : Upto Overran (At I a) m Q := by
  intro s hs
  have hall : ∀ x ∈ a, elem x := hs.arr ▸ hg.kept.elem_of_mem s hs.inv
  exact h hall s hs

/-- An access in the range. -/
theorem At.access {s : SortState World α} (hg : Guided number callback elem le I) (h : At I a s)
    {lo hi i : ℕ} (hlo : lo ≤ i) (hhi : i ≤ hi) :
    At I a { s with accesses := ⟨lo, hi, i⟩ :: s.accesses } := by
  refine ⟨h.arr, hg.kept.access s _ h.inv, fun b hb => ?_, h.clean.comparisons⟩
  rcases List.mem_cons.mp hb with rfl | hb
  · exact ⟨hlo, hhi⟩
  · exact h.clean.accesses b hb

theorem load_bind (hg : Guided number callback elem le I) {lo hi i : ℕ} {x : α} (hlo : lo ≤ i)
    (hhi : i ≤ hi) (hx : a[i]? = some x) {f : α → SortM World α β}
    (hf : elem x → Upto Overran (At I a) (f x) Q) : Upto Overran (At I a) (load lo hi i >>= f) Q := by
  refine of_elem hg fun hall => ?_
  have helem : elem x := hall x (List.mem_of_getElem? hx)
  have hload : Triple (At I a) (load lo hi i) (fun y s => y = x ∧ At I a s) Overran := by
    refine Triple.modify_bind (fun s hs => hs.access hg hlo hhi) (Triple.get_bind fun s hs => ?_)
    rw [hs.arr, hx]
    exact fun t ht => ⟨rfl, ht ▸ hs⟩
  refine Triple.bind hload fun y => Triple.of_fact fun hy => ?_
  rw [hy]
  exact hf helem

theorem store_bind (hg : Guided number callback elem le I) {lo hi i : ℕ} {x : α} (hlo : lo ≤ i)
    (hhi : i ≤ hi) (hlt : i < a.length) (hx : elem x) {f : Unit → SortM World α β}
    (hf : Upto Overran (At I (a.set i x)) (f ()) Q) :
    Upto Overran (At I a) (store lo hi i x >>= f) Q := by
  have hstore : Triple (At I a) (store lo hi i x) (fun _ => At I (a.set i x)) Overran := by
    refine Triple.modify_bind (fun s hs => hs.access hg hlo hhi) (Triple.get_bind fun s hs => ?_)
    rw [if_pos (by rw [hs.arr]; exact hlt)]
    refine fun t ht => ⟨?_, hg.kept.write s i x hs.inv hx, hs.clean.accesses, hs.clean.comparisons⟩
    show s.arr.set i x = a.set i x
    rw [hs.arr]
  exact Triple.bind hstore fun _ => hf

theorem swap_bind (hg : Guided number callback elem le I) {lo hi i j : ℕ} {x y : α} (hi₀ : lo ≤ i ∧ i ≤ hi)
    (hj₀ : lo ≤ j ∧ j ≤ hi) (hx : a[i]? = some x) (hy : a[j]? = some y) {f : Unit → SortM World α β}
    (hf : Upto Overran (At I ((a.set i y).set j x)) (f ()) Q) :
    Upto Overran (At I a) (swap lo hi i j >>= f) Q := by
  have hlt := (List.getElem?_eq_some_iff.mp hx).1
  have hlt' := (List.getElem?_eq_some_iff.mp hy).1
  unfold swap
  rw [bind_assoc]
  refine load_bind hg hi₀.1 hi₀.2 hx fun hex => ?_
  rw [bind_assoc]
  refine load_bind hg hj₀.1 hj₀.2 hy fun hey => ?_
  rw [bind_assoc]
  refine store_bind hg hi₀.1 hi₀.2 hlt hey ?_
  exact store_bind hg hj₀.1 hj₀.2 (by rw [List.length_set]; exact hlt') hex hf

theorem isError_bind {P : SortState World α → Prop} {f : Bool → SortM World α β}
    (hf : ∀ e, Upto Overran (fun s => P s ∧ s.err.isSome = e) (f e) Q) :
    Upto Overran P (isError >>= f) Q :=
  Triple.bind (R := fun e s => P s ∧ s.err.isSome = e) (fun _ hs => ⟨hs, rfl⟩) hf

/-- A comparison that is made in a clean state. -/
theorem compare_run (hg : Guided number callback elem le I) (site : Site) {x y : α} (hx : elem x)
    (hy : elem y) :
    Triple (At I a) (compare number callback site x y)
      (fun z s => ((z ≤ 0 → le x y) ∧ (0 ≤ z → le y x)) ∧ Compared I a site x y z s) Overran := by
  refine Triple.of_state fun s hs t ht => ?_
  have hspec := @compare_spec World α number callback site x y s t ht
  have hkept := hg.kept.compare site x y hx hy t (ht ▸ hs.inv)
  have hjudged := hg.judged site x y hx hy t (ht ▸ hs.inv)
  rcases hend : (compare number callback site x y).run.run t with ⟨_ | z, u⟩
  all_goals rw [hend] at hspec hkept hjudged
  case none => exact hspec.elim
  case some =>
    obtain ⟨result, -, rfl, rfl⟩ := hspec
    exact ⟨hjudged, hs.arr, hkept, hs.clean.accesses, verdict_calm result,
      ⟨_, _, _, rfl, hs.clean.comparisons⟩⟩

/-- A comparison, other than the one that leads out of the range. -/
theorem compare_bind (hg : Guided number callback elem le I) {site : Site} {x y : α}
    (hsite : ∀ k, site ≠ .forward k k) (hx : elem x) (hy : elem y) {f : ℤ → SortM World α β}
    (hf : ∀ z, (z ≤ 0 → le x y) → (0 ≤ z → le y x) →
      Upto Overran (fun s => At I a s ∧ Compared I a site x y z s) (f z) Q) :
    Upto Overran (At I a) (compare number callback site x y >>= f) Q := by
  refine Triple.bind (compare_run hg site hx hy) fun z => Triple.of_fact fun hz => ?_
  refine (hf z hz.1 hz.2).conseq (fun s hs => ⟨hs.clean fun k hk => absurd hk (hsite k), hs⟩) fun _ _ h => h

/-! ## The scans -/

/-- The read that leaves the range. -/
theorem load_overrun {P : SortState World α → Prop} {lo hi i : ℕ}
    (h : ∀ s, P s → Overran { s with accesses := ⟨lo, hi, i⟩ :: s.accesses }) {f : α → SortM World α β}
    (hf : ∀ x, Keeps Overran (f x)) : Upto Overran P (load lo hi i >>= f) Q := by
  have hload : Triple P (load lo hi i) (fun _ => Overran) Overran := by
    refine Triple.modify_bind h (Triple.get_bind fun s hs => ?_)
    exact Triple.getM (fun x _ t ht => ht ▸ hs) fun _ t ht => ht ▸ hs
  exact Triple.bind hload fun x => (hf x).conseq (fun _ h => h) (fun _ _ h => Or.inl h) fun _ h => h

/-- The scan at the last item of the range, once it has passed the pivot. -/
theorem scanForward_last (hg : Guided number callback elem le I) (hbelow : ∀ s, I s → BelowItself s)
    {lo last fuel : ℕ} {pivot : α} (hlo : lo ≤ last) (hlt : last + 1 < a.length) (hpivot : elem pivot) :
    Upto Overran (At I a) (scanForward number callback lo (last + 1) pivot (fuel + 2) last)
      (fun i s => At I a s ∧ i = last + 1) := by
  refine load_bind hg (by omega) le_rfl (List.getElem?_eq_getElem hlt) fun hx => ?_
  refine Triple.bind (compare_run hg _ hx hpivot) fun z => Triple.of_fact fun _ => ?_
  refine isError_bind fun e => Upto.ite (fun hgo => ?_) fun hstop => ?_
  · -- The next item is read, whatever it is, from behind the range.
    refine load_overrun (fun s hs => ?_) fun x => ?_
    · obtain ⟨hcompared, -⟩ := hs
      obtain ⟨pending, raised, earlier, hlast, -⟩ := hcompared.made
      refine ⟨?_, ⟨_, List.mem_cons_self, ?_⟩, hbelow s hcompared.inv⟩
      · exact ⟨_, hlast ▸ List.mem_cons_self, last + 1, rfl, hgo.1⟩
      · intro hinside
        have hle : last + 1 + 1 ≤ last + 1 := hinside.2
        omega
    · refine Keeps.bind (overran_kept.compare _ _ _ trivial trivial) fun _ => Kept.isError_bind fun _ => ?_
      exact Keeps.ite (overran_kept.scanForward _ _ trivial fuel _) (Keeps.pure _)
  · refine Upto.pure fun s hs => ⟨hs.1.clean fun k _ => ?_, rfl⟩
    exact not_below hs.1 hs.2 hstop

/-- The scan for an item that is not below the pivot. It stops at the pivot, unless that is said to be below
itself. -/
theorem scanForward_spec (hg : Guided number callback elem le I) {lo last : ℕ} {pivot : α}
    (hlt : last + 1 < a.length) (hat : a[last]? = some pivot) (hpivot : elem pivot) (fuel : ℕ) :
    ∀ i, lo ≤ i → i < last → last + 2 ≤ fuel + i → Upto Overran (At I a)
      (scanForward number callback lo (last + 1) pivot fuel i)
      (fun k s => At I a s ∧ i < k ∧ k ≤ last + 1 ∧ (k = last + 1 → BelowItself s) ∧
        Among (le · pivot) (i + 1) k a ∧ Among (le pivot ·) k (k + 1) a) := by
  induction fuel with
  | zero => exact fun i _ hi hfuel => by omega
  | succ fuel ih =>
    intro i hlo hi hfuel
    obtain ⟨x, hx⟩ : ∃ x, a[i + 1]? = some x := ⟨_, List.getElem?_eq_getElem (by omega)⟩
    refine load_bind hg (by omega) (by omega) hx fun hex => ?_
    refine compare_bind hg (fun k hk => ?_) hex hpivot fun z hle hge => ?_
    · cases hk
      omega
    refine isError_bind fun e => Upto.ite (fun hgo => ?_) fun hstop => ?_
    · have hbelow : Among (le · pivot) (i + 1) (i + 2) a := Among.single hx (hle (by omega))
      by_cases hnext : i + 1 < last
      · refine (ih (i + 1) (by omega) hnext (by omega)).conseq (fun s hs => hs.1.1) ?_
        rintro k s ⟨hs, hik, hk, hself, hleft, hright⟩
        exact ⟨hs, by omega, hk, hself, hbelow.append hleft, hright⟩
      · -- The pivot itself was said to be below the pivot.
        obtain rfl : i + 1 = last := by omega
        obtain rfl : x = pivot := Option.some_inj.mp (hx.symm.trans hat)
        obtain ⟨fuel, rfl⟩ : ∃ m, fuel = m + 2 := ⟨fuel - 2, by omega⟩
        refine (scanForward_last hg.below (fun s hs => hs.2) (by omega) hlt hpivot).conseq ?_ ?_
        · rintro s ⟨⟨hs, hcompared⟩, -⟩
          obtain ⟨pending, raised, earlier, hmade, -⟩ := hcompared.made
          exact ⟨hs.arr, ⟨hs.inv, _, hmade ▸ List.mem_cons_self, rfl, hgo.1⟩, hs.clean⟩
        · rintro k s ⟨hs, rfl⟩
          have hall := hg.itself s hs.inv.1 hs.inv.2
          exact ⟨⟨hs.arr, hs.inv.1, hs.clean⟩, by omega, le_rfl, fun _ => hs.inv.2, fun _ _ _ _ _ => hall _ _,
            fun _ _ _ _ _ => hall _ _⟩
    · refine Upto.pure fun s hs => ⟨hs.1.1, by omega, by omega, fun h => by omega, ?_, ?_⟩
      · intro k y hk hk'
        omega
      · exact Among.single hx (hge (not_below hs.1.2 hs.2 hstop))

/-- The scan for an item that is not above the pivot, which ends at the start of the range. -/
theorem scanBackward_spec (hg : Guided number callback elem le I) {lo hi : ℕ} {pivot : α}
    (hlt : hi < a.length) (hpivot : elem pivot) (j : ℕ) : lo ≤ j → j ≤ hi → Upto Overran (At I a)
      (scanBackward number callback lo hi pivot j)
      (fun k s => At I a s ∧ lo ≤ k ∧ k ≤ j ∧ (lo < j → k < j) ∧ Among (le pivot ·) (k + 1) j a ∧
        (lo < k → Among (le · pivot) k (k + 1) a)) := by
  induction j with
  | zero =>
    refine fun hlo _ => Upto.pure fun s hs => ⟨hs, hlo, le_rfl, fun h => by omega, ?_, fun h => by omega⟩
    exact fun k y _ hk => by omega
  | succ j ih =>
    refine fun hlo hhi => Upto.ite (fun hmore => ?_) fun hend => ?_
    · obtain ⟨x, hx⟩ : ∃ x, a[j]? = some x := ⟨_, List.getElem?_eq_getElem (by omega)⟩
      refine load_bind hg (by omega) (by omega) hx fun hex => ?_
      refine compare_bind hg (fun k hk => by cases hk) hpivot hex fun z hle hge => ?_
      refine isError_bind fun e => Upto.ite (fun hgo => ?_) fun hstop => ?_
      · have habove : Among (le pivot ·) j (j + 1) a := Among.single hx (hle (by omega))
        refine (ih (by omega) (by omega)).conseq (fun s hs => hs.1.1) ?_
        rintro k s ⟨hs, hlok, hk, -, hright, hleft⟩
        refine ⟨hs, hlok, by omega, fun _ => by omega, ?_, hleft⟩
        by_cases hkj : k = j
        · subst hkj
          exact fun i y hi hi' => by omega
        · exact Among.append hright habove
      · refine Upto.pure fun s hs => ⟨hs.1.1, by omega, by omega, fun _ => by omega, ?_, fun _ => ?_⟩
        · exact fun i y hi hi' => by omega
        · exact Among.single hx (hge (not_below hs.1.2 hs.2 hstop))
    · refine Upto.pure fun s hs => ⟨hs, by omega, le_rfl, fun h => by omega, ?_, fun h => by omega⟩
      exact fun i y hi hi' => by omega

/-- The items `b` after the rounds of the two scans on `a`: they are parted at `k`, with the pivot next to
the last one. -/
structure Parted (le : α → α → Prop) (lo last : ℕ) (pivot : α) (a : List α) (k : ℕ) (b : List α) :
    Prop where
  shuffle : Shuffle lo (last + 2) a b
  atLast : b[last]? = some pivot
  lower : lo < k
  upper : k ≤ last + 1
  below : Among (le · pivot) lo k b
  above : Among (le pivot ·) k (last + 2) b

/-- The rest of a round of the two scans, after the first one has ended at `k`. The items there and at the
end of the second one are exchanged, and the next round starts, unless the scans have met. -/
theorem partition_rest {J : SortState World α → Prop} (hg : Guided number callback elem le J)
    (hJ : ∀ s, J s → I s) {lo last i j k : ℕ} (hself : k = last + 1 → ∀ s, J s → BelowItself s) {pivot : α}
    (hpivot : elem pivot) (hlt : last + 1 < a.length) (hat : a[last]? = some pivot) (hlo : lo ≤ i)
    (hij : i < j) (hj : j ≤ last) (hik : i < k) (hk : k ≤ last + 1) (hbelow : Among (le · pivot) lo (i + 1) a)
    (habove : Among (le pivot ·) j (last + 2) a) (hleft : Among (le · pivot) (i + 1) k a)
    (hright : Among (le pivot ·) k (k + 1) a) {next : ℕ → SortM World α ℕ}
    (hkeeps : ∀ m, Keeps Overran (next m))
    (hnext : ∀ b m, b.length = a.length → b[last]? = some pivot → k < m → m ≤ last →
      Among (le · pivot) lo (k + 1) b → Among (le pivot ·) m (last + 2) b → Upto Overran (At I b) (next m)
        (fun k s => ∃ c, At I c s ∧ Parted le lo last pivot b k c ∧ (k = last + 1 → BelowItself s))) :
    Upto Overran (At J a) (do
      let m ← scanBackward number callback lo (last + 1) pivot j
      let raised ← isError
      if raised ∨ k ≥ m then return k
      else
        swap lo (last + 1) k m
        next m)
      (fun k s => ∃ c, At I c s ∧ Parted le lo last pivot a k c ∧ (k = last + 1 → BelowItself s)) := by
  have hbelow' : Among (le · pivot) lo k a := hbelow.append hleft
  refine Upto.bind (scanBackward_spec hg hlt hpivot j (by omega) (by omega)) (fun m => ?_) fun m => ?_
  · refine Kept.isError_bind fun e => Keeps.ite (Keeps.pure _) ?_
    have hover : Kept number callback (fun _ => True) Overran := overran_kept
    exact Keeps.bind (hover.swap lo _ k m) fun _ => hkeeps m
  refine isError_bind fun e => Upto.ite (fun hend => ?_) fun hmore => ?_
  · refine Upto.pure fun s hs => ?_
    obtain ⟨⟨hs, -, hmj, -, hpassed, -⟩, he⟩ := hs
    refine ⟨a, ⟨hs.arr, hJ s hs.inv, hs.clean⟩, ⟨Relation.ReflTransGen.refl, hat, by omega, hk, hbelow', ?_⟩,
      fun h => hself h s hs.inv⟩
    rcases hend with hraised | hmet
    · -- With an error pending nothing is asked of the order.
      have hall := hg.raised s hs.inv (he.trans hraised)
      exact fun _ _ _ _ _ => hall _ _
    · intro q x hq hq' hx
      by_cases hqk : q = k
      · exact hright q x hq (by omega) hx
      · by_cases hqj : q < j
        · exact hpassed q x (by omega) hqj hx
        · exact habove q x (by omega) hq' hx
  · rintro s ⟨⟨hs, hlom, hmj, hback, hpassed, hstopped⟩, -⟩
    have hkm : k < m := by
      by_contra h
      exact hmore (Or.inr (by omega))
    obtain ⟨x, hx⟩ : ∃ x, a[k]? = some x := ⟨_, List.getElem?_eq_getElem (by omega)⟩
    obtain ⟨y, hy⟩ : ∃ y, a[m]? = some y := ⟨_, List.getElem?_eq_getElem (by omega)⟩
    have hget := getElem?_exchange (a := a) (i := k) (j := m) (x := x) (y := y) (by omega) (by omega)
    have hshuffle : Shuffle lo (last + 2) a ((a.set k y).set m x) :=
      Shuffle.single (by omega) (by omega) hx hy
    have hmlast : m < last := by
      have := hback (by omega)
      omega
    refine (swap_bind hg (by omega) (by omega) hx hy ?_) s hs
    refine (hnext _ m hshuffle.length ?_ hkm (by omega) ?_ ?_).conseq
      (fun t ht => ⟨ht.arr, hJ t ht.inv, ht.clean⟩) ?_
    · rw [hget, if_neg (by omega), if_neg (by omega), hat]
    · intro q z hq hqk hz
      rw [hget, if_neg (by omega)] at hz
      by_cases hsame : q = k
      · rw [if_pos hsame] at hz
        exact hstopped (by omega) m z le_rfl (by omega) (hy.trans hz)
      · rw [if_neg hsame] at hz
        exact hbelow' q z hq (by omega) hz
    · intro q z hq hq' hz
      rw [hget] at hz
      by_cases hsame : q = m
      · rw [if_pos hsame] at hz
        exact hright k z le_rfl (by omega) (hx.trans hz)
      · rw [if_neg hsame, if_neg (by omega)] at hz
        by_cases hqj : q < j
        · exact hpassed q z (by omega) hqj hz
        · exact habove q z (by omega) hq' hz
    · rintro k' t ⟨c, hc, hparted, hself'⟩
      exact ⟨c, hc, { hparted with shuffle := hshuffle.trans hparted.shuffle }, hself'⟩

/-- The rounds of the two scans part the items, with the pivot next to the last one. -/
theorem partition_spec (hg : Guided number callback elem le I) {lo last : ℕ} {pivot : α}
    (hpivot : elem pivot) (fuel : ℕ) (hfuel : last + 2 ≤ fuel + lo) (rounds : ℕ) :
    ∀ (a : List α) (i j : ℕ), last + 1 < a.length → a[last]? = some pivot → lo ≤ i → i < j → j ≤ last →
      last ≤ rounds + i → Among (le · pivot) lo (i + 1) a → Among (le pivot ·) j (last + 2) a →
      Upto Overran (At I a) (partition number callback lo (last + 1) pivot fuel rounds i j)
        (fun k s => ∃ c, At I c s ∧ Parted le lo last pivot a k c ∧ (k = last + 1 → BelowItself s)) := by
  induction rounds with
  | zero => exact fun a i j _ _ _ hij hj hrounds => by omega
  | succ rounds ih =>
    intro a i j hlt hat hlo hij hj hrounds hbelow habove
    refine Upto.bind (scanForward_spec hg hlt hat hpivot fuel i hlo (by omega) (by omega)) (fun k => ?_)
      fun k => ?_
    · have hover : Kept number callback (fun _ => True) Overran := overran_kept
      refine Keeps.bind (hover.scanBackward lo _ trivial j) fun m => ?_
      refine Kept.isError_bind fun e => Keeps.ite (Keeps.pure _) ?_
      exact Keeps.bind (hover.swap lo _ k m) fun _ => hover.partition lo _ trivial fuel rounds k m
    intro s ⟨hs, hik, hk, hself, hleft, hright⟩
    have hkeeps (m : ℕ) : Keeps Overran (partition number callback lo (last + 1) pivot fuel rounds k m) :=
      overran_kept.partition lo _ trivial fuel rounds k m
    have hnext (b : List α) (m : ℕ) (hlength : b.length = a.length) (hblast : b[last]? = some pivot)
        (hkm : k < m) (hm : m ≤ last) :=
      ih b k m (by omega) hblast (by omega) hkm hm (by omega)
    by_cases hklast : k = last + 1
    · -- Behind the pivot the scan only gets when nothing is asked of the order.
      exact partition_rest hg.below (fun s hs => hs.1) (fun _ s hs => hs.2) hpivot hlt hat hlo hij hj hik hk
        hbelow habove hleft hright hkeeps hnext s ⟨hs.arr, ⟨hs.inv, hself hklast⟩, hs.clean⟩
    · exact partition_rest hg (fun s hs => hs) (fun h => absurd h hklast) hpivot hlt hat hlo hij hj hik hk
        hbelow habove hleft hright hkeeps hnext s hs

/-! ## Insertion -/

/-- The items of a range were exchanged until they are in order. -/
def Sorts (I : SortState World α → Prop) (le : α → α → Prop) (lo hi : ℕ) (a : List α)
    (s : SortState World α) : Prop :=
  ∃ b, At I b s ∧ Shuffle lo (hi + 1) a b ∧ Ordered le lo (hi + 1) b

/-- The inner loop moves the hole for the key to where the key belongs. It never leaves the function, as an
answer above 0 means that no error is pending. -/
theorem shift_spec (hg : Guided number callback elem le I) {lo hi i : ℕ} {key : α} (hkey : elem key)
    (hi₀ : i ≤ hi) (j : ℕ) : ∀ a : List α, lo ≤ j → j ≤ i → hi < a.length → Hole le lo i j key a →
      Upto Overran (At I a) (shift number callback lo hi key j)
        (fun place s => ∃ k b, place = some k ∧ At I b s ∧ lo ≤ k ∧ k ≤ i ∧ b.length = a.length ∧
          Shuffle lo (i + 1) (a.set j key) (b.set k key) ∧ Ordered le lo (i + 1) (b.set k key)) := by
  induction j with
  | zero =>
    intro a hlo hj hlt hhole
    refine Upto.pure fun s hs => ⟨0, a, rfl, hs, hlo, hj, rfl, Relation.ReflTransGen.refl, ?_⟩
    exact hhole.fill (by omega) fun k x _ hk => by omega
  | succ j ih =>
    intro a hlo hj hlt hhole
    have hstop (s : SortState World α) (hs : At I a s)
        (hbefore : ∀ k x, lo ≤ k → k < j + 1 → a[k]? = some x → le x key) :
        ∃ k b, some (j + 1) = some k ∧ At I b s ∧ lo ≤ k ∧ k ≤ i ∧ b.length = a.length ∧
          Shuffle lo (i + 1) (a.set (j + 1) key) (b.set k key) ∧ Ordered le lo (i + 1) (b.set k key) :=
      ⟨j + 1, a, rfl, hs, hlo, hj, rfl, Relation.ReflTransGen.refl, hhole.fill (by omega) hbefore⟩
    refine Upto.ite (fun hmore => ?_) fun hend => Upto.pure fun s hs => hstop s hs fun k x hk hk' => by omega
    obtain ⟨x, hx⟩ : ∃ x, a[j]? = some x := ⟨_, List.getElem?_eq_getElem (by omega)⟩
    refine load_bind hg (by omega) (by omega) hx fun hex => ?_
    refine compare_bind hg (fun k hk => by cases hk) hex hkey fun z hle hge => ?_
    refine Upto.ite (fun habove => isError_bind fun e => ?_) fun hbelow => Upto.pure fun s hs => ?_
    · intro s hs
      have hnone : s.err = none := hs.1.2.calm (by omega)
      have he : e = false := by rw [← hs.2, hnone]; rfl
      rw [he, if_neg Bool.false_ne_true]
      refine load_bind hg (by omega) (by omega) hx (fun _ => ?_) s hs.1.1
      refine store_bind hg (by omega) (by omega) (by omega) hex ?_
      have hmoved := hhole.move (by omega) hx (by omega) (hge (by omega))
      refine (ih (a.set (j + 1) x) (by omega) (by omega) (by rw [List.length_set]; exact hlt) hmoved).conseq
        (fun _ h => h) ?_
      rintro place t ⟨k, b, rfl, hb, hk, hk', hlength, hshuffle, hordered⟩
      refine ⟨k, b, rfl, hb, hk, hk', hlength.trans List.length_set, ?_, hordered⟩
      exact (Hole.exchange (by omega) hx (by omega) (by omega)).trans hshuffle
    · refine hstop s hs.1 fun k y hk hk' hy => ?_
      have hxkey : le x key := hle (by omega)
      by_cases hkj : k = j
      · rw [hkj, hx] at hy
        cases hy
        exact hxkey
      · exact hg.trans _ _ _ (hhole.sorted k j y x hk (by omega) (by omega) (by omega) (by omega) hy hx) hxkey

/-- The items before `i` are in order, and the others are inserted one after the other. -/
theorem insertFrom_spec (hg : Guided number callback elem le I) {lo hi : ℕ} (count : ℕ) :
    ∀ (a : List α) (i : ℕ), lo ≤ i → i + count = hi + 1 → hi < a.length → Ordered le lo i a →
      Upto Overran (At I a) (insertFrom number callback lo hi count i) (fun _ => Sorts I le lo hi a) := by
  induction count with
  | zero =>
    intro a i hlo hcount hlt hordered
    obtain rfl : i = hi + 1 := by omega
    exact Upto.pure fun s hs => ⟨a, hs, Relation.ReflTransGen.refl, hordered⟩
  | succ count ih =>
    intro a i hlo hcount hlt hordered
    obtain ⟨key, hkey⟩ : ∃ x, a[i]? = some x := ⟨_, List.getElem?_eq_getElem (by omega)⟩
    refine load_bind hg hlo (by omega) hkey fun hek => ?_
    refine Upto.bind (shift_spec hg hek (by omega) i a hlo le_rfl hlt (Hole.of_ordered hordered)) ?_ ?_
    · intro place
      have hover : Kept number callback (fun _ => True) Overran := overran_kept
      cases place with
      | none => exact Keeps.pure _
      | some j => exact Keeps.bind (hover.store lo hi j trivial) fun _ => hover.insertFrom lo hi count (i + 1)
    rintro place s ⟨k, b, rfl, hb, hk, hk', hlength, hshuffle, hsorted⟩
    have hsame : a.set i key = a := by
      obtain ⟨hi', rfl⟩ := List.getElem?_eq_some_iff.mp hkey
      exact List.set_getElem_self hi'
    rw [hsame] at hshuffle
    refine store_bind hg hk (by omega) (by omega) hek ?_ s hb
    refine (ih (b.set k key) (i + 1) (by omega) (by omega) (by rw [List.length_set]; omega) hsorted).conseq
      (fun _ h => h) ?_
    rintro _ t ⟨c, hc, hbc, hdone⟩
    exact ⟨c, hc, (hshuffle.widen le_rfl (by omega)).trans hbc, hdone⟩

theorem insertionSort_spec (hg : Guided number callback elem le I) {lo hi : ℕ} (hle : lo ≤ hi)
    (hlt : hi < a.length) :
    Upto Overran (At I a) (insertionSort number callback lo hi) (fun _ => Sorts I le lo hi a) :=
  insertFrom_spec hg (hi - lo) a (lo + 1) (by omega) (by omega) hlt (Ordered.of_le le_rfl)

/-! ## Ranges that are not short -/

/-- Two items, put in order. -/
theorem orderPair_bind (hg : Guided number callback elem le I) {lo hi i j : ℕ} {x y : α}
    (hi₀ : lo ≤ i ∧ i ≤ hi) (hj₀ : lo ≤ j ∧ j ≤ hi) (hij : i ≠ j) (hx : a[i]? = some x) (hy : a[j]? = some y)
    {f : Unit → SortM World α β}
    (hf : ∀ b x' y', Shuffle lo (hi + 1) a b → b[i]? = some x' → b[j]? = some y' → le x' y' → le x' x →
      (x' = x ∨ x' = y) → (∀ k, k ≠ i → k ≠ j → b[k]? = a[k]?) → Upto Overran (At I b) (f ()) Q) :
    Upto Overran (At I a) (orderPair number callback lo hi i j >>= f) Q := by
  unfold orderPair
  rw [bind_assoc]
  refine load_bind hg hi₀.1 hi₀.2 hx fun hex => ?_
  rw [bind_assoc]
  refine load_bind hg hj₀.1 hj₀.2 hy fun hey => ?_
  rw [bind_assoc]
  refine compare_bind hg (fun k hk => by cases hk) hex hey fun z hle hge => ?_
  by_cases hz : z > 0
  · rw [if_pos hz]
    have hyx : le y x := hge (by omega)
    have hget := getElem?_exchange (a := a) (i := i) (j := j) (x := x) (y := y)
      (List.getElem?_eq_some_iff.mp hx).1 (List.getElem?_eq_some_iff.mp hy).1
    refine (swap_bind hg hi₀ hj₀ hx hy ?_).conseq (fun s hs => hs.1) fun _ _ h => h
    refine hf _ y x (Shuffle.single (by omega) (by omega) hx hy) ?_ ?_ hyx hyx (Or.inr rfl) fun k hki hkj => ?_
    · rw [hget, if_neg hij, if_pos rfl]
    · rw [hget, if_pos rfl]
    · rw [hget, if_neg hkj, if_neg hki]
  · rw [if_neg hz, pure_bind]
    refine (hf a x y Relation.ReflTransGen.refl hx hy (hle (by omega)) (hg.refl x hex) (Or.inl rfl)
      fun _ _ _ => rfl).conseq (fun s hs => hs.1) fun _ _ h => h

/-- The two parts are sorted, with the pivot between them. -/
theorem recurse_spec (hg : Guided number callback elem le I) {qsort : ℕ → ℕ → SortM World α Unit}
    {lo hi i : ℕ} {pivot : α} (hlt : hi < a.length) (hlo : lo < i) (hi₀ : i ≤ hi)
    (hpivot : a[i]? = some pivot) (hbelow : Among (le · pivot) lo i a)
    (habove : Among (le pivot ·) (i + 1) (hi + 1) a) (hkeeps : ∀ l h, Keeps Overran (qsort l h))
    (hqsort : ∀ (b : List α) (l h : ℕ), l ≤ h → h < b.length → h - l < hi - lo →
      Upto Overran (At I b) (qsort l h) (fun _ => Sorts I le l h b)) :
    Upto Overran (At I a) (recurse qsort lo hi i) (fun _ => Sorts I le lo hi a) := by
  have hfirst : Upto Overran (At I a) (if i > 0 ∧ i - 1 > lo then qsort lo (i - 1) else pure ())
      (fun _ s => ∃ b, At I b s ∧ Shuffle lo i a b ∧ Ordered le lo i b) := by
    refine Upto.ite (fun hmany => ?_) fun hfew => Upto.pure fun s hs => ?_
    · refine (hqsort a lo (i - 1) (by omega) (by omega) (by omega)).conseq (fun _ h => h) ?_
      rintro _ s ⟨b, hb, hshuffle, hordered⟩
      rw [Nat.sub_add_cancel (by omega)] at hshuffle hordered
      exact ⟨b, hb, hshuffle, hordered⟩
    · exact ⟨a, hs, Relation.ReflTransGen.refl, Ordered.of_le (by omega)⟩
  refine Upto.bind hfirst (fun _ => Keeps.ite (hkeeps _ _) (Keeps.pure _)) ?_
  rintro _ s ⟨b, hb, hleft, hlsorted⟩
  have hsecond : Upto Overran (At I b) (if i + 1 < hi then qsort (i + 1) hi else pure ())
      (fun _ s => ∃ d, At I d s ∧ Shuffle (i + 1) (hi + 1) b d ∧ Ordered le (i + 1) (hi + 1) d) := by
    refine Upto.ite (fun hmany => ?_) fun hfew => Upto.pure fun s hs => ?_
    · exact hqsort b (i + 1) hi (by omega) (by rw [hleft.length]; exact hlt) (by omega)
    · exact ⟨b, hs, Relation.ReflTransGen.refl, Ordered.of_le (by omega)⟩
  refine hsecond.conseq (fun _ h => h) ?_ s hb
  rintro _ t ⟨d, hd, hright, hrsorted⟩
  have hpivot' : d[i]? = some pivot := by
    rw [hright.outside (by omega), hleft.outside (by omega), hpivot]
  have hbelow' : Among (le · pivot) lo i d :=
    (hbelow.shuffle hleft le_rfl le_rfl).congr fun k _ hk => hright.outside (by omega)
  have habove' : Among (le pivot ·) (i + 1) (hi + 1) d :=
    Among.shuffle (habove.congr fun k hk _ => hleft.outside (by omega)) hright le_rfl le_rfl
  have hlsorted' : Ordered le lo i d := hlsorted.congr fun k _ hk => hright.outside (by omega)
  refine ⟨d, hd, (hleft.widen le_rfl (by omega)).trans (hright.widen (by omega) le_rfl), ?_⟩
  exact Ordered.join hg.trans hlsorted' hrsorted hpivot' hbelow' habove'

/-- The pivot is exchanged with the item that the first scan has stopped at. -/
theorem Parted.restore {lo last k : ℕ} {pivot x : α} {b : List α} (h : Parted le lo last pivot a k b)
    (hlt : last + 1 < b.length) (hx : b[k]? = some x) (hall : k = last + 1 → ∀ y z, le y z) :
    ((b.set k pivot).set last x)[k]? = some pivot ∧
      Among (le · pivot) lo k ((b.set k pivot).set last x) ∧
      Among (le pivot ·) (k + 1) (last + 2) ((b.set k pivot).set last x) := by
  have hupper := h.upper
  have hget := getElem?_exchange (a := b) (i := k) (j := last) (x := x) (y := pivot) (by omega) (by omega)
  refine ⟨?_, fun q y hq hqk hy => ?_, fun q y hq hq' hy => ?_⟩
  · rw [hget, if_pos rfl]
    by_cases hk : k = last
    · rw [if_pos hk, ← hx, hk, h.atLast]
    · rw [if_neg hk]
  · by_cases hk : k = last + 1
    · exact hall hk y pivot
    · rw [hget, if_neg (by omega), if_neg (by omega)] at hy
      exact h.below q y hq hqk hy
  · rw [hget] at hy
    by_cases hq'' : q = last
    · rw [if_pos hq''] at hy
      exact h.above k y le_rfl (by omega) (hx.trans hy)
    · rw [if_neg hq'', if_neg (by omega)] at hy
      exact h.above q y (by omega) hq' hy

/-- The part of `split` that follows the choice of the pivot. -/
theorem split_rest (hg : Guided number callback elem le I) {qsort : ℕ → ℕ → SortM World α Unit}
    {lo last : ℕ} {pivot : α} (hlt : last + 1 < a.length) (hlo : lo < last) (hpivot : elem pivot)
    (hat : a[last]? = some pivot) (hfirst : Among (le · pivot) lo (lo + 1) a)
    (hlast : Among (le pivot ·) last (last + 2) a) (hkeeps : ∀ l h, Keeps Overran (qsort l h))
    (hqsort : ∀ (b : List α) (l h : ℕ), l ≤ h → h < b.length → h - l < last + 1 - lo →
      Upto Overran (At I b) (qsort l h) (fun _ => Sorts I le l h b)) :
    Upto Overran (At I a) (do
      let s ← get
      let i ← partition number callback lo (last + 1) pivot s.arr.length s.arr.length lo last
      swap lo (last + 1) i last
      let raised ← isError
      if raised then pure () else recurse qsort lo (last + 1) i) (fun _ => Sorts I le lo (last + 1) a) := by
  have hover : Kept number callback (fun _ => True) Overran := overran_kept
  refine Triple.get_bind fun s hs t ht => ?_
  rw [hs.arr]
  have hpartition := partition_spec hg hpivot a.length (by omega) a.length a lo last hlt hat le_rfl hlo le_rfl
    (by omega) hfirst hlast
  refine Upto.bind hpartition (fun k => ?_) ?_ t (ht ▸ hs)
  · refine Keeps.bind (hover.swap lo _ k last) fun _ => Kept.isError_bind fun e => Keeps.ite (Keeps.pure _) ?_
    exact Keeps.bind (Keeps.ite (hkeeps _ _) (Keeps.pure _)) fun _ => Keeps.ite (hkeeps _ _) (Keeps.pure _)
  rintro k u ⟨b, hb, hparted, hself⟩
  have hlength := hparted.shuffle.length
  have hlower := hparted.lower
  have hupper := hparted.upper
  obtain ⟨x, hx⟩ : ∃ x, b[k]? = some x := ⟨_, List.getElem?_eq_getElem (by omega)⟩
  have hall : k = last + 1 → ∀ y z, le y z := fun h => hg.itself u hb.inv (hself h)
  obtain ⟨hat', hbelow, habove⟩ := hparted.restore (by omega) hx hall
  have hshuffle : Shuffle lo (last + 2) b ((b.set k pivot).set last x) :=
    Shuffle.single (by omega) (by omega) hx hparted.atLast
  refine swap_bind hg (by omega) (by omega) hx hparted.atLast ?_ u hb
  refine isError_bind fun e => Upto.ite (fun he => Upto.pure fun v hv => ?_) fun _ => ?_
  · -- With an error pending nothing is asked of the order.
    have hrel := hg.raised v hv.1.inv (hv.2.trans he)
    exact ⟨_, hv.1, hparted.shuffle.trans hshuffle, fun _ _ _ _ _ _ _ _ _ => hrel _ _⟩
  · have hrecurse := @recurse_spec _ _ _ _ _ _ _ ((b.set k pivot).set last x) hg qsort lo (last + 1) k pivot
      (by rw [hshuffle.length]; omega) hlower hupper hat' hbelow habove hkeeps hqsort
    refine hrecurse.conseq (fun v hv => hv.1) ?_
    rintro _ v ⟨d, hd, hsd, hordered⟩
    exact ⟨d, hd, (hparted.shuffle.trans hshuffle).trans hsd, hordered⟩

/-- The median of three items is the pivot, which is kept next to the last item. -/
theorem split_spec (hg : Guided number callback elem le I) {qsort : ℕ → ℕ → SortM World α Unit}
    {lo hi : ℕ} (hlt : hi < a.length) (hlo : lo + 16 ≤ hi) (hkeeps : ∀ l h, Keeps Overran (qsort l h))
    (hqsort : ∀ (b : List α) (l h : ℕ), l ≤ h → h < b.length → h - l < hi - lo →
      Upto Overran (At I b) (qsort l h) (fun _ => Sorts I le l h b)) :
    Upto Overran (At I a) (split number callback qsort lo hi) (fun _ => Sorts I le lo hi a) := by
  obtain ⟨last, rfl⟩ : ∃ last, hi = last + 1 := ⟨hi - 1, by omega⟩
  obtain ⟨mid, hmid⟩ : ∃ mid, mid = lo + (last + 1 - lo) / 2 := ⟨_, rfl⟩
  obtain ⟨x, hx⟩ : ∃ x, a[lo]? = some x := ⟨_, List.getElem?_eq_getElem (by omega)⟩
  obtain ⟨y, hy⟩ : ∃ x, a[mid]? = some x := ⟨_, List.getElem?_eq_getElem (by omega)⟩
  obtain ⟨z, hz⟩ : ∃ x, a[last + 1]? = some x := ⟨_, List.getElem?_eq_getElem (by omega)⟩
  unfold split
  rw [← hmid]
  dsimp only
  refine orderPair_bind hg (by omega) (by omega) (by omega) hx hy
    fun b x₁ y₁ hab hx₁ hy₁ hxy₁ _ _ hother₁ => ?_
  have hz₁ : b[last + 1]? = some z := by rw [hother₁ _ (by omega) (by omega), hz]
  refine orderPair_bind hg (by omega) (by omega) (by omega) hx₁ hz₁
    fun d x₂ z₂ hbd hx₂ hz₂ hxz₂ hxx₂ _ hother₂ => ?_
  have hy₂ : d[mid]? = some y₁ := by rw [hother₂ _ (by omega) (by omega), hy₁]
  have hxy₂ : le x₂ y₁ := hg.trans _ _ _ hxx₂ hxy₁
  refine orderPair_bind hg (by omega) (by omega) (by omega) hy₂ hz₂
    fun e pivot z₃ hde hy₃ hz₃ hyz₃ _ hsource hother₃ => ?_
  have hx₃ : e[lo]? = some x₂ := by rw [hother₃ _ (by omega) (by omega), hx₂]
  have hxpivot : le x₂ pivot := by
    rcases hsource with rfl | rfl
    · exact hxy₂
    · exact hxz₂
  have hae : Shuffle lo (last + 2) a e := (hab.trans hbd).trans hde
  have hlength := hae.length
  refine isError_bind fun raised => Upto.ite (fun hraised => Upto.pure fun s hs => ?_) fun _ => ?_
  · -- With an error pending nothing is asked of the order.
    have hrel := hg.raised s hs.1.inv (hs.2.trans hraised)
    exact ⟨e, hs.1, hae, fun _ _ _ _ _ _ _ _ _ => hrel _ _⟩
  refine Upto.conseq ?_ (fun s hs => hs.1) fun _ _ h => h
  refine load_bind hg (by omega) (by omega) hy₃ fun hpivot => ?_
  obtain ⟨w, hw⟩ : ∃ x, e[last]? = some x := ⟨_, List.getElem?_eq_getElem (by omega)⟩
  have hget := getElem?_exchange (a := e) (i := mid) (j := last) (x := pivot) (y := w) (by omega) (by omega)
  have hswap : Shuffle lo (last + 2) e ((e.set mid w).set last pivot) :=
    Shuffle.single (by omega) (by omega) hy₃ hw
  refine swap_bind hg (by omega) (by omega) hy₃ hw ?_
  have hat : ((e.set mid w).set last pivot)[last]? = some pivot := by rw [hget, if_pos rfl]
  have hfirst : ((e.set mid w).set last pivot)[lo]? = some x₂ := by
    rw [hget, if_neg (by omega), if_neg (by omega), hx₃]
  have hlast : ((e.set mid w).set last pivot)[last + 1]? = some z₃ := by
    rw [hget, if_neg (by omega), if_neg (by omega), hz₃]
  refine (split_rest hg (by rw [hswap.length]; omega) (by omega) hpivot hat (Among.single hfirst hxpivot)
    ((Among.single hat (hg.refl pivot hpivot)).append (Among.single hlast hyz₃)) hkeeps
    (by exact hqsort)).conseq (fun _ h => h) ?_
  rintro _ s ⟨c', hc, hsorted, hordered⟩
  exact ⟨c', hc, (hae.trans hswap).trans hsorted, hordered⟩

/-- The sort of a range, for a comparator that respects an order. -/
theorem qsort_spec (hg : Guided number callback elem le I) (fuel : ℕ) :
    ∀ (a : List α) (lo hi : ℕ), lo ≤ hi → hi < a.length → hi - lo < fuel →
      Upto Overran (At I a) (qsort number callback fuel lo hi) (fun _ => Sorts I le lo hi a) := by
  induction fuel with
  | zero => exact fun a lo hi _ _ hfuel => by omega
  | succ fuel ih =>
    intro a lo hi hle hlt hfuel
    have hover : Kept number callback (fun _ => True) Overran := overran_kept
    refine isError_bind fun e => Upto.ite (fun he => Upto.pure fun s hs => ?_) fun _ => ?_
    · -- With an error pending nothing is asked of the order.
      have hrel := hg.raised s hs.1.inv (hs.2.trans he)
      exact ⟨a, hs.1, Relation.ReflTransGen.refl, fun _ _ _ _ _ _ _ _ _ => hrel _ _⟩
    refine Upto.conseq (Upto.ite (fun _ => ?_) fun hlong => ?_) (fun s hs => hs.1) fun _ _ h => h
    · exact insertionSort_spec hg hle hlt
    · exact split_spec hg hlt (by omega) (hover.qsort fuel) fun b l h hlh hhb hshort =>
        ih b l h hlh hhb (by omega)

end Steps

end Sorting

end Chloride
