import Chloride.Objects.Sorting

/-!
# What every part of the sort keeps

A property of states that accesses, writes of items and comparisons of items keep is kept by the whole
sort, whatever the comparator does and however the sort ends.
-/

namespace Chloride

namespace Sorting

open Exceptional

variable {World α : Type} {number : α → Option Number} {callback : Callee World α}

/-- A property that each access, each write of an item and each comparison of items keeps. -/
structure Kept (number : α → Option Number) (callback : Callee World α) (elem : α → Prop)
    (I : SortState World α → Prop) : Prop where
  access : ∀ s a, I s → I { s with accesses := a :: s.accesses }
  elem_of_mem : ∀ s, I s → ∀ x ∈ s.arr, elem x
  write : ∀ s i x, I s → elem x → I { s with arr := s.arr.set i x }
  compare : ∀ site a b, elem a → elem b → Keeps I (compare number callback site a b)

namespace Kept

variable {elem : α → Prop} {I : SortState World α → Prop}

theorem load (h : Kept number callback elem I) (lo hi index : ℕ) :
    Triple I (load lo hi index) (fun x s => I s ∧ elem x) I := by
  refine Triple.modify_bind (fun s hs => h.access s _ hs) (Triple.get_bind fun s hs => ?_)
  refine Triple.getM (fun x hx t ht => ?_) fun _ t ht => ht ▸ hs
  have hmem : x ∈ s.arr := List.mem_of_getElem? hx
  exact ⟨ht ▸ hs, h.elem_of_mem s hs x hmem⟩

theorem store (h : Kept number callback elem I) (lo hi index : ℕ) {x : α} (hx : elem x) :
    Keeps I (store lo hi index x) := by
  refine Triple.modify_bind (fun s hs => h.access s _ hs) (Triple.get_bind fun s hs => ?_)
  refine Triple.ite (fun _ => ?_) fun _ => Triple.failure fun t ht => ht ▸ hs
  exact fun t _ => h.write s index x hs hx

theorem isError_bind {β : Type} {f : Bool → SortM World α β} (hf : ∀ e, Keeps I (f e)) :
    Keeps I (isError >>= f) :=
  Triple.bind (R := fun _ => I) (fun _ hs => hs) hf

/-- A read, and what is done with the item. -/
theorem load_bind (h : Kept number callback elem I) {lo hi index : ℕ} {β : Type}
    {f : α → SortM World α β} (hf : ∀ x, elem x → Keeps I (f x)) :
    Keeps I (Sorting.load lo hi index >>= f) :=
  Triple.bind (h.load lo hi index) fun x s hs => hf x hs.2 s hs.1

theorem swap (h : Kept number callback elem I) (lo hi i j : ℕ) : Keeps I (swap lo hi i j) := by
  refine h.load_bind fun tmp htmp => h.load_bind fun x hx => ?_
  exact Keeps.bind (h.store lo hi i hx) fun _ => h.store lo hi j htmp

theorem shift (h : Kept number callback elem I) (lo hi : ℕ) {key : α} (hkey : elem key) (j : ℕ) :
    Keeps I (shift number callback lo hi key j) := by
  induction j with
  | zero => exact Keeps.pure _
  | succ j ih =>
    refine Keeps.ite (h.load_bind fun x hx => ?_) (Keeps.pure _)
    refine Keeps.bind (h.compare _ _ _ hx hkey) fun answer => Keeps.ite ?_ (Keeps.pure _)
    refine isError_bind fun e => Keeps.ite (Keeps.pure _) (h.load_bind fun x hx => ?_)
    exact Keeps.bind (h.store lo hi (j + 1) hx) fun _ => ih

theorem insertFrom (h : Kept number callback elem I) (lo hi count : ℕ) :
    ∀ i, Keeps I (insertFrom number callback lo hi count i) := by
  induction count with
  | zero => exact fun i => Keeps.pure _
  | succ count ih =>
    refine fun i => h.load_bind fun key hkey => Keeps.bind (h.shift lo hi hkey i) fun place => ?_
    cases place with
    | none => exact Keeps.pure _
    | some j => exact Keeps.bind (h.store lo hi j hkey) fun _ => ih (i + 1)

theorem orderPair (h : Kept number callback elem I) (lo hi i j : ℕ) :
    Keeps I (orderPair number callback lo hi i j) := by
  refine h.load_bind fun x hx => h.load_bind fun y hy => Keeps.bind (h.compare _ _ _ hx hy) fun answer => ?_
  exact Keeps.ite (h.swap lo hi i j) (Keeps.pure _)

theorem scanForward (h : Kept number callback elem I) (lo hi : ℕ) {pivot : α} (hpivot : elem pivot)
    (fuel : ℕ) : ∀ i, Keeps I (scanForward number callback lo hi pivot fuel i) := by
  induction fuel with
  | zero => exact fun i => Keeps.failure
  | succ fuel ih =>
    refine fun i => h.load_bind fun x hx => Keeps.bind (h.compare _ _ _ hx hpivot) fun answer => ?_
    exact isError_bind fun e => Keeps.ite (ih (i + 1)) (Keeps.pure _)

theorem scanBackward (h : Kept number callback elem I) (lo hi : ℕ) {pivot : α} (hpivot : elem pivot)
    (j : ℕ) : Keeps I (scanBackward number callback lo hi pivot j) := by
  induction j with
  | zero => exact Keeps.pure _
  | succ j ih =>
    refine Keeps.ite (h.load_bind fun x hx => ?_) (Keeps.pure _)
    refine Keeps.bind (h.compare _ _ _ hpivot hx) fun answer => isError_bind fun e => ?_
    exact Keeps.ite ih (Keeps.pure _)

theorem partition (h : Kept number callback elem I) (lo hi : ℕ) {pivot : α} (hpivot : elem pivot)
    (fuel rounds : ℕ) : ∀ i j, Keeps I (partition number callback lo hi pivot fuel rounds i j) := by
  induction rounds with
  | zero => exact fun i j => Keeps.failure
  | succ rounds ih =>
    refine fun i j => Keeps.bind (h.scanForward lo hi hpivot fuel i) fun i => ?_
    refine Keeps.bind (h.scanBackward lo hi hpivot j) fun j => isError_bind fun e => ?_
    exact Keeps.ite (Keeps.pure _) (Keeps.bind (h.swap lo hi i j) fun _ => ih i j)

theorem split (h : Kept number callback elem I) {qsort : ℕ → ℕ → SortM World α Unit}
    (hqsort : ∀ lo hi, Keeps I (qsort lo hi)) (lo hi : ℕ) :
    Keeps I (split number callback qsort lo hi) := by
  refine Keeps.bind (h.orderPair lo hi _ _) fun _ => Keeps.bind (h.orderPair lo hi _ _) fun _ => ?_
  refine Keeps.bind (h.orderPair lo hi _ _) fun _ => isError_bind fun e => Keeps.ite (Keeps.pure _) ?_
  refine h.load_bind fun pivot hpivot => Keeps.bind (h.swap lo hi _ _) fun _ => ?_
  refine Triple.get_bind fun s hs => ?_
  have hrest : Keeps I (do
      let i ← Sorting.partition number callback lo hi pivot s.arr.length s.arr.length lo (hi - 1)
      Sorting.swap lo hi i (hi - 1)
      let raised ← isError
      if raised then pure () else recurse qsort lo hi i : SortM World α Unit) := by
    refine Keeps.bind (h.partition lo hi hpivot _ _ _ _) fun i => Keeps.bind (h.swap lo hi _ _) fun _ => ?_
    refine isError_bind fun e => Keeps.ite (Keeps.pure _) ?_
    exact Keeps.bind (Keeps.ite (hqsort _ _) (Keeps.pure _)) fun _ => Keeps.ite (hqsort _ _) (Keeps.pure _)
  exact fun t ht => hrest t (ht ▸ hs)

/-- The whole sort of a range keeps it. -/
theorem qsort (h : Kept number callback elem I) (fuel : ℕ) :
    ∀ lo hi, Keeps I (qsort number callback fuel lo hi) := by
  induction fuel with
  | zero => exact fun lo hi => isError_bind fun e => Keeps.ite (Keeps.pure _) Keeps.failure
  | succ fuel ih =>
    refine fun lo hi => isError_bind fun e => Keeps.ite (Keeps.pure _) (Keeps.ite ?_ ?_)
    · exact h.insertFrom lo hi _ _
    · exact h.split ih lo hi

end Kept

end Sorting

end Chloride
