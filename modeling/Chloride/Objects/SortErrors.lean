import Chloride.Objects.Quicksort

/-!
# A sort with an error pending

The scans of a sort can leave its copy, but not while an error is pending: then every comparison answers 0,
which ends a scan. So `argon_qsort` returns once the comparator has raised an error (`qsort_careful`).
-/

namespace Chloride

namespace Sorting

open Exceptional

variable {World α β : Type} {number : α → Option Number} {callback : Callee World α} {n : ℕ}

/-- The copy has so many items. -/
def Holds (n : ℕ) (s : SortState World α) : Prop := s.arr.length = n

/-- A program that keeps the number of items and does not fail while an error is pending. -/
def Careful (n : ℕ) (m : SortM World α β) : Prop := Triple (Holds n) m (fun _ => Holds n) fun s => s.err = none

theorem Careful.bind {γ : Type} {m : SortM World α β} {f : β → SortM World α γ} (hm : Careful n m)
    (hf : ∀ b, Careful n (f b)) : Careful n (m >>= f) :=
  Triple.bind hm hf

theorem Careful.pure (b : β) : Careful n (Pure.pure b : SortM World α β) := fun _ hs => hs

theorem Careful.ite {c : Prop} [Decidable c] {m m' : SortM World α β} (hm : c → Careful n m)
    (hm' : ¬c → Careful n m') : Careful n (if c then m else m') :=
  Triple.ite hm hm'

end Sorting

end Chloride
