import Mathlib

/-!
# Successive matches

A scanner finds in a text of some length the first match from a place on, if the place is one where a search can
start. The successive matches do not overlap: the search goes on at the end of a match, or at the next place behind an
empty one. There is exactly one such sequence from every place.
-/

namespace Scanning

/-- The length of a text, the places in it where a search can start, and what it finds from there. -/
structure Scanner (μ : Type*) where
  length : ℕ
  Boundary : ℕ → Prop
  start : μ → ℕ
  stop : μ → ℕ
  find : ℕ → Option μ
  boundary_length : Boundary length
  boundary_find : ∀ o m, find o = some m → Boundary o
  range : ∀ o m, find o = some m → o ≤ start m ∧ start m ≤ stop m ∧ stop m ≤ length

namespace Scanner

variable {μ : Type*} (S : Scanner μ)

/-- The next place behind a place. -/
def Next (p q : ℕ) : Prop := p < q ∧ S.Boundary q ∧ ∀ r, p < r → r < q → ¬S.Boundary r

/-- The successive matches from a place on. -/
inductive Successive : ℕ → List μ → Prop where
  | done {o : ℕ} (hfind : S.find o = none) : Successive o []
  | nonempty {o : ℕ} {m : μ} {ms : List μ} (hfind : S.find o = some m) (hne : S.start m < S.stop m)
      (hrest : Successive (S.stop m) ms) : Successive o (m :: ms)
  | empty {o q : ℕ} {m : μ} {ms : List μ} (hfind : S.find o = some m) (heq : S.start m = S.stop m)
      (hnext : S.Next (S.stop m) q) (hq : q ≤ S.length) (hrest : Successive q ms) : Successive o (m :: ms)
  | last {o : ℕ} {m : μ} (hfind : S.find o = some m) (heq : S.start m = S.stop m) (hend : S.stop m = S.length) :
      Successive o [m]

variable {S}

theorem Next.unique {p q q' : ℕ} (h : S.Next p q) (h' : S.Next p q') : q = q' := by
  rcases lt_trichotomy q q' with hlt | heq | hlt
  · exact absurd h.2.1 (h'.2.2 q h.1 hlt)
  · exact heq
  · exact absurd h'.2.1 (h.2.2 q' h'.1 hlt)

/-- Before the end there is a next place, and it is at the end at the latest. -/
theorem exists_next {p : ℕ} (hp : p < S.length) : ∃ q, S.Next p q ∧ q ≤ S.length := by
  classical
  have hex : ∃ q, p < q ∧ S.Boundary q := ⟨S.length, hp, S.boundary_length⟩
  refine ⟨Nat.find hex, ⟨(Nat.find_spec hex).1, (Nat.find_spec hex).2, fun r hr hlt hboundary => ?_⟩, ?_⟩
  · exact Nat.find_min hex hlt ⟨hr, hboundary⟩
  · exact Nat.find_min' hex ⟨hp, S.boundary_length⟩

theorem Successive.unique {o : ℕ} {ms ms' : List μ} (h : S.Successive o ms) (h' : S.Successive o ms') : ms = ms' := by
  induction h generalizing ms' with
  | done hfind =>
    cases h' with
    | done => rfl
    | nonempty hfind' => cases hfind.symm.trans hfind'
    | empty hfind' => cases hfind.symm.trans hfind'
    | last hfind' => cases hfind.symm.trans hfind'
  | nonempty hfind hne _ ih =>
    cases h' with
    | done hfind' => cases hfind.symm.trans hfind'
    | nonempty hfind' _ hrest' =>
      obtain rfl := Option.some.inj (hfind.symm.trans hfind')
      rw [ih hrest']
    | empty hfind' heq' =>
      obtain rfl := Option.some.inj (hfind.symm.trans hfind')
      exact absurd heq' hne.ne
    | last hfind' heq' =>
      obtain rfl := Option.some.inj (hfind.symm.trans hfind')
      exact absurd heq' hne.ne
  | empty hfind heq hnext hq _ ih =>
    cases h' with
    | done hfind' => cases hfind.symm.trans hfind'
    | nonempty hfind' hne' =>
      obtain rfl := Option.some.inj (hfind.symm.trans hfind')
      exact absurd heq hne'.ne
    | empty hfind' _ hnext' _ hrest' =>
      obtain rfl := Option.some.inj (hfind.symm.trans hfind')
      obtain rfl := hnext.unique hnext'
      rw [ih hrest']
    | last hfind' _ hend' =>
      obtain rfl := Option.some.inj (hfind.symm.trans hfind')
      have hlt := hnext.1
      omega
  | last hfind heq hend =>
    cases h' with
    | done hfind' => cases hfind.symm.trans hfind'
    | nonempty hfind' hne' =>
      obtain rfl := Option.some.inj (hfind.symm.trans hfind')
      exact absurd heq hne'.ne
    | empty hfind' _ hnext' hq' =>
      obtain rfl := Option.some.inj (hfind.symm.trans hfind')
      have hlt := hnext'.1
      omega
    | last hfind' =>
      obtain rfl := Option.some.inj (hfind.symm.trans hfind')
      rfl

/-- From every place there are successive matches: each is behind the one before. -/
theorem exists_successive (o : ℕ) : ∃ ms, S.Successive o ms := by
  induction h : S.length + 1 - o using Nat.strong_induction_on generalizing o with
  | _ d ih =>
    subst h
    cases hfind : S.find o with
    | none => exact ⟨[], .done hfind⟩
    | some m =>
      obtain ⟨hle, hle', hlength⟩ := S.range o m hfind
      rcases hle'.lt_or_eq with hne | heq
      · obtain ⟨ms, hms⟩ := ih (S.length + 1 - S.stop m) (by omega) _ rfl
        exact ⟨m :: ms, .nonempty hfind hne hms⟩
      · rcases hlength.lt_or_eq with hlt | hend
        · obtain ⟨q, hnext, hq⟩ := exists_next hlt
          have hlt' := hnext.1
          obtain ⟨ms, hms⟩ := ih (S.length + 1 - q) (by omega) _ rfl
          exact ⟨m :: ms, .empty hfind heq hnext hq hms⟩
        · exact ⟨[m], .last hfind heq hend⟩

/-- No match ends before it starts. -/
theorem Successive.start_le_stop {o : ℕ} {ms : List μ} (h : S.Successive o ms) : ∀ m ∈ ms, S.start m ≤ S.stop m := by
  induction h with
  | done => simp
  | nonempty _ hne _ ih => exact List.forall_mem_cons.mpr ⟨hne.le, ih⟩
  | empty _ heq _ _ _ ih => exact List.forall_mem_cons.mpr ⟨heq.le, ih⟩
  | last _ heq => exact List.forall_mem_singleton.mpr heq.le

/-- Without an empty match, each match takes a place. -/
theorem Successive.length_le {o : ℕ} {ms : List μ} (h : S.Successive o ms)
    (hne : ∀ m ∈ ms, S.start m < S.stop m) (ho : o ≤ S.length) : o + ms.length ≤ S.length := by
  induction h with
  | done => exact ho
  | @nonempty o m ms hfind hlt _ ih =>
    obtain ⟨hle, -, hlength⟩ := S.range o m hfind
    have hrest := ih (fun m' hm' => hne m' (List.mem_cons_of_mem _ hm')) hlength
    rw [List.length_cons]
    omega
  | @empty o q m ms hfind heq => exact absurd heq (hne m List.mem_cons_self).ne
  | @last o m hfind heq => exact absurd heq (hne m List.mem_cons_self).ne

end Scanner

end Scanning
