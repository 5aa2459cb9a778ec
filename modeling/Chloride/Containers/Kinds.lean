import Mathlib

/-!
# Lists sorted by kind

`byKind` collects the members of a list kind after kind and keeps their order in each kind, as a
program does that puts what it reads into a separate list for each kind. Nothing is lost, and lists of
the kinds can be merged again in the order of the whole.
-/

namespace Kinds

variable {α β κ : Type*} [DecidableEq κ]

/-- The members of a kind. -/
def ofKind (kind : α → κ) (k : κ) (xs : List α) : List α := xs.filter fun x => kind x = k

/-- The members kind after kind. -/
def byKind (kind : α → κ) (kinds : List κ) (xs : List α) : List α :=
  kinds.flatMap fun k => ofKind kind k xs

theorem ofKind_cons_same {kind : α → κ} {k : κ} {x : α} (xs : List α) (h : kind x = k) :
    ofKind kind k (x :: xs) = x :: ofKind kind k xs :=
  List.filter_cons_of_pos (decide_eq_true h)

theorem ofKind_cons_other {kind : α → κ} {k : κ} {x : α} (xs : List α) (h : kind x ≠ k) :
    ofKind kind k (x :: xs) = ofKind kind k xs :=
  List.filter_cons_of_neg (by simpa using h)

theorem ofKind_append (kind : α → κ) (k : κ) (xs ys : List α) :
    ofKind kind k (xs ++ ys) = ofKind kind k xs ++ ofKind kind k ys := List.filter_append xs ys

theorem map_ofKind (kind : α → κ) (f : β → α) (k : κ) (ys : List β) :
    (ofKind (fun y => kind (f y)) k ys).map f = ofKind kind k (ys.map f) := by
  unfold ofKind
  rw [List.filter_map]
  rfl

/-- The members of a kind are what a partial function takes from them, if it is one to one. -/
theorem map_filterMap_eq_ofKind {kind : α → κ} {k : κ} {f : α → Option β} {g : β → α} (xs : List α)
    (hsome : ∀ x, kind x = k → (f x).map g = some x) (hnone : ∀ x, kind x ≠ k → f x = none) :
    (xs.filterMap f).map g = ofKind kind k xs := by
  induction xs with
  | nil => rfl
  | cons x xs ih =>
    by_cases hx : kind x = k
    · obtain ⟨y, hy, rfl⟩ := Option.map_eq_some_iff.mp (hsome x hx)
      rw [List.filterMap_cons_some hy, List.map_cons, ih, ofKind_cons_same xs hx]
    · rw [List.filterMap_cons_none (hnone x hx), ih, ofKind_cons_other xs hx]

theorem byKind_nil (kind : α → κ) (kinds : List κ) : byKind kind kinds [] = [] :=
  List.flatMap_eq_nil_iff.mpr fun _ _ => rfl

/-- Every member is there once. -/
theorem byKind_perm {kind : α → κ} {kinds : List κ} (hkinds : kinds.Nodup) {xs : List α}
    (h : ∀ x ∈ xs, kind x ∈ kinds) : (byKind kind kinds xs).Perm xs := by
  induction xs with
  | nil => rw [byKind_nil]
  | cons x xs ih =>
    have hx : kind x ∈ kinds := h x List.mem_cons_self
    obtain ⟨before, after, rfl⟩ := List.append_of_mem hx
    -- The other kinds do not change.
    have hsame : ∀ ks : List κ, kind x ∉ ks → byKind kind ks (x :: xs) = byKind kind ks xs := by
      intro ks hks
      refine List.flatMap_congr fun k hk => ?_
      exact ofKind_cons_other xs fun heq => hks (heq ▸ hk)
    have hbefore : kind x ∉ before := fun hmem =>
      List.disjoint_of_nodup_append hkinds hmem List.mem_cons_self
    have hafter : kind x ∉ after := (List.nodup_cons.mp hkinds.of_append_right).1
    have hsplit : ∀ ys : List α, byKind kind (before ++ kind x :: after) ys =
        byKind kind before ys ++ (ofKind kind (kind x) ys ++ byKind kind after ys) := by
      intro ys
      unfold byKind
      rw [List.flatMap_append, List.flatMap_cons]
    rw [hsplit, hsame before hbefore, hsame after hafter, ofKind_cons_same xs rfl, List.cons_append]
    have hperm := ih fun y hy => h y (List.mem_cons_of_mem x hy)
    rw [hsplit] at hperm
    exact List.perm_middle.trans (hperm.cons x)

/-- The members behind the first one of a kind. -/
def behind (kind : α → κ) (k : κ) (xs : List α) : List α := (xs.dropWhile fun x => kind x ≠ k).tail

/-- A kind with one member at most: there is none, or the list is split at it. -/
theorem ofKind_split {kind : α → κ} {k : κ} {xs : List α} (h : (ofKind kind k xs).length ≤ 1) :
    (ofKind kind k xs = [] ∧ behind kind k xs = []) ∨
      ∃ before x, xs = before ++ x :: behind kind k xs ∧ kind x = k ∧ ofKind kind k before = [] ∧
        ofKind kind k (behind kind k xs) = [] := by
  induction xs with
  | nil => exact Or.inl ⟨rfl, rfl⟩
  | cons x xs ih =>
    by_cases hx : kind x = k
    · have hbehind : behind kind k (x :: xs) = xs := by
        unfold behind
        rw [List.dropWhile_cons_of_neg (by simpa using hx), List.tail_cons]
      rw [ofKind_cons_same xs hx, List.length_cons] at h
      refine Or.inr ⟨[], x, ?_, hx, rfl, ?_⟩
      · rw [hbehind, List.nil_append]
      · rw [hbehind]
        exact List.length_eq_zero_iff.mp (by omega)
    · have hbehind : behind kind k (x :: xs) = behind kind k xs := by
        unfold behind
        rw [List.dropWhile_cons_of_pos (by simpa using hx)]
      rw [ofKind_cons_other xs hx] at h ⊢
      rw [hbehind]
      rcases ih h with ⟨hnil, hnil'⟩ | ⟨before, y, hxs, hy, hbefore, hafter⟩
      · exact Or.inl ⟨hnil, hnil'⟩
      · refine Or.inr ⟨x :: before, y, ?_, hy, ?_, hafter⟩
        · rw [List.cons_append, ← hxs]
        · rw [ofKind_cons_other before hx, hbefore]

/-- Lists of the kinds are merged in the order of the whole. -/
theorem exists_merge {kind : α → κ} {f : β → α} (xs : List α) {parts : κ → List β}
    (h : ∀ k, (parts k).map f = ofKind kind k xs) :
    ∃ ys : List β, ys.map f = xs ∧ ∀ k, ofKind (fun y => kind (f y)) k ys = parts k := by
  induction xs generalizing parts with
  | nil =>
    refine ⟨[], rfl, fun k => ?_⟩
    have hnil := List.map_eq_nil_iff.mp (h k)
    exact hnil.symm
  | cons x xs ih =>
    -- The first one is the first of its kind.
    have hx := h (kind x)
    rw [ofKind_cons_same xs rfl] at hx
    obtain ⟨y, ys, hparts, hy, hys⟩ := List.map_eq_cons_iff.mp hx
    have hrest : ∀ k, (if k = kind x then ys else parts k).map f = ofKind kind k xs := by
      intro k
      by_cases hk : k = kind x
      · rw [if_pos hk, hys, hk]
      · rw [if_neg hk, h k, ofKind_cons_other xs fun heq => hk heq.symm]
    obtain ⟨zs, hzs, hkinds⟩ := ih hrest
    refine ⟨y :: zs, by rw [List.map_cons, hy, hzs], fun k => ?_⟩
    by_cases hk : k = kind x
    · rw [ofKind_cons_same zs (by rw [hy, hk]), hkinds k, if_pos hk, hk, hparts]
    · rw [ofKind_cons_other zs fun heq => hk (by rw [← heq, hy]), hkinds k, if_neg hk]

end Kinds
