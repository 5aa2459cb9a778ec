import Chloride.Stdlib.Path

/-!
# Splitting a path

What `split` of `stdlib/path/init.ar` gives. A normalised path is a root of at most two separators and
fields, and `split` looks for the last separator from the end down to index 1. So it never finds the one at
index 0, though it has a branch for it: `splits_iff` says that nothing is lost exactly where there is no root
or there are two fields behind it.
-/

namespace Chloride

namespace Path

open Splitting Fields
open Internal (isAbs isAbs_iff isAbs_eq)

/-! ## Paths that are normalised already -/

/-- A root: at most two separators. -/
def IsRoot (r : Str) : Prop := r = [] ∨ r = [slash] ∨ r = [slash, slash]

theorem isRoot_root (p : Str) : IsRoot (root p) := by
  rw [root, lead]
  by_cases habs : isAbs p
  · rw [if_pos habs]
    split
    · exact Or.inr (Or.inr rfl)
    · exact Or.inr (Or.inl rfl)
  · have hunc : ¬Unc p := fun h => habs (isAbs_iff.mpr h.head?)
    have hboth : ¬(Unc p ∧ fields slash p ≠ []) := fun h => hunc h.1
    rw [if_neg hboth, if_neg habs]
    exact Or.inl rfl

theorem collapse_of_not_infix {p : Str} (h : ¬[slash, slash] <:+: p) : collapse p = p := by
  rw [collapse, if_neg h]

section

variable {r : Str} {L : List Str} (hr : IsRoot r) (hL : L ≠ []) (hfields : ∀ f ∈ L, IsField slash f)

include hr hfields

/-- A root with fields behind it is left as it is. -/
theorem Internal.normalise_spelled : Internal.normalise (r ++ [slash].intercalate L) = r ++ [slash].intercalate L := by
  have hmiddle := not_infix_intercalate hfields
  have hhead := head?_intercalate hfields
  have hlead : ¬[slash, slash] <:+: slash :: [slash].intercalate L :=
    not_infix_append (f := []) List.not_mem_nil hhead hmiddle
  have hunc : ∀ p, ¬[slash, slash] <:+: p → Internal.normalise p = p := fun p hp => by
    have hno : ¬Unc p := fun h => hp h.1.isInfix
    rw [Internal.normalise, if_neg hno, collapse_of_not_infix hp]
  rcases hr with rfl | rfl | rfl
  · exact hunc _ hmiddle
  · exact hunc _ hlead
  · have hyes : Unc ([slash, slash] ++ [slash].intercalate L) := by
      refine ⟨List.prefix_append _ _, fun h => hhead ?_⟩
      exact prefix_iff_head?.mp ((List.prefix_append_right_inj [slash, slash]).mp h)
    have hcollapse : collapse ([slash, slash] ++ [slash].intercalate L) = slash :: [slash].intercalate L := by
      rw [collapse, if_pos (List.prefix_append _ _).isInfix,
        replaced_cut (List.cons_ne_nil _ _) (List.prefix_append _ _)]
      change collapse (slash :: replaced [slash, slash] [slash] ([slash].intercalate L)) = _
      rw [replaced_of_not_within hmiddle, collapse_of_not_infix hlead]
    rw [Internal.normalise, if_pos hyes, hcollapse]
    rfl

include hL

theorem normalise_spelled : normalise (r ++ [slash].intercalate L) = r ++ [slash].intercalate L := by
  rw [normalise, Internal.normalise_spelled hr hfields, (Internal.stripTrailingSep_intercalate r hL hfields).1]

end

theorem normalise_field {f : Str} (h : IsField slash f) : Internal.normalise f = f := by
  have hfields : ∀ g ∈ [f], IsField slash g := fun g hg => List.mem_singleton.mp hg ▸ h
  have hspelled := Internal.normalise_spelled (Or.inl rfl) hfields
  rwa [List.nil_append, List.intercalate_singleton] at hspelled

/-! ## The last separator -/

theorem lastSep_eq_some {p : Str} {j : ℕ} (hj : 0 < j) (hsep : p[j]? = some slash) {k : ℕ} (hk : j ≤ k)
    (hrest : ∀ i, j < i → p[i]? ≠ some slash) : lastSep p k = some j := by
  induction k with
  | zero => omega
  | succ k ih =>
    rw [lastSep]
    rcases hk.eq_or_lt with rfl | hlt
    · rw [if_pos hsep]
    · rw [if_neg (hrest _ hlt), ih (by omega)]

theorem lastSep_eq_none {p : Str} (h : ∀ i, 0 < i → p[i]? ≠ some slash) (k : ℕ) : lastSep p k = none := by
  induction k with
  | zero => rfl
  | succ k ih => rw [lastSep, if_neg (h _ (Nat.succ_pos k)), ih]

theorem getElem?_ne_of_not_mem {f : Str} (h : slash ∉ f) (i : ℕ) : f[i]? ≠ some slash := fun hi =>
  h (List.mem_of_getElem? hi)

/-- What is split where no separator is found. -/
theorem split_of_none {p : Str} (h : ∀ i, 0 < i → (normalise p)[i]? ≠ some slash) :
    split p = ([], normalise p) := by
  unfold split
  dsimp only
  rw [show Internal.stripTrailingSep (Internal.normalise p) = normalise p from rfl, lastSep_eq_none h]

/-- What is split at the last separator, where that is not the first byte. -/
theorem split_of_eq {p x y : Str} (h : normalise p = x ++ slash :: y) (hx : x ≠ []) (hy : slash ∉ y) :
    split p = (x, y) := by
  have hpos := List.length_pos_of_ne_nil hx
  have hlast : lastSep (normalise p) ((normalise p).length - 1) = some x.length := by
    apply lastSep_eq_some hpos
    · rw [h, List.getElem?_append_right le_rfl, Nat.sub_self, List.getElem?_cons_zero]
    · rw [h, List.length_append, List.length_cons]
      omega
    · intro i hi
      obtain ⟨j, rfl⟩ : ∃ j, i = x.length + (j + 1) := ⟨i - x.length - 1, by omega⟩
      rw [h, List.getElem?_append_right (Nat.le_add_right _ _), Nat.add_sub_cancel_left, List.getElem?_cons_succ]
      exact getElem?_ne_of_not_mem hy j
  unfold split
  dsimp only
  rw [show Internal.stripTrailingSep (Internal.normalise p) = normalise p from rfl, hlast]
  have hne : x.length ≠ 0 := by omega
  have hdrop : (x ++ slash :: y).drop (x.length + 1) = y := by
    rw [List.drop_append, List.drop_eq_nil_of_le (Nat.le_succ _), Nat.add_sub_cancel_left]
    rfl
  simp only [if_neg hne, h, List.take_left, hdrop]

/-- A first part and one more that is a name. -/
theorem join_field {x f : Str} (hx : Internal.normalise x = x) (hne : x ≠ []) (hf : IsField slash f) :
    join [x, f] = normalise (if [slash] <:+ x then x ++ f else x ++ slash :: f) := by
  have hfirst : Internal.joinStep [] x = x := by
    rw [Internal.joinStep, hx]
    simp
  have habs : isAbs f = false := by
    rw [isAbs_eq]
    exact decide_eq_false hf.head?_ne
  have hsecond : Internal.joinStep x f = if [slash] <:+ x then x ++ f else x ++ slash :: f := by
    simp only [Internal.joinStep, normalise_field hf, habs, hne, false_or, List.append_assoc,
      List.singleton_append, Bool.false_eq_true, if_false]
  rw [join, Internal.join, List.foldl_cons, List.foldl_cons, List.foldl_nil, hfirst, hsecond, normalise]

/-- A first part that is empty does not count. -/
theorem join_nil {f : Str} (hf : slash ∉ f) : join [[], f] = normalise f := by
  have hmiddle : ∀ g : Str, slash ∉ g → ¬[slash, slash] <:+: g := fun g hg h => hg (h.subset List.mem_cons_self)
  have hnormalise : ∀ g : Str, slash ∉ g → Internal.normalise g = g := fun g hg => by
    have hunc : ¬Unc g := fun h => hmiddle g hg h.1.isInfix
    rw [Internal.normalise, if_neg hunc, collapse_of_not_infix (hmiddle g hg)]
  have hstep : ∀ g : Str, slash ∉ g → Internal.joinStep [] g = g := fun g hg => by
    rw [Internal.joinStep, hnormalise g hg]
    simp
  rw [join, Internal.join, List.foldl_cons, List.foldl_cons, List.foldl_nil, hstep [] List.not_mem_nil,
    hstep f hf, normalise]

/-! ## What is lost -/

/-- What splitting a path should give: the part before the last separator, which is the root if there is
nothing in it, and the part behind that separator; and the two joined are the path. -/
structure Splits (p : Str) : Prop where
  tail : slash ∉ basename p
  parts : slash ∉ normalise p ∧ dirname p = [] ∧ basename p = normalise p ∨
    ∃ x, normalise p = x ++ slash :: basename p ∧ dirname p = if x = [] then [slash] else x
  joined : normalise (join [dirname p, basename p]) = normalise p

/-- A path without a separator. -/
theorem splits_of_not_mem {p : Str} (h : slash ∉ normalise p) (hagain : normalise (normalise p) = normalise p) :
    Splits p := by
  have hsplit := split_of_none fun i _ => getElem?_ne_of_not_mem h i
  refine ⟨by rw [basename, hsplit]; exact h, Or.inl ⟨h, by rw [dirname, hsplit], by rw [basename, hsplit]⟩, ?_⟩
  rw [dirname, basename, hsplit, join_nil h, hagain, hagain]

theorem normalise_nil : normalise [] = [] := by
  rw [normalise_eq, root, lead, isAbs_eq]
  rfl

/-- The path of a root only is lost. -/
theorem splits_of_fields_nil {p : Str} (h : fields slash p = []) : Splits p ↔ isAbs p = false := by
  have hboth : ¬(Unc p ∧ fields slash p ≠ []) := fun hboth => hboth.2 h
  have hnormalise : normalise p = lead p := by
    rw [normalise_eq, root, if_neg hboth, h]
    exact List.append_nil _
  rw [lead] at hnormalise
  cases habs : isAbs p with
  | false =>
    rw [habs, if_neg Bool.false_ne_true] at hnormalise
    refine iff_of_true (splits_of_not_mem ?_ ?_) rfl
    · rw [hnormalise]
      exact List.not_mem_nil
    · rw [hnormalise, normalise_nil]
  | true =>
    rw [habs, if_pos rfl] at hnormalise
    refine iff_of_false (fun hsplits => ?_) (Bool.false_ne_true ∘ Eq.symm)
    have hsplit : split p = ([], normalise p) := split_of_none fun i hi => by
      rw [hnormalise, List.getElem?_eq_none hi]
      exact (Option.some_ne_none _).symm
    have htail := hsplits.tail
    rw [basename, hsplit, hnormalise] at htail
    exact htail List.mem_cons_self

/-- A path of one field is lost if there is a root. -/
theorem splits_of_fields_singleton {p f : Str} (h : fields slash p = [f]) : Splits p ↔ isAbs p = false := by
  have hf : IsField slash f := isField_of_mem f (h ▸ List.mem_singleton_self f)
  have hfields : ∀ g ∈ [f], IsField slash g := fun g hg => List.mem_singleton.mp hg ▸ hf
  have hnormalise := normalise_eq p
  rw [h, List.intercalate_singleton, root, lead] at hnormalise
  cases habs : isAbs p with
  | false =>
    have hunc : ¬(Unc p ∧ [f] ≠ []) := fun hboth => by
      have hp := isAbs_iff.mpr hboth.1.head?
      rw [habs] at hp
      exact Bool.false_ne_true hp
    rw [h, if_neg hunc, habs, if_neg Bool.false_ne_true, List.nil_append] at hnormalise
    refine iff_of_true (splits_of_not_mem ?_ ?_) rfl
    · rw [hnormalise]
      exact hf.2
    · have hspelled := normalise_spelled (Or.inl rfl) (List.cons_ne_nil f []) hfields
      rw [List.nil_append, List.intercalate_singleton] at hspelled
      rw [hnormalise, hspelled]
  | true =>
    refine iff_of_false (fun hsplits => ?_) (Bool.false_ne_true ∘ Eq.symm)
    rw [h, habs, if_pos rfl] at hnormalise
    by_cases hunc : Unc p
    · -- the second of two separators is found, and the first one alone is no such root
      rw [if_pos ⟨hunc, List.cons_ne_nil _ _⟩] at hnormalise
      have hsplit : split p = ([slash], f) := split_of_eq hnormalise (List.cons_ne_nil _ _) hf.2
      have hslash : Internal.normalise [slash] = [slash] := by
        have hno : ¬Unc [slash] := by decide
        rw [Internal.normalise, if_neg hno, collapse_of_not_infix (by decide)]
      have hspelled := normalise_spelled (Or.inr (Or.inl rfl)) (List.cons_ne_nil f []) hfields
      rw [List.intercalate_singleton] at hspelled
      have hjoined := hsplits.joined
      rw [dirname, basename, hsplit, join_field hslash (List.cons_ne_nil _ _) hf,
        if_pos (List.suffix_refl _), hspelled, hspelled, hnormalise] at hjoined
      have hlength := congrArg List.length hjoined
      simp only [List.length_append, List.length_cons, List.length_nil] at hlength
      omega
    · have hboth : ¬(Unc p ∧ [f] ≠ []) := fun hboth => hunc hboth.1
      rw [if_neg hboth] at hnormalise
      have hsplit : split p = ([], normalise p) := split_of_none fun i hi => by
        obtain ⟨j, rfl⟩ : ∃ j, i = j + 1 := ⟨i - 1, by omega⟩
        rw [hnormalise]
        exact getElem?_ne_of_not_mem hf.2 j
      have htail := hsplits.tail
      rw [basename, hsplit, hnormalise] at htail
      exact htail List.mem_cons_self

/-- Nothing of a path of two fields or more is lost. -/
theorem splits_of_fields {p f : Str} {L : List Str} (h : fields slash p = L ++ [f]) (hL : L ≠ []) : Splits p := by
  have hfields : ∀ g ∈ L ++ [f], IsField slash g := fun g hg => isField_of_mem g (h ▸ hg)
  have hf : IsField slash f := hfields f (List.mem_append_right _ List.mem_cons_self)
  have hrest : ∀ g ∈ L, IsField slash g := fun g hg => hfields g (List.mem_append_left _ hg)
  have hne : L ++ [f] ≠ [] := List.concat_ne_nil _ _
  have hagain := normalise_spelled (isRoot_root p) hne hfields
  have hx := Internal.normalise_spelled (isRoot_root p) hrest
  have hnormalise : normalise p = root p ++ [slash].intercalate L ++ slash :: f := by
    rw [normalise_eq, h, intercalate_concat hL, List.append_assoc, List.append_assoc, List.singleton_append]
  obtain ⟨y, a, ha, hy⟩ := exists_intercalate_eq_concat hL hrest
  have hxne : root p ++ [slash].intercalate L ≠ [] := by
    rw [hy, ← List.append_assoc]
    exact List.concat_ne_nil _ _
  have hend : ¬[slash] <:+ root p ++ [slash].intercalate L := by
    rw [hy, ← List.append_assoc]
    rintro ⟨t, ht⟩
    exact ha (List.append_singleton_inj.mp ht).2.symm
  have hsplit := split_of_eq hnormalise hxne hf.2
  have hspelled : normalise (normalise p) = normalise p := by
    rw [normalise_eq p, h]
    exact hagain
  refine ⟨?_, Or.inr ⟨root p ++ [slash].intercalate L, ?_, ?_⟩, ?_⟩
  · rw [basename, hsplit]
    exact hf.2
  · rw [basename, hsplit]
    exact hnormalise
  · rw [dirname, hsplit, if_neg hxne]
  · rw [dirname, basename, hsplit, join_field hx hxne hf, if_neg hend, ← hnormalise, hspelled, hspelled]

/-- Splitting a path loses nothing exactly if it is relative or has two fields at least. -/
theorem splits_iff (p : Str) : Splits p ↔ (isAbs p → 2 ≤ (fields slash p).length) := by
  have hfew : (fields slash p).length < 2 → (isAbs p = false ↔ (isAbs p → 2 ≤ (fields slash p).length)) := by
    intro hlt
    cases isAbs p with
    | false => exact iff_of_true rfl fun h => absurd h Bool.false_ne_true
    | true => exact iff_of_false (Bool.false_ne_true ∘ Eq.symm) fun h => absurd (h rfl) (by omega)
  rcases List.eq_nil_or_concat' (fields slash p) with h | ⟨L, f, h⟩
  · rw [splits_of_fields_nil h, hfew (by rw [h]; exact Nat.zero_lt_two)]
  · by_cases hL : L = []
    · rw [hL, List.nil_append] at h
      rw [splits_of_fields_singleton h, hfew (by rw [h]; exact Nat.one_lt_two)]
    · have hpos := List.length_pos_of_ne_nil hL
      refine iff_of_true (splits_of_fields h hL) fun _ => ?_
      rw [h, List.length_append, List.length_singleton]
      omega

/-- `"/foo"` is split into `""` and `"/foo"`. -/
theorem not_forall_splits : ¬∀ p : Str, p = [slash] ∨ ¬[slash] <:+ p → Splits p := by
  intro h
  have hsplits := h (text "/foo") (Or.inr (by decide))
  rw [splits_of_fields_singleton (f := text "foo") (by decide), isAbs_eq] at hsplits
  exact absurd hsplits (by decide)

end Path

end Chloride
