import Chloride.Stdlib.PathResolution

/-!
# Paths below other ones

`relative_to`, `is_relative_to` and `common_prefix` of `stdlib/path/init.ar`. A resolved path is a root and a
list of segments, `"."` and `"/"` being those of none. The first two look whether one resolved string begins
with the other, and the last one joins the root `"/"` with a separator too: `relates_iff` and `common_iff` say
where that is what is meant by the segments.
-/

namespace Chloride

namespace Path

open Splitting Fields Walks
open Internal (isAbs isAbs_iff isAbs_eq eq_cons_of_isAbs)

/-! ## The segments of a resolved path -/

/-- The segments of a resolved path: `"."` has none. -/
def segmentList (p : Str) : List Str := if p = dot then [] else segments p

/-- The relative path of segments. -/
def pathOf (segs : List Str) : Str := if segs = [] then dot else [slash].intercalate segs

/-- What is left of a path on the stack of `resolve`. -/
def stack (p : Str) : List Str := piled (isAbs p) (reduce ((fields slash p).map move))

theorem resolve_stack (p : Str) : resolve [p] = shown (isAbs p) (stack p) := resolve_eq p

theorem stack_eq_foldl (p : Str) : stack p = (fields slash p).foldl (resolveStep (isAbs p)) [] := by
  rw [← piled_start (isAbs p), foldl_resolveStep]
  rfl

/-- The stack is what is left of itself. -/
theorem foldl_stack (p : Str) : (stack p).foldl (resolveStep (isAbs p)) [] = stack p := by
  rw [← piled_start (isAbs p), foldl_resolveStep]
  change piled (isAbs p) (reduce ((stack p).map move)) = stack p
  rw [stack, reduce_piled isName_of_mem, piled_settle]

theorem isField_stack (p : Str) : ∀ f ∈ stack p, IsField slash f := isField_piled isName_of_mem

theorem dot_not_mem_stack (p : Str) : dot ∉ stack p := dot_not_mem_piled isName_of_mem

theorem segmentList_resolve (p : Str) : segmentList (resolve [p]) = stack p := by
  rw [segmentList]
  split
  · rename_i hdot
    rw [resolve_eq, shown_eq_dot_iff isName_of_mem] at hdot
    exact hdot.2.symm
  · rename_i hdot
    rw [resolve_eq] at hdot ⊢
    exact segments_shown isName_of_mem hdot

theorem intercalate_stack_eq_nil_iff {p : Str} : [slash].intercalate (stack p) = [] ↔ stack p = [] :=
  intercalate_eq_nil_iff isName_of_mem

/-- A resolved path in its two parts. -/
theorem resolve_of_isAbs {p : Str} (h : isAbs p = true) : resolve [p] = slash :: [slash].intercalate (stack p) := by
  rw [resolve_stack, h]
  rfl

theorem resolve_of_relative {p : Str} (h : isAbs p = false) : resolve [p] = pathOf (stack p) := by
  rw [resolve_stack, h, shown, if_neg Bool.false_ne_true, pathOf]
  simp only [intercalate_stack_eq_nil_iff]

/-! ## Joining the rest again -/

theorem fields_joinStep (b q : Str) (hq : isAbs q = false) :
    fields slash (Internal.joinStep (Internal.normalise b) q) = fields slash b ++ fields slash q ∧
      isAbs (Internal.joinStep (Internal.normalise b) q) = isAbs b := by
  have hhead := Internal.head?_normalise b
  have hfields := Internal.fields_normalise b
  have hqabs : isAbs (Internal.normalise q) = false := by
    rw [isAbs_eq, Internal.head?_normalise, ← isAbs_eq, hq]
  have hqhead : q.head? ≠ some slash := fun h => Bool.false_ne_true (hq.symm.trans (isAbs_iff.mpr h))
  rw [Internal.joinStep]
  simp only [hqabs, Bool.false_eq_true, if_false]
  generalize Internal.normalise b = x at hhead hfields
  rw [← hfields, isAbs_eq b, ← hhead]
  by_cases hx : x = []
  · rw [if_pos (Or.inl hx), hx, List.nil_append, Internal.fields_normalise, isAbs_eq, Internal.head?_normalise]
    exact ⟨rfl, decide_eq_false hqhead⟩
  · have hcons : ∀ t, (x ++ t).head? = x.head? := fun t => List.head?_append_of_ne_nil _ hx
    by_cases hend : [slash] <:+ x
    · obtain ⟨y, rfl⟩ := hend
      rw [if_pos (Or.inr (List.suffix_append _ _)), isAbs_eq, hcons, fields_concat, List.append_assoc,
        List.singleton_append, fields_append, Internal.fields_normalise]
      exact ⟨rfl, rfl⟩
    · have hor : ¬(x = [] ∨ [slash] <:+ x) := fun h => h.elim hx hend
      rw [if_neg hor, isAbs_eq, List.append_assoc, hcons, List.singleton_append, fields_append,
        Internal.fields_normalise]
      exact ⟨rfl, rfl⟩

theorem joinStep_nil (b : Str) : Internal.joinStep [] b = Internal.normalise b := by
  rw [Internal.joinStep]
  simp

theorem join_pair (b q : Str) : join [b, q] = normalise (Internal.joinStep (Internal.normalise b) q) := by
  rw [join, Internal.join, List.foldl_cons, List.foldl_cons, List.foldl_nil, joinStep_nil, normalise]

/-- A path joined with an absolute one is that one. -/
theorem fields_join_of_isAbs (b : Str) {q : Str} (hq : isAbs q = true) :
    isAbs (join [b, q]) = true ∧ fields slash (join [b, q]) = fields slash q := by
  have habs : isAbs (Internal.normalise q) = true := by
    rw [isAbs_eq, Internal.head?_normalise, ← isAbs_eq, hq]
  have hstep : Internal.joinStep (Internal.normalise b) q = Internal.normalise q := by
    rw [Internal.joinStep]
    exact if_pos habs
  rw [join_pair, hstep, isAbs_normalise, fields_normalised, Internal.fields_normalise]
  exact ⟨habs, rfl⟩

/-- A path joined with a relative one has the fields of both. -/
theorem fields_join_of_relative (b : Str) {q : Str} (hq : isAbs q = false) :
    isAbs (join [b, q]) = isAbs b ∧ fields slash (join [b, q]) = fields slash b ++ fields slash q := by
  obtain ⟨hfields, habs⟩ := fields_joinStep b q hq
  rw [join_pair, isAbs_normalise, fields_normalised]
  exact ⟨habs, hfields⟩

/-- What is joined leads where the second path leads from the place of the first one. -/
theorem location_join (cwd : List Str) (b q : Str) : location cwd (join [b, q]) = location (location cwd b) q := by
  cases hq : isAbs q with
  | true =>
    obtain ⟨habs, hfields⟩ := fields_join_of_isAbs b hq
    rw [location_eq, location_eq, habs, hfields, hq]
    rfl
  | false =>
    obtain ⟨habs, hfields⟩ := fields_join_of_relative b hq
    rw [location_eq, location_eq (location cwd b), location_eq cwd b, habs, hfields, hq, place_append]
    rfl

/-- A base joined with a relative path is resolved to what is left of the segments of both. -/
theorem resolve_join (b q : Str) (hq : isAbs q = false) :
    resolve [join [b, q]] = shown (isAbs b) ((fields slash q).foldl (resolveStep (isAbs b)) (stack b)) := by
  obtain ⟨habs, hfields⟩ := fields_join_of_relative b hq
  rw [resolve_stack, habs, stack_eq_foldl, habs, hfields, List.foldl_append, ← stack_eq_foldl]

/-- What is joined with the rest of a path is the path. -/
theorem resolve_join_pathOf {p base : Str} (habs : isAbs base = isAbs p) {rest : List Str}
    (h : stack p = stack base ++ rest) : resolve [join [base, pathOf rest]] = resolve [p] := by
  have hfield : ∀ f ∈ rest, IsField slash f := fun f hf => isField_stack p f (h ▸ List.mem_append_right _ hf)
  have hfold : rest.foldl (resolveStep (isAbs base)) (stack base) = stack p := by
    have hall := foldl_stack p
    have hbase := foldl_stack base
    rw [h, List.foldl_append, ← habs, hbase] at hall
    rw [hall, h]
  rw [resolve_stack p, ← habs]
  by_cases hrest : rest = []
  · have hskip : resolveStep (isAbs base) (stack base) dot = stack base := if_pos (Or.inr rfl)
    rw [pathOf, if_pos hrest, resolve_join _ _ (by rw [isAbs_eq]; rfl), isField_dot.fields_eq, List.foldl_cons,
      hskip, List.foldl_nil, h, hrest, List.append_nil]
  · have hrel : isAbs ([slash].intercalate rest) = false := by
      rw [isAbs_eq]
      exact decide_eq_false (head?_intercalate hfield)
    rw [pathOf, if_neg hrest, resolve_join _ _ hrel, fields_intercalate hfield, hfold]

/-! ## Containment -/

/-- The path `p` is `base` or below it. -/
def Within (p base : Str) : Prop :=
  isAbs (resolve [base]) = isAbs (resolve [p]) ∧ segmentList (resolve [base]) <+: segmentList (resolve [p])

theorem within_iff {p base : Str} : Within p base ↔ isAbs base = isAbs p ∧ stack base <+: stack p := by
  rw [Within, isAbs_resolve, isAbs_resolve, segmentList_resolve, segmentList_resolve]

/-- What `is_relative_to` and `relative_to` should do. -/
structure Relates (p base : Str) : Prop where
  decides : isRelativeTo p base = true ↔ Within p base
  rest : Within p base → ∃ rest, relativeTo p base = .ok rest ∧
    rest = pathOf ((segmentList (resolve [p])).drop (segmentList (resolve [base])).length) ∧
    resolve [join [base, rest]] = resolve [p]
  throws : ¬Within p base → ∃ e, relativeTo p base = .error e

section

variable {p base : Str}

theorem isRelativeTo_iff : isRelativeTo p base = true ↔ resolve [base] <+: resolve [p] := by
  rw [isRelativeTo, relativeTo]
  by_cases h : resolve [base] <+: resolve [p]
  · simp [h]
  · simp [h]

/-- A base that the path does not begin with. -/
theorem relates_of_not_initial (h : ¬resolve [base] <+: resolve [p]) : Relates p base ↔ ¬Within p base := by
  have hthrow : ∃ e, relativeTo p base = .error e := ⟨_, if_pos h⟩
  constructor
  · intro hrelates hwithin
    exact h (isRelativeTo_iff.mp (hrelates.decides.mpr hwithin))
  · intro hwithin
    exact ⟨by rw [isRelativeTo_iff]; exact iff_of_false h hwithin, fun hw => absurd hw hwithin, fun _ => hthrow⟩

/-- What `relative_to` gives for a path that begins with the base. -/
theorem relativeTo_of_eq {rest : Str} (h : resolve [p] = resolve [base] ++ rest) :
    relativeTo p base = .ok (if (if [slash] <+: rest then rest.tail else rest) = [] then dot
      else if [slash] <+: rest then rest.tail else rest) := by
  have hinitial : resolve [base] <+: resolve [p] := ⟨rest, h.symm⟩
  rw [relativeTo, if_neg (not_not.mpr hinitial), h, List.drop_left]

/-- What is behind the segments of the base is given. -/
theorem relates_of_within {segs : List Str} (habs : isAbs base = isAbs p) (h : stack p = stack base ++ segs)
    (hinitial : resolve [base] <+: resolve [p]) (hrest : relativeTo p base = .ok (pathOf segs)) : Relates p base := by
  have hwithin : Within p base := within_iff.mpr ⟨habs, segs, h.symm⟩
  refine ⟨?_, fun _ => ⟨pathOf segs, hrest, ?_, resolve_join_pathOf habs h⟩, fun hno => absurd hwithin hno⟩
  · rw [isRelativeTo_iff]
    exact iff_of_true hinitial hwithin
  · rw [segmentList_resolve, segmentList_resolve, h, List.drop_left]

/-- What the rest of a path begins with, where it is given by segments. -/
theorem relativeTo_spread {segs : List Str} (hsegs : ∀ f ∈ segs, IsField slash f)
    (h : resolve [p] = resolve [base] ++ spread slash segs) : relativeTo p base = .ok (pathOf segs) := by
  rw [relativeTo_of_eq h, pathOf]
  cases segs with
  | nil => rfl
  | cons f segs =>
    have hne : f ++ spread slash segs ≠ [] := fun hnil => (hsegs f List.mem_cons_self).1 (List.append_eq_nil_iff.mp hnil).1
    have hstart : [slash] <+: spread slash (f :: segs) := ⟨f ++ spread slash segs, (spread_cons _ _).symm⟩
    have htail : (spread slash (f :: segs)).tail = f ++ spread slash segs := by rw [spread_cons]; rfl
    rw [if_pos hstart, htail, if_neg hne, if_neg (List.cons_ne_nil _ _), append_spread]

/-! The base is `"."`, `"/"`, or a path of segments. -/

/-- No path but `"."` itself begins with `"."` as it should. -/
theorem relates_dot (hbase : resolve [base] = dot) :
    Relates p base ↔ resolve [p] = dot ∨ isAbs (resolve [p]) = true := by
  have hroot : isAbs base = false ∧ stack base = [] := by
    rw [resolve_eq, shown_eq_dot_iff isName_of_mem] at hbase
    exact hbase
  rw [isAbs_resolve]
  cases habs : isAbs p with
  | true =>
    have hno : ¬resolve [base] <+: resolve [p] := by
      rw [hbase, resolve_of_isAbs habs]
      exact fun h => absurd (List.cons_prefix_cons.mp h).1 (by decide)
    have hout : ¬Within p base := by
      rw [within_iff, hroot.1, habs]
      exact fun h => Bool.false_ne_true h.1
    exact iff_of_true ((relates_of_not_initial hno).mpr hout) (Or.inr rfl)
  | false =>
    have hwithin : Within p base := within_iff.mpr ⟨hroot.1.trans habs.symm, by rw [hroot.2]; exact List.nil_prefix⟩
    have hpath : resolve [p] = pathOf (stack p) := resolve_of_relative habs
    constructor
    · intro hrelates
      obtain ⟨rest, hrest, heq, -⟩ := hrelates.rest hwithin
      rw [segmentList_resolve, segmentList_resolve, hroot.2, List.length_nil, List.drop_zero, ← hpath] at heq
      have hinitial := isRelativeTo_iff.mp (hrelates.decides.mpr hwithin)
      obtain ⟨x, hx⟩ := hinitial
      rw [hbase] at hx
      -- what is given is `"."` or shorter than the path
      have hgiven := @relativeTo_of_eq p base _ (hx.symm.trans (by rw [hbase]))
      have hshort : (if [slash] <+: x then x.tail else x).length ≤ x.length := by
        split
        · rw [List.length_tail]
          omega
        · exact le_rfl
      generalize (if [slash] <+: x then x.tail else x) = y at hgiven hshort
      rw [hrest, heq, Except.ok.injEq] at hgiven
      split at hgiven
      · exact Or.inl hgiven
      · exfalso
        have hlength := congrArg List.length hgiven
        have hdot : dot.length = 1 := rfl
        rw [← hx, List.length_append] at hlength
        omega
    · rintro (hdot | h)
      · have hnil : stack p = [] := by
          rw [resolve_eq, shown_eq_dot_iff isName_of_mem] at hdot
          exact hdot.2
        have hsame : resolve [p] = resolve [base] ++ spread slash [] := by rw [hdot, hbase]; rfl
        exact relates_of_within (hroot.1.trans habs.symm) (by rw [hnil, hroot.2]; rfl) ⟨_, hsame.symm⟩
          (relativeTo_spread (fun f hf => absurd hf List.not_mem_nil) hsame)
      · exact absurd h Bool.false_ne_true

/-- Below the root is every absolute path. -/
theorem relates_root (hbase : resolve [base] = [slash]) : Relates p base := by
  have habs : isAbs base = true := by rw [← isAbs_resolve, hbase, isAbs_eq]; rfl
  have hnil : stack base = [] := by
    rw [resolve_of_isAbs habs] at hbase
    exact intercalate_stack_eq_nil_iff.mp (List.cons.inj hbase).2
  cases hp : isAbs p with
  | false =>
    have hno : ¬resolve [base] <+: resolve [p] := by
      rw [hbase, prefix_iff_head?, ← isAbs_iff, isAbs_resolve, hp]
      exact Bool.false_ne_true
    refine (relates_of_not_initial hno).mpr fun h => ?_
    rw [within_iff, habs, hp] at h
    exact Bool.false_ne_true h.1.symm
  | true =>
    have hpath : resolve [p] = resolve [base] ++ [slash].intercalate (stack p) := by
      rw [resolve_of_isAbs hp, hbase]
      rfl
    have hhead : ¬[slash] <+: [slash].intercalate (stack p) := by
      rw [prefix_iff_head?]
      exact head?_intercalate (isField_stack p)
    apply @relates_of_within _ _ (stack p) (habs.trans hp.symm) (by rw [hnil, List.nil_append]) ⟨_, hpath.symm⟩
    rw [relativeTo_of_eq hpath, if_neg hhead, pathOf]
    simp only [intercalate_stack_eq_nil_iff]

/-- A path of segments as a string. -/
theorem resolve_of_stack_ne_nil (h : stack p ≠ []) : resolve [p] = lead p ++ [slash].intercalate (stack p) := by
  rw [lead]
  cases habs : isAbs p with
  | true => exact resolve_of_isAbs habs
  | false => rw [resolve_of_relative habs, pathOf, if_neg h]; rfl

/-- A base of segments is the beginning of what continues it with a separator, or not at all. -/
theorem relates_segments (hbase : stack base ≠ []) :
    Relates p base ↔ ∀ x t, resolve [p] = resolve [base] ++ x :: t → x = slash := by
  have hB := resolve_of_stack_ne_nil hbase
  have hfield := isField_stack base
  have hlead : ∀ {q : Str}, lead q = (if isAbs q then [slash] else []) := rfl
  by_cases hinitial : resolve [base] <+: resolve [p]
  · -- both are relative or both are absolute, and the path has segments too
    obtain ⟨w, hw⟩ := hinitial
    have habs : isAbs base = isAbs p := by
      have hne : resolve [base] ≠ [] := by
        rw [hB]
        exact List.append_ne_nil_of_right_ne_nil _ (mt intercalate_stack_eq_nil_iff.mp hbase)
      rw [← isAbs_resolve base, ← isAbs_resolve p, isAbs_eq, isAbs_eq, ← hw, List.head?_append_of_ne_nil _ hne]
    have hp : stack p ≠ [] := by
      intro hnil
      have hP := resolve_stack p
      rw [hnil, ← habs] at hP
      rw [hB, hP, hlead] at hw
      obtain ⟨y, a, ha, hy⟩ := exists_intercalate_eq_concat hbase hfield
      cases h : isAbs base with
      | true =>
        rw [h, if_pos rfl, hy] at hw
        have hlength := congrArg List.length hw
        simp only [shown, if_true, List.length_append, List.length_cons, List.length_nil,
          List.intercalate_nil] at hlength
        omega
      | false =>
        rw [h, if_neg Bool.false_ne_true, List.nil_append] at hw
        have hdot : [slash].intercalate (stack base) = dot := by
          have hlength := congrArg List.length hw
          have hone : (shown false []).length = 1 := rfl
          rw [hone, List.length_append, hy, List.length_append, List.length_singleton] at hlength
          have hwnil : w = [] := List.length_eq_zero_iff.mp (by omega)
          rw [hwnil, List.append_nil] at hw
          exact hw
        have hstack := fields_intercalate hfield
        rw [hdot, isField_dot.fields_eq] at hstack
        exact dot_not_mem_stack base (hstack ▸ List.mem_cons_self)
    have hP := resolve_of_stack_ne_nil hp
    have hsame : [slash].intercalate (stack base) ++ w = [slash].intercalate (stack p) := by
      have hleads : lead base = lead p := by rw [hlead, hlead, habs]
      rw [hB, hP, hleads, List.append_assoc] at hw
      exact List.append_cancel_left hw
    have hsegs : ∀ segs, stack p = stack base ++ segs → w = spread slash segs := fun segs hsegs => by
      rw [hsegs, intercalate_append hbase] at hsame
      exact List.append_cancel_left hsame
    rw [← hw]
    have hiff : (∀ x t, resolve [base] ++ w = resolve [base] ++ x :: t → x = slash) ↔
        stack base <+: stack p := by
      constructor
      · intro h
        have hfields := fields_intercalate (isField_stack p)
        cases w with
        | nil =>
          rw [List.append_nil] at hsame
          rw [← fields_intercalate hfield, hsame, hfields]
        | cons x t =>
          rw [h x t rfl] at hsame
          rw [← hsame, fields_append, fields_intercalate hfield] at hfields
          exact ⟨_, hfields⟩
      · rintro ⟨segs, hstack⟩ x t hx
        have hspread := hsegs segs hstack.symm
        rw [List.append_cancel_left hx] at hspread
        cases segs with
        | nil => exact absurd hspread (List.cons_ne_nil _ _)
        | cons f segs =>
          rw [spread_cons] at hspread
          exact (List.cons.inj hspread).1
    rw [hiff]
    constructor
    · intro hrelates
      exact (within_iff.mp (hrelates.decides.mp (isRelativeTo_iff.mpr ⟨w, hw⟩))).2
    · rintro ⟨segs, hstack⟩
      have hspread : resolve [p] = resolve [base] ++ spread slash segs := by rw [← hw, hsegs segs hstack.symm]
      exact relates_of_within habs hstack.symm ⟨w, hw⟩
        (relativeTo_spread (fun f hf => isField_stack p f (hstack ▸ List.mem_append_right _ hf)) hspread)
  · refine iff_of_true ((relates_of_not_initial hinitial).mpr ?_) fun x t h => absurd ⟨_, h.symm⟩ hinitial
    rw [within_iff]
    rintro ⟨habs, segs, hstack⟩
    have hp : stack p ≠ [] := by
      rw [← hstack]
      exact List.append_ne_nil_of_left_ne_nil hbase _
    apply hinitial
    rw [hB, resolve_of_stack_ne_nil hp, hlead, hlead, habs, ← hstack, intercalate_append hbase,
      ← List.append_assoc]
    exact List.prefix_append _ _

end

/-- `is_relative_to` and `relative_to` do what they should exactly if the base is not `"."`, or the path is
`"."` or absolute; and the path does not continue another base than `"/"` within its last segment. -/
theorem relates_iff (p base : Str) : Relates p base ↔
    (resolve [base] = dot → resolve [p] = dot ∨ isAbs (resolve [p]) = true) ∧
      (resolve [base] ≠ dot → resolve [base] ≠ [slash] →
        ∀ x t, resolve [p] = resolve [base] ++ x :: t → x = slash) := by
  by_cases hdot : resolve [base] = dot
  · rw [relates_dot hdot]
    exact ⟨fun h => ⟨fun _ => h, fun hne => absurd hdot hne⟩, fun h => h.1 hdot⟩
  · by_cases hroot : resolve [base] = [slash]
    · exact iff_of_true (relates_root hroot) ⟨fun h => absurd h hdot, fun _ hne => absurd hroot hne⟩
    · have hstack : stack base ≠ [] := by
        intro hnil
        have hbase := resolve_stack base
        rw [hnil] at hbase
        cases habs : isAbs base with
        | true => rw [habs] at hbase; exact hroot hbase
        | false => rw [habs] at hbase; exact hdot hbase
      rw [relates_segments hstack]
      exact ⟨fun h => ⟨fun hd => absurd hd hdot, fun _ _ => h⟩, fun h => h.2 hdot hroot⟩

/-- `"/foobar"` is taken to be below `"/foo"`. -/
theorem not_forall_relates : ¬∀ p base, Relates p base := by
  intro h
  have hrelates := h (text "/foobar") (text "/foo")
  have hbar : resolve [text "/foobar"] = text "/foobar" := by
    rw [resolve_eq, isAbs_eq]
    decide
  have hfoo : resolve [text "/foo"] = text "/foo" := by
    rw [resolve_eq, isAbs_eq]
    decide
  have hdecides := hrelates.decides
  rw [isRelativeTo_iff, within_iff, stack, stack, isAbs_eq, isAbs_eq, hbar, hfoo] at hdecides
  exact absurd hdecides (by decide)

/-! ## The common prefix -/

/-- The loop goes on as long as all paths go on in the same way. -/
theorem commonLoop_spec (sps : List (List Str)) (rest done : List Str) (h : ∀ sp ∈ sps, done <+: sp) :
    (∀ sp ∈ sps, done ++ commonLoop sps done.length rest <+: sp) ∧
      ∀ L, L <+: rest → (∀ sp ∈ sps, done ++ L <+: sp) → L <+: commonLoop sps done.length rest := by
  induction rest generalizing done with
  | nil =>
    rw [commonLoop, List.append_nil]
    exact ⟨h, fun L hL _ => hL⟩
  | cons seg rest ih =>
    have hnext : ∀ sp ∈ sps, (done ++ [seg] <+: sp ↔ sp[done.length]? = some seg) := fun sp hsp => by
      obtain ⟨t, rfl⟩ := h sp hsp
      rw [List.prefix_append_right_inj, List.getElem?_append_right le_rfl, Nat.sub_self]
      cases t with
      | nil => exact iff_of_false (fun hp => List.cons_ne_nil _ _ (List.prefix_nil.mp hp)) (Option.some_ne_none _ ∘ Eq.symm)
      | cons a t =>
        rw [List.cons_prefix_cons, List.getElem?_cons_zero, Option.some.injEq]
        exact ⟨fun hp => hp.1.symm, fun hp => ⟨hp.symm, List.nil_prefix⟩⟩
    rw [commonLoop]
    by_cases hall : ∀ sp ∈ sps, done ++ [seg] <+: sp
    · have hstep := ih (done ++ [seg]) hall
      rw [List.length_append, List.length_singleton] at hstep
      have hgo : (sps.any fun sp => decide (done.length ≥ sp.length) || decide (sp[done.length]? ≠ some seg)) = false := by
        rw [List.any_eq_false]
        intro sp hsp
        have hget := (hnext sp hsp).mp (hall sp hsp)
        obtain ⟨hlt, hseg⟩ := List.getElem?_eq_some_iff.mp hget
        simp [hlt, hseg]
      rw [hgo, if_neg Bool.false_ne_true]
      simp only [List.append_assoc, List.singleton_append] at hstep
      refine ⟨hstep.1, fun L hL hcommon => ?_⟩
      cases L with
      | nil => exact List.nil_prefix
      | cons a L =>
        obtain ⟨rfl, htail⟩ := List.cons_prefix_cons.mp hL
        exact List.cons_prefix_cons.mpr ⟨rfl, hstep.2 L htail hcommon⟩
    · have hstop : (sps.any fun sp => decide (done.length ≥ sp.length) || decide (sp[done.length]? ≠ some seg)) = true := by
        push Not at hall
        obtain ⟨sp, hsp, hno⟩ := hall
        rw [List.any_eq_true]
        refine ⟨sp, hsp, ?_⟩
        have hget := mt (hnext sp hsp).mpr hno
        simp [hget]
      rw [hstop, if_pos rfl, List.append_nil]
      refine ⟨h, fun L hL hcommon => ?_⟩
      cases L with
      | nil => exact List.nil_prefix
      | cons a L =>
        obtain ⟨rfl, -⟩ := List.cons_prefix_cons.mp hL
        refine absurd (fun sp hsp => ?_) hall
        exact List.IsPrefix.trans ⟨L, by rw [List.append_assoc, List.singleton_append]⟩ (hcommon sp hsp)

/-- The parts of a resolved absolute path are its root and its segments. -/
theorem parts_resolve {p : Str} (h : isAbs p = true) : parts (resolve [p]) = [slash] :: stack p := by
  have habs : isAbs (normalise (resolve [p])) = true := by rw [isAbs_normalise, isAbs_resolve, h]
  have hcons := eq_cons_of_isAbs habs
  have hfields : fields slash (normalise (resolve [p])).tail = stack p := by
    rw [← fields_sep, ← hcons, fields_normalised, resolve_of_isAbs h, fields_sep,
      fields_intercalate (isField_stack p)]
  change (if isAbs (normalise (resolve [p])) then [[slash]] else []) ++ (allPieces [slash]
    (if isAbs (normalise (resolve [p])) then (normalise (resolve [p])).tail else normalise (resolve [p]))).filter
      (· ≠ []) = _
  rw [habs, if_pos rfl, if_pos rfl, filter_allPieces, hfields, List.singleton_append]

/-- An absolute path. -/
abbrev Absolute := {p : Str // isAbs p = true}

/-- What the common prefix of absolute paths should be. -/
structure Common (paths : List Absolute) (r : Str) : Prop where
  resolved : resolve [r] = r
  absolute : isAbs r = true
  ancestor : ∀ p ∈ paths, segmentList r <+: segmentList (resolve [p.1])
  greatest : ∀ q, isAbs q = true → (∀ p ∈ paths, segmentList (resolve [q]) <+: segmentList (resolve [p.1])) →
    segmentList (resolve [q]) <+: segmentList r

/-- What is common of absolute paths is the root and some segments that are the longest common ones. -/
theorem exists_common (first : Absolute) (rest : List Absolute) :
    ∃ common, commonPrefix ((first :: rest).map (·.1)) =
        (if common = [] then [slash] else slash :: slash :: [slash].intercalate common) ∧
      (∀ p ∈ first :: rest, common <+: stack p.1) ∧
      ∀ L, (∀ p ∈ first :: rest, L <+: stack p.1) → L <+: common := by
  have hparts : ((first :: rest).map (·.1)).map (fun p => parts (resolve [p])) =
      (first :: rest).map fun p => [slash] :: stack p.1 := by
    rw [List.map_map]
    exact List.map_congr_left fun p _ => parts_resolve p.2
  obtain ⟨sps, hsps⟩ : ∃ sps, sps = (first :: rest).map fun p => [slash] :: stack p.1 := ⟨_, rfl⟩
  have hspec := commonLoop_spec sps ([slash] :: stack first.1) [] fun sp _ => List.nil_prefix
  rw [List.length_nil] at hspec
  have hmem : ∀ {P : List Str → Prop}, (∀ sp ∈ sps, P sp) ↔ ∀ p ∈ first :: rest, P ([slash] :: stack p.1) := by
    intro P
    rw [hsps, List.forall_mem_map]
  have hfirst : ∀ L : List Str, L <+: stack first.1 → (∀ p ∈ first :: rest, L <+: stack p.1) →
      [slash] :: L <+: commonLoop sps 0 ([slash] :: stack first.1) := fun L hL hall =>
    hspec.2 _ (List.cons_prefix_cons.mpr ⟨rfl, hL⟩)
      (hmem.mpr fun p hp => List.cons_prefix_cons.mpr ⟨rfl, hall p hp⟩)
  obtain ⟨common, hcommon⟩ : ∃ common, commonLoop sps 0 ([slash] :: stack first.1) = [slash] :: common := by
    obtain ⟨common, h⟩ := hfirst [] List.nil_prefix fun p _ => List.nil_prefix
    exact ⟨common, h.symm⟩
  rw [hcommon] at hspec hfirst
  have hbelow : ∀ p ∈ first :: rest, common <+: stack p.1 := fun p hp =>
    (List.cons_prefix_cons.mp (hmem.mp hspec.1 p hp)).2
  refine ⟨common, ?_, hbelow, fun L hL =>
    (List.cons_prefix_cons.mp (hfirst L (hL first List.mem_cons_self) hL)).2⟩
  have hinitial : commonPrefix ((first :: rest).map (·.1)) =
      (if ([slash] :: common).length = 0 then []
      else if ([slash] :: common).length = 1 ∧ (([slash] :: common).headD [] = [slash] ∨
        text ":/" <:+ ([slash] :: common).headD []) then ([slash] :: common).headD []
      else [slash].intercalate ([slash] :: common)) := by
    rw [← hcommon, hsps, commonPrefix, hparts]
    rfl
  rw [hinitial]
  cases common with
  | nil => rfl
  | cons f common => simp [← append_spread]

/-- The common prefix of absolute paths is what it should be exactly if they have no first segment in common. -/
theorem common_iff (first : Absolute) (rest : List Absolute) :
    Common (first :: rest) (commonPrefix ((first :: rest).map (·.1))) ↔
      ¬∃ seg, ∀ p ∈ first :: rest, (segmentList (resolve [p.1])).head? = some seg := by
  obtain ⟨common, hinitial, hbelow, hgreatest⟩ := exists_common first rest
  have hhead : ∀ (L : List Str) seg, L.head? = some seg ↔ [seg] <+: L := fun L seg => by
    cases L with
    | nil => exact iff_of_false (Option.some_ne_none _ ∘ Eq.symm) fun h => List.cons_ne_nil _ _ (List.prefix_nil.mp h)
    | cons a L =>
      rw [List.head?_cons, Option.some.injEq, List.cons_prefix_cons]
      exact ⟨fun h => ⟨h.symm, List.nil_prefix⟩, fun h => h.1.symm⟩
  simp only [segmentList_resolve, hhead]
  rw [hinitial]
  by_cases hnil : common = []
  · rw [if_pos hnil]
    have habs : isAbs [slash] = true := by rw [isAbs_eq]; rfl
    have hslash : resolve [[slash]] = [slash] := by
      rw [resolve_eq, habs]
      rfl
    have hsegments : segmentList [slash] = [] := rfl
    have hnone : ∀ L, (∀ p ∈ first :: rest, L <+: stack p.1) → L = [] := fun L hL =>
      List.prefix_nil.mp (hnil ▸ hgreatest L hL)
    refine iff_of_true ⟨hslash, habs, fun p _ => ?_, fun q _ hq => ?_⟩ fun ⟨seg, hseg⟩ =>
      List.cons_ne_nil _ _ (hnone _ hseg)
    · rw [hsegments]
      exact List.nil_prefix
    · simp only [segmentList_resolve] at hq ⊢
      rw [hnone _ hq]
      exact List.nil_prefix
  · rw [if_neg hnil]
    obtain ⟨seg, common, rfl⟩ := List.exists_cons_of_ne_nil hnil
    refine iff_of_false (fun h => ?_) (not_not.mpr ⟨seg, fun p hp =>
      List.IsPrefix.trans ⟨common, rfl⟩ (hbelow p hp)⟩)
    -- the second byte of what is resolved is no separator
    have hresolved := h.resolved
    rw [resolve_of_isAbs h.absolute] at hresolved
    have htail := congrArg List.head? (List.cons.inj hresolved).2
    exact head?_intercalate (isField_stack _) htail

/-- The common prefix of `"/a/b"` and `"/a/c"` is `"//a"`. -/
theorem not_forall_common : ¬∀ first rest, Common (first :: rest) (commonPrefix ((first :: rest).map (·.1))) := by
  intro h
  have hb : isAbs (text "/a/b") = true := by rw [isAbs_eq]; rfl
  have hc : isAbs (text "/a/c") = true := by rw [isAbs_eq]; rfl
  obtain ⟨common, hinitial, hbelow, hgreatest⟩ := exists_common ⟨text "/a/b", hb⟩ [⟨text "/a/c", hc⟩]
  have hcommon := h ⟨text "/a/b", hb⟩ [⟨text "/a/c", hc⟩]
  have ha : [text "a"] <+: common := by
    apply hgreatest
    intro p hp
    rw [List.mem_cons, List.mem_singleton] at hp
    rcases hp with rfl | rfl
    · change [text "a"] <+: stack (text "/a/b")
      rw [stack, hb]
      decide
    · change [text "a"] <+: stack (text "/a/c")
      rw [stack, hc]
      decide
  have hne : common ≠ [] := fun hnil => List.cons_ne_nil _ _ (List.prefix_nil.mp (hnil ▸ ha))
  rw [hinitial, if_neg hne] at hcommon
  have hresolved := hcommon.resolved
  rw [resolve_of_isAbs hcommon.absolute] at hresolved
  have htail := congrArg List.head? (List.cons.inj hresolved).2
  exact head?_intercalate (isField_stack _) htail

end Path

end Chloride
