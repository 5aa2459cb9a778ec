import Chloride.Containers.Fields
import Chloride.Containers.Walks
import Chloride.Objects.StringBytes

/-!
# Paths

`stdlib/path/init.ar` where `platform.os` is not `"windows"`: a path is a string of bytes, and what is done
to it is string replacement, slices and splitting. `normalise_eq` says what a normalised path is made of: a
root and the fields between the separators. Everything else goes through it.
-/

namespace Chloride

namespace Path

open Splitting Fields

/-- A string. -/
abbrev Str := List UInt8

/-- `__sep__` -/
def slash : UInt8 := byte '/'

/-- `"."` -/
def dot : Str := [byte '.']

/-- `".."` -/
def dotDot : Str := [byte '.', byte '.']

/-! ## Internal helpers -/

/-- `while ("//" in p) do p = p.replace("//", "/")` -/
def collapse (p : Str) : Str :=
  if [slash, slash] <:+: p then collapse (replaced [slash, slash] [slash] p) else p
termination_by p.length
decreasing_by exact length_replaced_lt ‹_› (Nat.lt_succ_self _)

/-- A path that starts with two separators and not with three. -/
def Unc (p : Str) : Prop := [slash, slash] <+: p ∧ ¬[slash, slash, slash] <+: p

instance (p : Str) : Decidable (Unc p) := inferInstanceAs (Decidable (_ ∧ _))

namespace Internal

/-- `__normalise__` -/
def normalise (p : Str) : Str :=
  if Unc p then slash :: collapse p else collapse p

/-- `__is_abs__` -/
def isAbs (p : Str) : Bool := [slash].isPrefixOf (normalise p)

/-- `__strip_trailing_sep__` -/
def stripTrailingSep (p : Str) : Str :=
  if 1 < p.length ∧ [slash] <:+ p then stripTrailingSep (p.take (p.length - 1)) else p
termination_by p.length
decreasing_by
  rw [List.length_take]
  omega

/-- A round of the loop of `__join`. -/
def joinStep (result part : Str) : Str :=
  let part := normalise part
  if isAbs part then part
  else if result = [] ∨ [slash] <:+ result then result ++ part
  else result ++ [slash] ++ part

/-- `__join` -/
def join (parts : List Str) : Str := stripTrailingSep (normalise (parts.foldl joinStep []))

end Internal

/-! ## The functions -/

def normalise (p : Str) : Str := Internal.stripTrailingSep (Internal.normalise p)

/-- `join(*parts)` -/
def join (parts : List Str) : Str := Internal.join parts

/-- The loop of `split`, from an index down to the one where it stops, which is left out. -/
def lastSep (p : Str) : ℕ → Option ℕ
  | 0 => none
  | i + 1 => if p[i + 1]? = some slash then some (i + 1) else lastSep p i

/-- The result is a tuple of head and tail. -/
def split (p : Str) : Str × Str :=
  let p := Internal.stripTrailingSep (Internal.normalise p)
  match lastSep p (p.length - 1) with
  | none => ([], p)
  | some idx => (if idx = 0 then [slash] else p.take idx, p.drop (idx + 1))

def dirname (p : Str) : Str := (split p).1

def basename (p : Str) : Str := (split p).2

def parts (p : Str) : List Str :=
  let p := Internal.stripTrailingSep (Internal.normalise p)
  let abs := Internal.isAbs p
  let result : List Str := if abs then [[slash]] else []
  let p := if abs then p.tail else p
  result ++ (allPieces [slash] p).filter (· ≠ [])

/-- A round of the loop of `resolve`. -/
def resolveStep (abs : Bool) (stack : List Str) (seg : Str) : List Str :=
  if seg = [] ∨ seg = dot then stack
  else if seg = dotDot then
    if 0 < stack.length then stack.dropLast
    else if !abs then stack ++ [dotDot]
    else stack
  else stack ++ [seg]

/-- `resolve(*parts)` -/
def resolve (parts : List Str) : Str :=
  let p := Internal.join parts
  let abs := Internal.isAbs p
  let p := if abs then p.tail else p
  let stack := (allPieces [slash] p).foldl (resolveStep abs) []
  let result := [slash].intercalate stack
  if abs then slash :: result
  else if result = [] then dot
  else result

/-- What the functions throw. -/
inductive Thrown where
  | valueError (message : Str)
  deriving DecidableEq

/-- The bytes of a text without characters beyond ASCII. -/
def text (s : String) : Str := s.toList.map byte

def relativeTo (p base : Str) : Except Thrown Str :=
  let p := resolve [p]
  let base := resolve [base]
  if ¬base <+: p then
    .error (.valueError (text "'" ++ p ++ text "' is not relative to '" ++ base ++ text "'"))
  else
    let rest := p.drop base.length
    let rest := if [slash] <+: rest then rest.tail else rest
    .ok (if rest = [] then dot else rest)

def isRelativeTo (p base : Str) : Bool :=
  match relativeTo p base with
  | .ok _ => true
  | .error _ => false

/-- The loop of `common_prefix` over the segments of `ref` from the one at index `i` on. -/
def commonLoop (splitPaths : List (List Str)) : ℕ → List Str → List Str
  | _, [] => []
  | i, seg :: rest =>
    if splitPaths.any fun sp => i ≥ sp.length || sp[i]? ≠ some seg then []
    else seg :: commonLoop splitPaths (i + 1) rest

def commonPrefix (paths : List Str) : Str :=
  match paths.map fun p => parts (resolve [p]) with
  | [] => []
  | ref :: splitPaths =>
    let common := commonLoop (ref :: splitPaths) 0 ref
    if common.length = 0 then []
    else if common.length = 1 ∧ (common.headD [] = [slash] ∨ text ":/" <:+ common.headD []) then
      common.headD []
    else [slash].intercalate common

/-! ## What a path is normalised to -/

theorem prefix_iff_head? {p : Str} : [slash] <+: p ↔ p.head? = some slash := by
  cases p with
  | nil => exact ⟨fun h => absurd (List.prefix_nil.mp h) (List.cons_ne_nil _ _), fun h => nomatch h⟩
  | cons a p =>
    rw [List.cons_prefix_cons, List.head?_cons, Option.some.injEq]
    exact ⟨fun h => h.1.symm, fun h => ⟨h.symm, List.nil_prefix⟩⟩

theorem not_infix_collapse (p : Str) : ¬[slash, slash] <:+: collapse p := by
  fun_induction collapse p with
  | case1 p h ih => exact ih
  | case2 p h => exact h

theorem cut_collapse (p : Str) : cut slash (collapse p) = cut slash p := by
  fun_induction collapse p with
  | case1 p h ih => rw [ih, cut_replaced]
  | case2 p h => rfl

theorem head?_collapse (p : Str) : (collapse p).head? = p.head? := by
  fun_induction collapse p with
  | case1 p h ih => rw [ih, head?_replaced]
  | case2 p h => rfl

theorem Unc.head? {p : Str} (h : Unc p) : p.head? = some slash :=
  prefix_iff_head?.mp (List.IsPrefix.trans ⟨[slash], rfl⟩ h.1)

namespace Internal

theorem head?_normalise (p : Str) : (normalise p).head? = p.head? := by
  rw [normalise]
  split
  · rename_i h
    rw [List.head?_cons, h.head?]
  · exact head?_collapse p

theorem isAbs_eq (p : Str) : isAbs p = decide (p.head? = some slash) := by
  rw [isAbs, Bool.eq_iff_iff, List.isPrefixOf_iff_prefix, prefix_iff_head?, head?_normalise, decide_eq_true_eq]

theorem isAbs_iff {p : Str} : isAbs p = true ↔ p.head? = some slash := by
  rw [isAbs_eq, decide_eq_true_eq]

/-- An absolute path is a separator and the rest of it. -/
theorem eq_cons_of_isAbs {p : Str} (h : isAbs p = true) : p = slash :: p.tail := by
  have hhead := isAbs_iff.mp h
  cases p with
  | nil => cases hhead
  | cons a t => rw [Option.some.inj hhead, List.tail_cons]

theorem fields_normalise (p : Str) : fields slash (normalise p) = fields slash p := by
  rw [normalise]
  split
  · rw [fields_sep, fields, cut_collapse, fields]
  · rw [fields, cut_collapse, fields]

/-- Normalising keeps what marks a path as one of a network. -/
theorem unc_normalise {p : Str} : Unc (normalise p) ↔ Unc p := by
  rw [normalise]
  split
  · rename_i h
    refine iff_of_true ⟨?_, ?_⟩ h
    · rw [List.cons_prefix_cons]
      exact ⟨rfl, prefix_iff_head?.mpr ((head?_collapse p).trans h.head?)⟩
    · rw [List.cons_prefix_cons]
      exact fun hthree => not_infix_collapse p hthree.2.isInfix
  · rename_i h
    exact iff_of_false (fun hunc => not_infix_collapse p hunc.1.isInfix) h

theorem stripTrailingSep_concat (x : Str) {a : UInt8} (ha : a ≠ slash) :
    stripTrailingSep (x ++ [a]) = x ++ [a] := by
  have hend : ¬[slash] <:+ x ++ [a] := by
    rw [List.suffix_concat_iff]
    rintro (h | ⟨t, h, -⟩)
    · exact absurd h (List.cons_ne_nil _ _)
    · have hlast := congrArg List.getLast? h
      rw [List.getLast?_append, List.getLast?_singleton] at hlast
      exact ha (Option.some.inj hlast).symm
  rw [stripTrailingSep, if_neg fun h => hend h.2]

theorem stripTrailingSep_slash {x : Str} (hx : x ≠ []) : stripTrailingSep (x ++ [slash]) = stripTrailingSep x := by
  have hpos := List.length_pos_of_ne_nil hx
  have hlength : (x ++ [slash]).length = x.length + 1 := List.length_append
  rw [stripTrailingSep, if_pos ⟨by omega, List.suffix_append _ _⟩, hlength, Nat.add_sub_cancel, List.take_left]

/-- Behind fields, separators are stripped. -/
theorem stripTrailingSep_intercalate (x : Str) {L : List Str} (hL : L ≠ []) (h : ∀ f ∈ L, IsField slash f) :
    stripTrailingSep (x ++ [slash].intercalate L) = x ++ [slash].intercalate L ∧
      stripTrailingSep (x ++ [slash].intercalate L ++ [slash]) = x ++ [slash].intercalate L := by
  obtain ⟨y, a, ha, hy⟩ := exists_intercalate_eq_concat hL h
  have hstrip : stripTrailingSep (x ++ [slash].intercalate L) = x ++ [slash].intercalate L := by
    rw [hy, ← List.append_assoc, stripTrailingSep_concat _ ha]
  have hne : x ++ [slash].intercalate L ≠ [] := by
    rw [hy, ← List.append_assoc]
    exact List.concat_ne_nil _ _
  exact ⟨hstrip, by rw [stripTrailingSep_slash hne, hstrip]⟩

end Internal

open Internal (isAbs isAbs_iff isAbs_eq eq_cons_of_isAbs)

/-- What a path begins with: a separator, if it is absolute. -/
def lead (p : Str) : Str := if isAbs p then [slash] else []

/-- What a normalised path begins with. -/
def root (p : Str) : Str := if Unc p ∧ fields slash p ≠ [] then slash :: lead p else lead p

/-- A list without two separators side by side is a separator if it begins with one, its fields, and
maybe a separator behind them. -/
theorem collapse_eq (p : Str) :
    ∃ x, (x = [] ∨ x = [slash] ∧ (fields slash p ≠ [])) ∧
      collapse p = lead p ++ [slash].intercalate (fields slash p) ++ x := by
  have hhead := head?_collapse p
  have hcut := eq_of_not_infix (not_infix_collapse p)
  rw [cut_collapse] at hcut
  rw [lead, isAbs_eq, ← hhead, fields]
  rcases hrun : (cut slash p).1 with - | ⟨a, run⟩
  · rw [hrun, List.nil_append] at hcut
    rw [push_nil]
    rcases hrest : (cut slash p).2 with - | ⟨f, rest⟩
    · rw [hrest] at hcut
      rcases hcut with hcut | hcut <;> rw [hcut] <;> exact ⟨[], Or.inl rfl, rfl⟩
    · rw [hrest, spread_cons, List.cons_append, append_spread] at hcut
      rcases hcut with hcut | hcut
      · refine ⟨[], Or.inl rfl, ?_⟩
        rw [hcut, List.append_nil]
        rfl
      · refine ⟨[slash], Or.inr ⟨rfl, List.cons_ne_nil _ _⟩, ?_⟩
        rw [hcut]
        rfl
  · have ha : a ≠ slash := by
      have hmem := @not_mem_cut _ _ slash p
      rw [hrun] at hmem
      exact fun ha => hmem (ha ▸ List.mem_cons_self)
    have hstart : ∀ t, ¬(a :: t).head? = some slash := fun t h => ha (Option.some.inj h)
    rw [hrun, append_spread] at hcut
    rw [push_of_ne_nil (List.cons_ne_nil _ _), ← append_spread]
    rw [← append_spread] at hcut
    rcases hcut with hcut | hcut
    · refine ⟨[], Or.inl rfl, ?_⟩
      rw [hcut, List.cons_append, decide_eq_false (hstart _), List.append_nil]
      rfl
    · refine ⟨[slash], Or.inr ⟨rfl, List.cons_ne_nil _ _⟩, ?_⟩
      rw [hcut, List.cons_append, List.cons_append, decide_eq_false (hstart _)]
      rfl

/-- A normalised path is a root and the fields of the path. -/
theorem normalise_eq (p : Str) : normalise p = root p ++ [slash].intercalate (fields slash p) := by
  obtain ⟨x, hx, hcollapse⟩ := collapse_eq p
  rw [normalise, Internal.normalise, hcollapse]
  by_cases hfields : fields slash p = []
  · -- there is a root only, and one separator of it is left
    have hx : x = [] := hx.resolve_right fun h => h.2 hfields
    have hroot : root p = lead p := if_neg fun h => h.2 hfields
    have hone : Internal.stripTrailingSep [slash] = [slash] := by
      rw [Internal.stripTrailingSep, if_neg fun h => absurd h.1 (lt_irrefl 1)]
    rw [hx, hroot, hfields, lead]
    by_cases habs : isAbs p
    · rw [if_pos habs]
      split
      · exact (Internal.stripTrailingSep_slash (List.cons_ne_nil _ _)).trans hone
      · exact hone
    · have hunc : ¬Unc p := fun h => habs (isAbs_iff.mpr h.head?)
      rw [if_neg habs, if_neg hunc, Internal.stripTrailingSep]
      rfl
  · have hstrip := Internal.stripTrailingSep_intercalate (root p) hfields isField_of_mem
    have hroot : (if Unc p then slash :: (lead p ++ [slash].intercalate (fields slash p) ++ x) else
        lead p ++ [slash].intercalate (fields slash p) ++ x) =
          root p ++ [slash].intercalate (fields slash p) ++ x := by
      rw [root]
      by_cases hunc : Unc p
      · rw [if_pos hunc, if_pos (And.intro hunc hfields)]
        rfl
      · have hboth : ¬(Unc p ∧ fields slash p ≠ []) := fun h => hunc h.1
        rw [if_neg hunc, if_neg hboth]
    rw [hroot]
    rcases hx with rfl | ⟨rfl, -⟩
    · rw [List.append_nil, hstrip.1]
    · exact hstrip.2

theorem head?_root (p : Str) : (root p).head? = (lead p).head? := by
  rw [root]
  split
  · rename_i h
    rw [lead, if_pos (isAbs_iff.mpr h.1.head?)]
    rfl
  · rfl

/-- Being absolute is kept. -/
theorem isAbs_normalise (p : Str) : isAbs (normalise p) = isAbs p := by
  have hfields : ([slash].intercalate (fields slash p)).head? ≠ some slash := head?_intercalate isField_of_mem
  have hhead := head?_root p
  rw [normalise_eq, isAbs_eq, List.head?_append, hhead, lead]
  by_cases habs : isAbs p
  · rw [if_pos habs, habs]
    rfl
  · rw [if_neg habs, Bool.eq_false_of_not_eq_true habs]
    exact decide_eq_false hfields

theorem fields_lead (p x : Str) : fields slash (lead p ++ x) = fields slash x := by
  rw [lead]
  split
  · exact fields_sep x
  · rfl

theorem fields_root (p x : Str) : fields slash (root p ++ x) = fields slash x := by
  rw [root]
  split
  · rw [List.cons_append, fields_sep, fields_lead]
  · exact fields_lead p x

theorem fields_normalised (p : Str) : fields slash (normalise p) = fields slash p := by
  rw [normalise_eq, fields_root, fields_intercalate isField_of_mem]

/-- A part of its own is joined to what it is normalised to. -/
theorem join_singleton (p : Str) : Internal.join [p] = normalise p := by
  have hfold : [p].foldl Internal.joinStep [] = Internal.normalise p := by
    rw [List.foldl_cons, List.foldl_nil, Internal.joinStep]
    simp
  have habs : isAbs (Internal.normalise p) = isAbs p := by rw [isAbs_eq, isAbs_eq, Internal.head?_normalise]
  have hroot : root (Internal.normalise p) = root p := by
    simp only [root, lead, Internal.unc_normalise, Internal.fields_normalise, habs]
  have hnormalise : normalise (Internal.normalise p) = normalise p := by
    rw [normalise_eq, hroot, Internal.fields_normalise, ← normalise_eq]
  rw [Internal.join, hfold]
  exact hnormalise

end Path

end Chloride
