import Chloride.Stdlib.PathSplitting

/-!
# Names, stems and extensions

`splitext`, `ext`, `stem`, `with_name`, `with_stem` and `with_ext` of `stdlib/path/init.ar`. They put a path together
from what `split` gave, with one separator between. `split_cases` says when that is the path again: the part before a
separator that was found is normalised with any name behind it, also where it is the one separator that is left of
`"//"`.
-/

namespace Chloride

namespace Path

open Splitting Fields
open Internal (isAbs isAbs_iff isAbs_eq)

/-- The separator before an extension. -/
def dotByte : UInt8 := byte '.'

/-- The loop of `splitext`, from an index down to the one where it stops, which is left out. -/
def lastDot (base : Str) : ℕ → Option ℕ
  | 0 => none
  | i + 1 => if base[i + 1]? = some dotByte then some (i + 1) else lastDot base i

/-- The result is a tuple of root and extension. -/
def splitext (p : Str) : Str × Str :=
  let base := basename p
  let dir := dirname p
  match lastDot base (base.length - 1) with
  | none => (p, [])
  | some dot =>
    let root := base.take dot
    let e := base.drop dot
    if dir = [] then (root, e) else (dir ++ [slash] ++ root, e)

def ext (p : Str) : Str := (splitext p).2

def stem (p : Str) : Str := (splitext (basename p)).1

def withName (p name : Str) : Str :=
  let d := dirname p
  if d = [] then name else d ++ [slash] ++ name

def withStem (p newStem : Str) : Str := withName p (newStem ++ ext p)

def withExt (p newExt : Str) : Str := withName p (stem p ++ newExt)

/-! ## The last dot -/

/-- A dot that is found is not the first byte, and there is none behind it. -/
theorem lastDot_eq_some {base : Str} {k i : ℕ} (h : lastDot base k = some i) :
    0 < i ∧ base[i]? = some dotByte ∧ ∀ j, i < j → j ≤ k → base[j]? ≠ some dotByte := by
  induction k with
  | zero => cases h
  | succ k ih =>
    rw [lastDot] at h
    split at h
    case isTrue hdot =>
      obtain rfl := Option.some.inj h
      exact ⟨Nat.succ_pos k, hdot, fun j hj hjk => absurd hj (Nat.not_lt.mpr hjk)⟩
    case isFalse hdot =>
      obtain ⟨hpos, hi, hrest⟩ := ih h
      refine ⟨hpos, hi, fun j hj hjk => ?_⟩
      rcases hjk.eq_or_lt with rfl | hlt
      · exact hdot
      · exact hrest j hj (Nat.le_of_lt_succ hlt)

/-- An extension: nothing, or a dot and a text without dots and separators. -/
def IsExtension (e : Str) : Prop := e = [] ∨ ∃ t, e = dotByte :: t ∧ dotByte ∉ t ∧ slash ∉ t

/-- What is behind the last dot of a base is an extension, where a separator is at most its first byte. -/
theorem isExtension_drop {base : Str} (hbase : ∀ i, 0 < i → base[i]? ≠ some slash) {i : ℕ}
    (h : lastDot base (base.length - 1) = some i) : IsExtension (base.drop i) := by
  obtain ⟨hpos, hi, hrest⟩ := lastDot_eq_some h
  have hlt : i < base.length := (List.getElem?_eq_some_iff.mp hi).1
  have hget : base[i] = dotByte := (List.getElem?_eq_some_iff.mp hi).2
  refine Or.inr ⟨base.drop (i + 1), ?_, ?_, ?_⟩
  · rw [List.drop_eq_getElem_cons hlt, hget]
  · intro hmem
    obtain ⟨j, hj⟩ := List.mem_iff_getElem?.mp hmem
    rw [List.getElem?_drop] at hj
    have hlast := (List.getElem?_eq_some_iff.mp hj).1
    exact hrest (i + 1 + j) (by omega) (by omega) hj
  · intro hmem
    obtain ⟨j, hj⟩ := List.mem_iff_getElem?.mp hmem
    rw [List.getElem?_drop] at hj
    exact hbase (i + 1 + j) (by omega) hj

/-! ## What splitting gives -/

/-- A part of a path that any name behind a separator leaves as it is. -/
def Holds (x : Str) : Prop := x ≠ [] ∧ ∀ n, IsField slash n → normalise (x ++ slash :: n) = x ++ slash :: n

/-- A root and a name. -/
theorem normalise_root_field {r f : Str} (hr : IsRoot r) (hf : IsField slash f) : normalise (r ++ f) = r ++ f := by
  have hspelled := normalise_spelled hr (List.cons_ne_nil f []) fun g hg => List.mem_singleton.mp hg ▸ hf
  rwa [List.intercalate_singleton] at hspelled

/-- A path has no separator behind its first byte, and all of it is the base; or it is split at a separator. -/
theorem split_cases (p : Str) :
    ((∀ i, 0 < i → (normalise p)[i]? ≠ some slash) ∧ split p = ([], normalise p)) ∨
      ∃ x f, normalise p = x ++ slash :: f ∧ Holds x ∧ IsField slash f ∧ split p = (x, f) := by
  have hone : (∀ i, 0 < i → (normalise p)[i]? ≠ some slash) → (∀ i, 0 < i → (normalise p)[i]? ≠ some slash) ∧
      split p = ([], normalise p) := fun h => ⟨h, split_of_none h⟩
  have hmem : ∀ f ∈ fields slash p, IsField slash f := isField_of_mem
  rcases List.eq_nil_or_concat' (fields slash p) with h | ⟨L, f, h⟩
  · -- the root only
    left
    refine hone fun i hi => ?_
    rw [normalise_eq, h, root, if_neg fun hboth => hboth.2 h, lead]
    split
    · rw [List.intercalate_nil, List.append_nil, List.getElem?_eq_none hi]
      exact (Option.some_ne_none _).symm
    · exact getElem?_ne_of_not_mem List.not_mem_nil i
  have hf : IsField slash f := hmem f (h ▸ List.mem_append_right _ List.mem_cons_self)
  rcases eq_or_ne L [] with rfl | hL
  · have hnormalise := normalise_eq p
    rw [h, List.nil_append, List.intercalate_singleton] at hnormalise
    rcases isRoot_root p with hroot | hroot | hroot
    · left
      refine hone fun i _ => ?_
      rw [hnormalise, hroot]
      exact getElem?_ne_of_not_mem hf.2 i
    · left
      refine hone fun i hi => ?_
      obtain ⟨j, rfl⟩ : ∃ j, i = j + 1 := ⟨i - 1, by omega⟩
      rw [hnormalise, hroot]
      exact getElem?_ne_of_not_mem hf.2 j
    · -- of two separators the second is found
      rw [hroot] at hnormalise
      refine Or.inr ⟨[slash], f, hnormalise, ⟨List.cons_ne_nil _ _, fun n hn => ?_⟩, hf,
        split_of_eq hnormalise (List.cons_ne_nil _ _) hf.2⟩
      exact normalise_root_field (r := [slash, slash]) (Or.inr (Or.inr rfl)) hn
  · right
    have hnormalise : normalise p = root p ++ [slash].intercalate L ++ slash :: f := by
      rw [normalise_eq, h, intercalate_concat hL, List.append_assoc, List.append_assoc, List.singleton_append]
    have hrest : ∀ g ∈ L, IsField slash g := fun g hg => hmem g (h ▸ List.mem_append_left _ hg)
    have hne : root p ++ [slash].intercalate L ≠ [] := by
      obtain ⟨y, a, -, hy⟩ := exists_intercalate_eq_concat hL hrest
      rw [hy, ← List.append_assoc]
      exact List.concat_ne_nil _ _
    refine ⟨_, f, hnormalise, ⟨hne, fun n hn => ?_⟩, hf, split_of_eq hnormalise hne hf.2⟩
    have hfields : ∀ g ∈ L ++ [n], IsField slash g := by
      intro g hg
      rcases List.mem_append.mp hg with hg | hg
      · exact hrest g hg
      · exact List.mem_singleton.mp hg ▸ hn
    have hspelled := normalise_spelled (isRoot_root p) (List.concat_ne_nil n L) hfields
    rwa [intercalate_concat hL, ← List.append_assoc, ← List.append_assoc, List.append_assoc _ [slash],
      List.singleton_append] at hspelled

theorem normalise_slash : normalise [slash] = [slash] := by
  rw [normalise_eq, root, lead, isAbs_eq]
  rfl

/-- A normalised path is normalised again to itself. -/
theorem normalise_normalise (p : Str) : normalise (normalise p) = normalise p := by
  by_cases h : fields slash p = []
  · have hroot : normalise p = lead p := by
      rw [normalise_eq, h, root, if_neg fun hboth => hboth.2 h]
      exact List.append_nil _
    rw [hroot, lead]
    split
    · exact normalise_slash
    · exact normalise_nil
  · rw [normalise_eq p]
    exact normalise_spelled (isRoot_root p) h isField_of_mem

/-! ## Putting a path together again -/

/-- A name behind the directory of a path is the base, and the directory stays. -/
theorem split_withName (p : Str) {n : Str} (hn : IsField slash n) : split (withName p n) = (dirname p, n) := by
  rw [withName, dirname]
  rcases split_cases p with ⟨-, hsplit⟩ | ⟨x, f, -, ⟨hne, hx⟩, -, hsplit⟩
  · rw [hsplit, if_pos rfl]
    have hnormalise : normalise n = n := normalise_root_field (Or.inl rfl) hn
    rw [split_of_none fun i _ => hnormalise.symm ▸ getElem?_ne_of_not_mem hn.2 i, hnormalise]
  · rw [hsplit, if_neg hne, List.append_assoc, List.singleton_append, split_of_eq (hx n hn) hne hn.2]

/-- The base of a path put in its own place gives the path. -/
theorem normalise_withName_basename (p : Str) : normalise (withName p (basename p)) = normalise p := by
  rw [withName, dirname, basename]
  rcases split_cases p with ⟨-, hsplit⟩ | ⟨x, f, hp, ⟨hne, hx⟩, hf, hsplit⟩
  · rw [hsplit, if_pos rfl, normalise_normalise]
  · rw [hsplit, if_neg hne, List.append_assoc, List.singleton_append, hx f hf, hp]

/-- The base of a base is the base, in no directory. -/
theorem split_basename (p : Str) : split (basename p) = ([], basename p) := by
  rw [basename]
  rcases split_cases p with ⟨hone, hsplit⟩ | ⟨x, f, -, -, hf, hsplit⟩
  · rw [hsplit, split_of_none fun i hi => (normalise_normalise p).symm ▸ hone i hi, normalise_normalise]
  · have hnormalise : normalise f = f := normalise_root_field (Or.inl rfl) hf
    rw [hsplit, split_of_none fun i _ => hnormalise.symm ▸ getElem?_ne_of_not_mem hf.2 i, hnormalise]

/-- A base has at most its first byte for a separator. -/
theorem basename_getElem? (p : Str) {i : ℕ} (hi : 0 < i) : (basename p)[i]? ≠ some slash := by
  rw [basename]
  rcases split_cases p with ⟨hone, hsplit⟩ | ⟨x, f, -, -, hf, hsplit⟩
  · rw [hsplit]
    exact hone i hi
  · rw [hsplit]
    exact getElem?_ne_of_not_mem hf.2 i

/-- The dot of a path is that of its base. -/
theorem splitext_eq (p : Str) : splitext p = match lastDot (basename p) ((basename p).length - 1) with
    | none => (p, [])
    | some dot => (withName p ((basename p).take dot), (basename p).drop dot) := by
  rw [splitext]
  cases lastDot (basename p) ((basename p).length - 1) with
  | none => rfl
  | some dot =>
    show (if dirname p = [] then _ else _) = ((if dirname p = [] then _ else _), _)
    split <;> rfl

/-- The stem and the extension are the base. -/
theorem stem_append_ext (p : Str) : stem p ++ ext p = basename p := by
  have hbase := split_basename p
  have hagain : basename (basename p) = basename p := Prod.ext_iff.mp hbase |>.2
  have hdir : dirname (basename p) = [] := Prod.ext_iff.mp hbase |>.1
  rw [stem, ext, splitext_eq (basename p), splitext_eq p, hagain]
  cases lastDot (basename p) ((basename p).length - 1) with
  | none => exact List.append_nil _
  | some dot =>
    show withName (basename p) ((basename p).take dot) ++ (basename p).drop dot = _
    rw [withName, if_pos hdir, List.take_append_drop]

/-- What is put behind a name is put behind the path. -/
theorem withName_append (p a b : Str) : withName p a ++ b = withName p (a ++ b) := by
  simp only [withName]
  split
  · rfl
  · simp only [List.append_assoc]

theorem normalise_splitext (p : Str) : normalise ((splitext p).1 ++ (splitext p).2) = normalise p := by
  rw [splitext_eq]
  cases lastDot (basename p) ((basename p).length - 1) with
  | none => rw [List.append_nil]
  | some dot =>
    dsimp only
    rw [withName_append, List.take_append_drop, normalise_withName_basename]

theorem isExtension_ext (p : Str) : IsExtension (ext p) := by
  rw [ext, splitext_eq]
  cases hdot : lastDot (basename p) ((basename p).length - 1) with
  | none => exact Or.inl rfl
  | some dot => exact isExtension_drop (fun i hi => basename_getElem? p hi) hdot

/-! ## The result -/

/-- A path is its root and extension, its directory and any name in it, and itself with its own stem and extension. -/
theorem decomposition (p : Str) :
    (normalise ((splitext p).1 ++ (splitext p).2) = normalise p ∧ IsExtension (splitext p).2) ∧
      (∀ n, n ≠ [] → slash ∉ n →
        basename (withName p n) = n ∧ normalise (dirname (withName p n)) = normalise (dirname p)) ∧
      normalise (withExt p (ext p)) = normalise p ∧ normalise (withStem p (stem p)) = normalise p := by
  refine ⟨⟨normalise_splitext p, isExtension_ext p⟩, fun n hne hn => ?_, ?_, ?_⟩
  · have hsplit := split_withName p ⟨hne, hn⟩
    exact ⟨congrArg Prod.snd hsplit, by rw [dirname, hsplit]⟩
  · rw [withExt, stem_append_ext, normalise_withName_basename]
  · rw [withStem, stem_append_ext, normalise_withName_basename]

/-- A name directly under the root. -/
theorem decomposition_root : basename (withName (text "/.a.b") (text "c.d")) = text "c.d" :=
  ((decomposition (text "/.a.b")).2.1 (text "c.d") (by decide) (by decide)).1

end Path

end Chloride
