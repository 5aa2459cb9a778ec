import Chloride.Stdlib.PathRelations
import Chloride.Numerics.Formatting

/-!
# Extracting archives

`extract_all` of `stdlib/archive/init.ar` with `reader_extract_to` of `stdlib/archive/native/main.c`: every entry that
is no directory is written at the destination joined with the path of the entry. Nothing looks at that path: an
absolute one is the place itself, `".."` climbs out of the destination, and of a destination with a null byte only what
is in front of the byte is left in C. `contained_iff` says which archives stay below the destination all the same.

libarchive and the disk are a parameter.
-/

namespace Chloride

namespace Archive

open Chloride.Path Fields Walks
open Chloride.Path.Internal (isAbs isAbs_iff isAbs_eq)

/-! ## The reader -/

/-- What is read of the header of an entry. -/
structure Entry where
  pathname : Str
  isDir : Bool

/-- What comes of writing an entry. The first three are failures, with the string of libarchive for it if there is one:
the header is refused and nothing is written; or there is something at the path already when the data of the entry can
not be read or not be written. -/
inductive Answer where
  | refused (errorString : Option Str)
  | unread (errorString : Option Str)
  | unwritten (errorString : Option Str)
  | written

/-- What comes of writing an entry at a path, behind the paths that have been written at. -/
abbrev Disk := List Str → Str → Answer

inductive Thrown where
  | archiveError (message : Str)

/-- `throw_archive_error` -/
def throwArchiveError (errorString : Option Str) (fallback : String) : Thrown :=
  .archiveError (errorString.getD (text fallback))

/-- The paths at which entries are written, and what is thrown. -/
structure Outcome where
  written : List Str
  thrown : Option Thrown

/-- `reader_entry_path`, whose length is that of a `strlen` -/
def readerEntryPath (entry : Entry) : Str := nullTerminated entry.pathname

/-- `reader_extract_to`: the path is a C string for libarchive. -/
def readerExtractTo (disk : Disk) (destPath : Str) (written : List Str) : Outcome :=
  let cdest := nullTerminated (destPath ++ [0])
  match disk written cdest with
  | .refused s => ⟨written, some (throwArchiveError s "Failed to write entry header")⟩
  | .unread s => ⟨written ++ [cdest], some (throwArchiveError s "Failed to read entry data")⟩
  | .unwritten s => ⟨written ++ [cdest], some (throwArchiveError s "Failed to write entry data")⟩
  | .written => ⟨written ++ [cdest], none⟩

/-- `extract_all` from an entry on, with the paths that have been written at. -/
def extractAll (disk : Disk) (destDir : Str) (written : List Str) : List Entry → Outcome
  | [] => ⟨written, none⟩
  | entry :: rest =>
    if entry.isDir then extractAll disk destDir written rest
    else
      let out := readerExtractTo disk (Path.join [destDir, readerEntryPath entry]) written
      match out.thrown with
      | some _ => out
      | none => extractAll disk destDir out.written rest

/-! ## Runs -/

/-- Where an entry is written. -/
def target (destDir : Str) (entry : Entry) : Str := nullTerminated (Path.join [destDir, readerEntryPath entry])

theorem nullTerminated_concat (s : Str) : nullTerminated (s ++ [0]) = nullTerminated s := by
  induction s with
  | nil => rfl
  | cons a s ih =>
    rw [nullTerminated, nullTerminated, List.cons_append, List.takeWhile_cons, List.takeWhile_cons]
    split
    · exact congrArg (a :: ·) ih
    · rfl

variable {disk : Disk} {destDir : Str}

/-- Nothing is written but at the place of an entry that is no directory. -/
theorem mem_written {written : List Str} {entries : List Entry} {p : Str}
    (h : p ∈ (extractAll disk destDir written entries).written) :
    p ∈ written ∨ ∃ entry ∈ entries, entry.isDir = false ∧ p = target destDir entry := by
  induction entries generalizing written with
  | nil => exact Or.inl h
  | cons entry rest ih =>
    have hlater : (p ∈ written ∨ ∃ e ∈ rest, e.isDir = false ∧ p = target destDir e) →
        p ∈ written ∨ ∃ e ∈ entry :: rest, e.isDir = false ∧ p = target destDir e :=
      Or.imp_right fun ⟨e, he, hp⟩ => ⟨e, List.mem_cons_of_mem _ he, hp⟩
    rw [extractAll] at h
    by_cases hdir : entry.isDir = true
    · rw [if_pos hdir] at h
      exact hlater (ih h)
    · rw [if_neg hdir] at h
      have hhere : p ∈ written ++ [target destDir entry] →
          p ∈ written ∨ ∃ e ∈ entry :: rest, e.isDir = false ∧ p = target destDir e := by
        intro hp
        rcases List.mem_append.mp hp with hp | hp
        · exact Or.inl hp
        · exact Or.inr ⟨entry, List.mem_cons_self, Bool.eq_false_of_not_eq_true hdir, List.mem_singleton.mp hp⟩
      rw [readerExtractTo, nullTerminated_concat, ← target] at h
      cases hanswer : disk written (target destDir entry) with
      | refused s => rw [hanswer] at h; exact Or.inl h
      | unread s => rw [hanswer] at h; exact hhere h
      | unwritten s => rw [hanswer] at h; exact hhere h
      | written =>
        rw [hanswer] at h
        rcases ih h with h | h
        · exact hhere h
        · exact hlater (Or.inr h)

/-- A disk where everything can be written. -/
def writable : Disk := fun _ _ => .written

/-- Where everything can be written, every entry that is no directory is. -/
theorem extractAll_writable (written : List Str) (entries : List Entry) :
    extractAll writable destDir written entries =
      ⟨written ++ (entries.filter fun entry => !entry.isDir).map (target destDir), none⟩ := by
  induction entries generalizing written with
  | nil => rw [extractAll, List.filter_nil, List.map_nil, List.append_nil]
  | cons entry rest ih =>
    rw [extractAll]
    cases hdir : entry.isDir with
    | true => rw [if_pos rfl, ih, List.filter_cons_of_neg (by simp [hdir])]
    | false =>
      rw [if_neg Bool.false_ne_true, List.filter_cons_of_pos (by simp [hdir]), List.map_cons, readerExtractTo,
        nullTerminated_concat, ← target]
      change extractAll writable destDir (written ++ [target destDir entry]) rest = _
      rw [ih, List.append_assoc, List.singleton_append]

/-! ## Places -/

/-- A byte that does not end a C string. -/
def goesOn (c : UInt8) : Bool := c ≠ 0

theorem goesOn_slash : goesOn slash = true := by decide

theorem fields_nullTerminated (p : Str) : fields slash (nullTerminated p) = keep goesOn (fields slash p) :=
  fields_takeWhile goesOn_slash p

theorem isAbs_nullTerminated (p : Str) : isAbs (nullTerminated p) = isAbs p := by
  cases p with
  | nil => rfl
  | cons a p =>
    rw [isAbs_eq, isAbs_eq, nullTerminated, List.takeWhile_cons]
    split
    · rfl
    · rename_i ha
      have hzero : a = 0 := by simpa using ha
      rw [hzero]
      rfl

theorem all_goesOn {p : Str} : p.all goesOn = true ↔ 0 ∉ p := by
  rw [List.all_eq_true]
  exact ⟨fun h hmem => absurd (h 0 hmem) (by decide), fun h c hc => decide_eq_true fun hzero => h (hzero ▸ hc)⟩

theorem forall_fields {p : Str} : (∀ f ∈ fields slash p, f.all goesOn = true) ↔ 0 ∉ p := by
  rw [← all_goesOn, ← all_fields goesOn_slash, List.all_eq_true]

theorem not_mem_readerEntryPath (entry : Entry) : 0 ∉ readerEntryPath entry := fun h => by
  have hgoes := List.mem_takeWhile_imp h
  exact absurd hgoes (by decide)

/-- Where an entry is written with a destination that is a C string, or with an absolute path. -/
theorem location_target (cwd : List Str) (entry : Entry) (h : 0 ∉ destDir ∨ isAbs (readerEntryPath entry) = true) :
    location cwd (target destDir entry) = location (location cwd destDir) (readerEntryPath entry) := by
  have hentry := forall_fields.mpr (not_mem_readerEntryPath entry)
  rw [← location_join]
  apply location_congr (isAbs_nullTerminated _)
  rw [fields_nullTerminated]
  apply keep_of_forall
  cases hq : isAbs (readerEntryPath entry) with
  | true => rwa [(fields_join_of_isAbs destDir hq).2]
  | false =>
    have hdest := forall_fields.mpr (h.resolve_right (by rw [hq]; exact Bool.false_ne_true))
    rw [(fields_join_of_relative destDir hq).2]
    exact fun f hf => (List.mem_append.mp hf).elim (hdest f) (hentry f)

/-- Of a destination with a null byte, and of what is joined with it, what is in front of the byte is left. -/
theorem location_target_of_mem (cwd : List Str) {entry : Entry} (hdest : 0 ∈ destDir)
    (hq : isAbs (readerEntryPath entry) = false) :
    location cwd (target destDir entry) = location cwd (nullTerminated destDir) := by
  obtain ⟨habs, hfields⟩ := fields_join_of_relative destDir hq
  have hends : ∃ f ∈ fields slash destDir, ¬f.all goesOn = true := by
    by_contra hno
    push Not at hno
    exact forall_fields.mp hno hdest
  apply location_congr
  · rw [target, isAbs_nullTerminated, isAbs_nullTerminated, habs]
  · rw [target, fields_nullTerminated, hfields, keep_append_of_exists hends, ← fields_nullTerminated]

/-! ## Staying inside -/

/-- What extraction should do for a destination, from a working directory. Where an entry belongs is where its path
leads from the destination. -/
structure Contained (cwd : List Str) (destDir : Str) (entries : List Entry) : Prop where
  inside : ∀ disk, ∀ p ∈ (extractAll disk destDir [] entries).written, Below (location cwd destDir) (location cwd p)
  rejects : ∀ disk before entry rest, entries = before ++ entry :: rest → entry.isDir = false →
    (extractAll disk destDir [] before).thrown = none →
    ¬Below (location cwd destDir) (location (location cwd destDir) (readerEntryPath entry)) →
    ∃ e, extractAll disk destDir [] entries = ⟨(extractAll disk destDir [] before).written, some e⟩

/-- The path of an entry enters again what it climbs out of, and one name more; an absolute one has climbed out of
everything. -/
def Returns (dir : List Str) (path : Str) : Prop :=
  ∃ name rest, (reduce (moves path)).2 =
    dir.drop (dir.length - if isAbs path then dir.length else climb (moves path)) ++ name :: rest

theorem below_location_iff (dir : List Str) (path : Str) : Below dir (location dir path) ↔ Returns dir path := by
  have hplace : location dir path =
      place dir (if isAbs path then dir.length else climb (moves path), (reduce (moves path)).2) := by
    rw [location_eq, ← reduce_moves, ← fst_reduce]
    cases isAbs path with
    | true => rw [if_pos rfl, if_pos rfl, place, place, List.take_nil, Nat.sub_self, List.take_zero]
    | false => rfl
  rw [hplace, below_place_iff, Returns]

/-- Extraction stays inside exactly if every path of an entry that is no directory does; and if the destination has a
null byte and the path is relative, then what is in front of that byte has to be inside. -/
theorem contained_iff (cwd : List Str) (destDir : Str) (entries : List Entry) : Contained cwd destDir entries ↔
    ∀ entry ∈ entries, entry.isDir = false → Returns (location cwd destDir) (readerEntryPath entry) ∧
      (0 ∈ destDir → isAbs (readerEntryPath entry) = false →
        Below (location cwd destDir) (location cwd (nullTerminated destDir))) := by
  constructor
  · intro h entry hmem hdir
    have hrun := @extractAll_writable destDir []
    have hinside : Below (location cwd destDir) (location cwd (target destDir entry)) := by
      apply h.inside writable
      rw [hrun, List.nil_append]
      exact List.mem_map_of_mem (List.mem_filter.mpr ⟨hmem, by simp [hdir]⟩)
    constructor
    · rw [← below_location_iff]
      by_contra hout
      obtain ⟨before, rest, hentries⟩ := List.append_of_mem hmem
      obtain ⟨e, he⟩ := h.rejects writable before entry rest hentries hdir (by rw [hrun]) hout
      rw [hrun] at he
      exact absurd (congrArg Outcome.thrown he) (Option.some_ne_none e).symm
    · intro hdest hq
      rwa [← location_target_of_mem cwd hdest hq]
  · intro h
    have hbelow : ∀ entry ∈ entries, entry.isDir = false →
        Below (location cwd destDir) (location cwd (target destDir entry)) := by
      intro entry hmem hdir
      obtain ⟨hreturns, hdest⟩ := h entry hmem hdir
      by_cases hor : 0 ∉ destDir ∨ isAbs (readerEntryPath entry) = true
      · rw [location_target cwd entry hor]
        exact (below_location_iff _ _).mpr hreturns
      · obtain ⟨hzero, hq⟩ := not_or.mp hor
        have hq := Bool.eq_false_of_not_eq_true hq
        rw [location_target_of_mem cwd (not_not.mp hzero) hq]
        exact hdest (not_not.mp hzero) hq
    refine ⟨fun disk p hp => ?_, fun disk before entry rest hentries hdir _ hout => ?_⟩
    · rcases mem_written hp with hp | ⟨entry, hmem, hdir, rfl⟩
      · exact absurd hp List.not_mem_nil
      · exact hbelow entry hmem hdir
    · have hmem : entry ∈ entries := hentries ▸ List.mem_append_right _ List.mem_cons_self
      exact absurd ((below_location_iff _ _).mpr (h entry hmem hdir).1) hout

/-- `"../x"` is written beside the destination. -/
theorem not_forall_contained : ¬∀ cwd destDir entries, Contained cwd destDir entries := by
  intro h
  have hdest : 0 ∉ text "out" := by decide
  have hinside := (h [] (text "out") [⟨text "../x", false⟩]).inside writable
  rw [extractAll_writable, List.nil_append] at hinside
  obtain ⟨name, rest, hplace⟩ := hinside (target (text "out") ⟨text "../x", false⟩) (List.mem_singleton_self _)
  have hx : location [] (target (text "out") ⟨text "../x", false⟩) = [text "x"] := by
    rw [location_target _ _ (Or.inl hdest), location_eq, location_eq, isAbs_eq, isAbs_eq]
    decide
  have hout : location [] (text "out") = [text "out"] := by
    rw [location_eq, isAbs_eq]
    decide
  rw [hx, hout] at hplace
  exact absurd (List.cons.inj hplace).1 (by decide)

end Archive

end Chloride
