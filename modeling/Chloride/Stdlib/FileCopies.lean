import Chloride.Stdlib.FileDeletion

/-!
# Copying files and directories

`copy_file` and `copy_dir` of `stdlib/file/native/main.c` with `argon_copy_file_native` and
`argon_copy_directory_native`, as they are built for POSIX. Any call may fail; reads and writes may be short, but not
empty, and the names of a directory come in any order (`System`).

However a copy ends, what was there before is there as it was. `copyFile_copies` says when a file has been copied and
what is left when it has not; `copyDir_copies` that a directory that has been copied has in it whatever could be found
in its source, where the calls of which a failure is not noticed do not fail.
-/

namespace Chloride

namespace File

open Chloride.Path (Str slash dot dotDot text)
open Fields Walks FileTree

variable (here : Setting) (sys : System) {ε α : Type}

/-! ## Calls -/

/-- An open file: what is left of it, or that it is a directory. -/
inductive Source where
  | file (rest : List UInt8)
  | directory

/-- `open` with `O_RDONLY` -/
def openSource (path : Str) : Stateful World ℤ Source := do
  let time ← Stateful.get World.time
  invoke sys (.openSource path) fun tree =>
    match here.stat tree path with
    | some (.file content) => some (.file content, tree)
    | some .directory => some (.directory, tree)
    | some .other => some (.file (sys.data time), tree)
    | _ => none

/-- `open` with `O_WRONLY | O_CREAT | O_EXCL` -/
def openDestination (path : Str) : Stateful World ℤ (List FileName × FileName) :=
  invoke sys (.openDestination path) fun tree =>
    if path = [] then none else (tree.add here.links here.cwd (route path) (.file [])).map Prod.swap

def fstat : Stateful World ℤ Unit := invoke sys .fstat fun tree => some ((), tree)

/-- `read` with a buffer of 64 kibibytes -/
def read (file : Source) : Stateful World ℤ (List UInt8) := do
  let time ← Stateful.get World.time
  invoke sys .read fun tree =>
    match file with
    | .file rest => some (rest.take (min (sys.bytes time + 1) (64 * 1024)), tree)
    | .directory => none

/-- `write`, which gives the number of bytes that have been written. -/
def write (handle : List FileName × FileName) (buffer : List UInt8) : Stateful World ℤ ℕ := do
  let time ← Stateful.get World.time
  invoke sys .write fun tree =>
    match tree.entry (handle.1 ++ [handle.2]) with
    | some (.file old) =>
      let written := min (sys.bytes time + 1) buffer.length
      (tree.write handle.1 handle.2 (.file (old ++ buffer.take written))).map fun tree => (written, tree)
    | _ => none

def close : Stateful World ℤ Unit := invoke sys .close fun tree => some ((), tree)

def mkdir (path : Str) : Stateful World ℤ Unit :=
  invoke sys (.mkdir path) fun tree =>
    if path = [] then none
    else (tree.add here.links here.cwd (route path) .directory).map fun added => ((), added.1)

/-! ## Copying -/

def eexist : ℤ := 17

def enotdir : ℤ := 20

/-- `argon_is_file` -/
def argonIsFile (path : Str) : Stateful World ε Bool := do
  match ← Stateful.attempt (stat here sys path) with
  | .ok (.file _) => return true
  | _ => return false

/-- The loop of `argon_copy_file_native` over the bytes of the buffer that are to be written. -/
def writeBuffer (handle : List FileName × FileName) : ℕ → List UInt8 → Stateful World ℤ Unit
  | 0, _ => Stateful.goOn
  | fuel + 1, buffer =>
    if buffer = [] then return ()
    else do
      let written ← write sys handle buffer
      writeBuffer handle fuel (buffer.drop written)

/-- The loop of `argon_copy_file_native`. -/
def copyBytes (handle : List FileName × FileName) : ℕ → Source → Stateful World ℤ Unit
  | 0, _ => Stateful.goOn
  | fuel + 1, file => do
    let buffer ← read sys file
    if buffer = [] then return ()
    else
      writeBuffer sys handle fuel buffer
      match file with
      | .file rest => copyBytes handle fuel (.file (rest.drop buffer.length))
      | .directory => return ()

/-- `argon_copy_file_native` -/
def argonCopyFileNative (fuel : ℕ) (src dst : Str) : Stateful World ℤ Unit := do
  let file ← openSource here sys src
  fstat sys
  let handle ← openDestination here sys dst
  match ← Stateful.attempt (do copyBytes sys handle fuel file; close sys) with
  | .ok () => return ()
  | .error (e : ℤ) =>
    let _ ← Stateful.attempt (unlink here sys dst)
    Stateful.throw e

/-- The two calls of `argon_path_join` for an entry. -/
def joinPaths (src dst name : Str) : Stateful World ℤ (Str × Str) := do
  let srcPath ← Stateful.attempt (argonPathJoin sys src name)
  let dstPath ← Stateful.attempt (argonPathJoin sys dst name)
  match srcPath, dstPath with
  | .ok srcPath, .ok dstPath => return (srcPath, dstPath)
  | _, _ => Stateful.throw enomem

/-- What `argon_copy_directory_native` does for an entry, where `copy` is the function itself. -/
def copyEntry (copy : Str → Str → Stateful World ℤ Unit) (fuel : ℕ) (src dst : Str) : Stateful World ℤ Unit := do
  if ← argonIsDirectory here sys src then copy src dst
  else if ← argonIsFile here sys src then argonCopyFileNative here sys fuel src dst
  else return ()

/-- The loop of `argon_copy_directory_native` over the names that are listed. -/
def copyEntries (copy : Str → Str → Stateful World ℤ Unit) (fuel : ℕ) (src dst : Str) :
    List Str → Stateful World ℤ Unit
  | [] => return ()
  | name :: rest => do
    if name = dot ∨ name = dotDot then copyEntries copy fuel src dst rest
    else
      let (srcPath, dstPath) ← joinPaths sys src dst name
      copyEntry here sys copy fuel srcPath dstPath
      copyEntries copy fuel src dst rest

/-- The call of `mkdir` in `argon_copy_directory_native`, with what is done when it fails. -/
def makeDirectory (dst : Str) : Stateful World ℤ Unit := do
  match ← Stateful.attempt (mkdir here sys dst) with
  | .ok () => return ()
  | .error (e : ℤ) =>
    if e ≠ eexist then Stateful.throw e
    else
      -- `argon_is_directory`: where its call fails, the number of the error is that of the call.
      match ← Stateful.attempt (stat here sys dst) with
      | .ok .directory => return ()
      | .ok _ => Stateful.throw e
      | .error (e : ℤ) => Stateful.throw e

/-- `argon_copy_directory_native` -/
def argonCopyDirectoryNative : ℕ → Str → Str → Stateful World ℤ Unit
  | 0, _, _ => Stateful.goOn
  | fuel + 1, src, dst => do
    if ← argonIsDirectory here sys src then
      makeDirectory here sys dst
      let names ← opendir here sys src
      copyEntries here sys (argonCopyDirectoryNative fuel) fuel src dst names
    else Stateful.throw enotdir

/-- `copy_file` -/
def copyFile (fuel : ℕ) (src dst : Str) : Stateful World Thrown Unit := do
  let src := argonPathToCString src
  let dst := argonPathToCString dst
  if ← argonIsFile here sys src then
    match ← Stateful.attempt (argonCopyFileNative here sys fuel src dst) with
    | .ok () => return ()
    | .error e => Stateful.throw (.fileError (text "failed to copy file: " ++ sys.strerror e))
  else Stateful.throw (.fileError (text "source is not a file: " ++ src))

/-- `copy_dir` -/
def copyDir (fuel : ℕ) (src dst : Str) : Stateful World Thrown Unit := do
  let src := argonPathToCString src
  let dst := argonPathToCString dst
  if ← argonIsDirectory here sys src then
    match ← Stateful.attempt (argonCopyDirectoryNative here sys fuel src dst) with
    | .ok () => return ()
    | .error e => Stateful.throw (.fileError (text "failed to copy directory: " ++ sys.strerror e))
  else Stateful.throw (.fileError (text "source is not a directory: " ++ src))

/-! ## What they should do -/

/-- The place that a path leads to or that a new entry would have. -/
def Setting.target (tree : Tree) (path : Str) : Option (List FileName) :=
  if path = [] then none else tree.target here.links here.cwd (route path)

/-- The path is one of an entry that there is not, in a directory. -/
def Setting.Free (tree : Tree) (path : Str) : Prop :=
  path ≠ [] ∧ ∃ dir name, tree.last here.links here.cwd (route path) = some (dir, name) ∧
    tree.entry (dir ++ [name]) = none

/-- Whatever was there is there as it was, and what is new is at the target. -/
def Adds (tree : Tree) (target : Option (List FileName)) (tree' : Tree) : Prop :=
  tree.Sub tree' ∧ ∀ q, target ≠ some q → tree'.entry q = tree.entry q

/-- No call fails but where it must. -/
def System.NeverFails : Prop := ∀ time call, sys.fails time call = false

/-- What a run of `copy_file` should do: however it ends, nothing is changed but that there may be a new entry at the
target. Without an error this is a file with what is in the source. If there is enough fuel the run ends, and without an
error if no call fails, the source is a file and the target is free. -/
structure CopiesFile (tree : Tree) (src dst : Str) (fuel : ℕ) (run : Status Thrown Unit × World) : Prop where
  adds : Adds tree (here.target tree dst) run.2.tree
  copied : run.1 = .done () → ∃ place content, here.stat tree src = some (.file content) ∧
    here.target tree dst = some place ∧ tree.entry place = none ∧ tree.Put run.2.tree place (.file content)
  ends : run.1 = .running → ∃ content, here.stat tree src = some (.file content) ∧ fuel ≤ content.length + 1
  succeeds : sys.NeverFails → here.Free tree dst → ∀ content, here.stat tree src = some (.file content) →
    content.length + 1 < fuel → run.1 = .done ()

/-- A file or a directory that is found behind a path, name by name. -/
def Setting.Finds (tree : Tree) (e : Entry FileName (List UInt8)) : Str → List FileName → Prop
  | path, [] => here.stat tree path = some e
  | path, name :: rest => here.stat tree path = some .directory ∧ Setting.Finds tree e (pathJoin path name.val) rest

/-- Each file and each directory that is found behind the source in one file system, is found behind the target in the
other one. -/
def Setting.Copied (tree : Tree) (src dst : Str) (tree' : Tree) : Prop :=
  ∀ names e, e = .directory ∨ (∃ content, e = .file content) →
    here.Finds tree e src names → here.Finds tree' e dst names

/-- The calls for which a failure is not noticed do not fail: `stat`, and to read the names of a directory. -/
structure System.Reliable : Prop where
  stat : ∀ time path, sys.fails time (.stat path) = false
  list : ∀ time path names, ∀ name ∈ names, name.val ∈ sys.list time path names

/-- What a run of `copy_dir` should do: however it ends, what was there is there as it was; and without an error the
source was a directory, and whatever was found in it is found in the target. -/
structure CopiesDirectory (tree : Tree) (src dst : Str) (run : Status Thrown Unit × World) : Prop where
  kept : tree.Sub run.2.tree
  source : run.1 = .done () → here.stat tree src = some .directory
  target : run.1 = .done () → here.stat run.2.tree dst = some .directory
  copied : run.1 = .done () → sys.Reliable → here.Copied tree src dst run.2.tree

/-! ## Places -/

section

variable {here} {tree tree' : Tree} {path : Str} {place dir : List FileName} {name : FileName}
  {e : Entry FileName (List UInt8)}

section

variable (hne : path ≠ []) (hlast : tree.last here.links here.cwd (route path) = some (dir, name))
include hne hlast

theorem Setting.target_of_new (hnone : tree.entry (dir ++ [name]) = none) :
    here.target tree path = some (dir ++ [name]) := by
  rw [Setting.target, if_neg hne, FileTree.target_of_new hlast hnone]

theorem Setting.place_of_last (he : tree.entry (dir ++ [name]) = some e) (hlink : ∀ target, e ≠ .link target) :
    here.place tree path = some (dir ++ [name]) := by
  rw [Setting.place_of_ne_nil hne, follow_of_last hlast he hlink]

end

theorem Setting.last_pathJoin (hplace : here.place tree path = some dir) (hdir : tree.entry dir = some .directory)
    (name : FileName) : tree.last here.links here.cwd (route (pathJoin path name.val)) = some (dir, name) := by
  have hne := here.ne_nil_of_place hplace
  rw [Setting.place_of_ne_nil hne] at hplace
  rw [route_pathJoin hne, last_concat hplace hdir]

/-- What a joined path leads to is in the directory. -/
theorem Setting.entry_of_stat_pathJoin (hplace : here.place tree path = some dir)
    (hdir : tree.entry dir = some .directory) (hstat : here.stat tree (pathJoin path name.val) = some e) :
    tree.entry (dir ++ [name]) ≠ none := by
  intro hnone
  have hne := pathJoin_ne_nil (here.ne_nil_of_place hplace) name.val
  obtain ⟨place, hplace', -⟩ := Setting.stat_eq_some.mp hstat
  rw [Setting.place_of_ne_nil hne, follow_of_new (Setting.last_pathJoin hplace hdir name) hnone] at hplace'
  cases hplace'

theorem Setting.Finds.mono (h : tree.Sub tree') {names : List FileName} (hfinds : here.Finds tree e path names) :
    here.Finds tree' e path names := by
  induction names generalizing path with
  | nil => exact Setting.stat_mono h hfinds
  | cons name rest ih => exact ⟨Setting.stat_mono h hfinds.1, ih hfinds.2⟩

/-- There is something at the path. -/
theorem Setting.Finds.stat {names : List FileName} (h : here.Finds tree e path names) :
    here.stat tree path = some .directory ∨ names = [] ∧ here.stat tree path = some e := by
  cases names with
  | nil => exact Or.inr ⟨rfl, h⟩
  | cons name rest => exact Or.inl h.1

theorem Adds.refl (tree : Tree) (target : Option (List FileName)) : Adds tree target tree := ⟨.refl _, fun _ _ => rfl⟩

theorem adds_of_put (hnone : tree.entry place = none) (hput : tree.Put tree' place e) : Adds tree (some place) tree' :=
  ⟨hput.sub hnone, fun q hq => hput.2 q fun h => hq (h ▸ rfl)⟩

end

/-! ## Calls on a file system -/

/-- The file system is a certain one. -/
def At (tree : Tree) (w : World) : Prop := w.tree = tree

section

variable {here sys} {tree tree' : Tree} {path src dst : Str} {place dir : List FileName} {name : FileName}
  {R : World → Prop}

theorem stat_at (path : Str) : Stateful.Triple (At tree) (stat here sys path)
    (fun e w => here.stat tree path = some e ∧ At tree w)
    (fun _ w => ((∀ time, sys.fails time (.stat path) = false) → here.stat tree path = none) ∧ At tree w) R := by
  refine invoke_cases (fun w hw e tree' h => ?_) fun w e hw hfails => ⟨fun hok => ?_, hw⟩
  · obtain rfl : w.tree = tree := hw
    obtain ⟨e', hstat, heq⟩ := Option.map_eq_some_iff.mp h
    cases heq
    exact ⟨hstat, rfl⟩
  · obtain rfl : w.tree = tree := hw
    rcases hfails with hfails | hfails
    · rw [hok] at hfails
      cases hfails
    · exact Option.map_eq_none_iff.mp hfails

theorem argonIsDirectory_at {E : ε → World → Prop} (path : Str) :
    Stateful.Triple (At tree) (argonIsDirectory here sys path)
      (fun b w => (b = true → here.stat tree path = some .directory) ∧
        ((∀ time, sys.fails time (.stat path) = false) → here.stat tree path = some .directory → b = true) ∧ At tree w)
      E R := by
  refine .attempt_bind (stat_at path) (fun e => ?_) fun e => ?_
  · rcases e with _ | _ | target | _
    case directory => exact .pure fun w ⟨hstat, hw⟩ => ⟨fun _ => hstat, fun _ _ => rfl, hw⟩
    all_goals exact .pure fun w ⟨hstat, hw⟩ =>
      ⟨fun h => absurd h Bool.false_ne_true, fun _ h => by simp [hstat] at h, hw⟩
  · exact .pure fun w ⟨hstat, hw⟩ =>
      ⟨fun h => absurd h Bool.false_ne_true, fun h h' => by simp [hstat h] at h', hw⟩

theorem argonIsFile_at {E : ε → World → Prop} (path : Str) :
    Stateful.Triple (At tree) (argonIsFile here sys path)
      (fun b w => (b = true → ∃ content, here.stat tree path = some (.file content)) ∧
        ((∀ time, sys.fails time (.stat path) = false) → (∃ content, here.stat tree path = some (.file content)) →
          b = true) ∧ At tree w) E R := by
  refine .attempt_bind (stat_at path) (fun e => ?_) fun e => ?_
  · rcases e with content | _ | target | _
    case file => exact .pure fun w ⟨hstat, hw⟩ => ⟨fun _ => ⟨content, hstat⟩, fun _ _ => rfl, hw⟩
    all_goals exact .pure fun w ⟨hstat, hw⟩ =>
      ⟨fun h => absurd h Bool.false_ne_true, fun _ ⟨_, h⟩ => by simp [hstat] at h, hw⟩
  · exact .pure fun w ⟨hstat, hw⟩ =>
      ⟨fun h => absurd h Bool.false_ne_true, fun h ⟨_, h'⟩ => by simp [hstat h] at h', hw⟩

theorem argonPathJoin_at (parent child : Str) : Stateful.Triple (At tree) (argonPathJoin sys parent child)
    (fun path w => path = pathJoin parent child ∧ At tree w) (fun _ => At tree) R := by
  refine .attempt_bind (M := fun path w => path = pathJoin parent child ∧ At tree w) (F := fun _ => At tree)
    (invoke_triple (fun w hw a tree' h => ?_) fun w e hw => hw) (fun path => .pure fun w hw => hw)
    fun e => .throw fun w hw => hw
  cases h
  exact ⟨rfl, hw⟩

theorem joinPaths_at (src dst name : Str) : Stateful.Triple (At tree) (joinPaths sys src dst name)
    (fun paths w => paths = (pathJoin src name, pathJoin dst name) ∧ At tree w) (fun _ => At tree) R := by
  refine .attempt_bind (argonPathJoin_at src name) (fun srcPath => ?_) fun e => ?_
  · refine .of_state fun w ⟨hsrc, hw⟩ => ?_
    subst hsrc
    refine .attempt_bind (M := fun path w => path = pathJoin dst name ∧ At tree w) (F := fun _ => At tree)
      ((argonPathJoin_at dst name).in_state hw) (fun dstPath => .pure fun w ⟨hdst, hw⟩ => ⟨by rw [hdst], hw⟩)
      fun e => .throw fun w hw => hw
  · exact .attempt_bind (M := fun _ => At tree) (F := fun _ => At tree)
      ((argonPathJoin_at dst name).conseq (fun w' h => h) (fun _ _ h => h.2) (fun _ _ h => h) fun _ h => h)
      (fun dstPath => .throw fun w hw => hw) fun e => .throw fun w hw => hw

/-- A directory is opened, and if the calls are reliable all that is in it is listed. -/
theorem opendir_at (path : Str) : Stateful.Triple (At tree) (opendir here sys path)
    (fun names w => (sys.Reliable → ∀ (name : FileName) e,
      here.stat tree (pathJoin path name.val) = some e → name.val ∈ names) ∧ At tree w) (fun _ => At tree) R := by
  refine .bind (M := fun _ => At tree) (.get fun w hw => hw) fun time => ?_
  refine .bind (M := fun names w => (here.stat tree path = some .directory ∧
      ∀ place, here.place tree path = some place → names = tree.names place) ∧ At tree w)
    (invoke_triple (fun w hw names tree' h => ?_) fun w e hw => hw) fun names => ?_
  · obtain rfl : w.tree = tree := hw
    obtain ⟨hstat, h⟩ := Option.ite_none_right_eq_some.mp h
    obtain ⟨place, hplace, heq⟩ := Option.map_eq_some_iff.mp h
    cases heq
    exact ⟨⟨hstat, fun place' h => by rw [Option.some.inj (hplace.symm.trans h)]⟩, rfl⟩
  · refine .bind (M := fun _ w => (here.stat tree path = some .directory ∧
      ∀ place, here.place tree path = some place → names = tree.names place) ∧ At tree w) (.modify fun w hw => hw)
      fun _ => .pure fun w ⟨⟨hstat, hnames⟩, hw⟩ => ⟨fun hreliable name e hchild => ?_, hw⟩
    obtain ⟨place, hplace, hdir⟩ := Setting.stat_eq_some.mp hstat
    rw [hnames place hplace]
    exact hreliable.list _ _ _ _ (mem_names.mpr (Setting.entry_of_stat_pathJoin hplace hdir hchild))

end

/-! ## Copying a file -/

section

variable {here sys} {tree tree' : Tree} {path src dst : Str} {place dir : List FileName} {name : FileName}
  {R : World → Prop}

/-- A call that fails although no call does, has no answer. -/
theorem System.NeverFails.answer {time : ℕ} {call : Call} {answer : Option (α × Tree)} (h : sys.NeverFails)
    (hfails : sys.fails time call = true ∨ answer = none) : answer = none :=
  hfails.resolve_left (Bool.eq_false_iff.mp (h time call))

/-- In a file that has been opened the bytes are that have been written so far. -/
def Writing (tree : Tree) (handle : List FileName × FileName) (bytes : List UInt8) (w : World) : Prop :=
  tree.Put w.tree (handle.1 ++ [handle.2]) (.file bytes)

/-- `open` makes a file, or it fails and, if it could make one, for no reason. -/
theorem openDestination_at (path : Str) : Stateful.Triple (At tree) (openDestination here sys path)
    (fun handle w => path ≠ [] ∧ tree.last here.links here.cwd (route path) = some handle ∧
      tree.entry (handle.1 ++ [handle.2]) = none ∧ Writing tree handle [] w)
    (fun _ w => (sys.NeverFails → ¬here.Free tree path) ∧ At tree w) R := by
  refine invoke_cases (fun w hw handle tree' h => ?_) fun w e hw hfails => ⟨fun hok hfree => ?_, hw⟩
  · obtain rfl : w.tree = tree := hw
    obtain ⟨hne, h⟩ := Option.ite_none_left_eq_some.mp h
    obtain ⟨⟨tree'', dir, name⟩, hadd, heq⟩ := Option.map_eq_some_iff.mp h
    cases heq
    obtain ⟨hlast, hnone, hput⟩ := of_add hadd
    exact ⟨hne, hlast, hnone, hput⟩
  · obtain rfl : w.tree = tree := hw
    obtain ⟨hne, dir, name, hlast, hnone⟩ := hfree
    have hanswer := hok.answer hfails
    obtain ⟨tree', hadd, -⟩ := add_of_last (e := .file []) hlast hnone
    rw [if_neg hne, hadd] at hanswer
    cases hanswer

/-- What `stat` sees as a file is opened as one. -/
theorem openSource_at (path : Str) : Stateful.Triple (At tree) (openSource here sys path)
    (fun file w => (∀ content, here.stat tree path = some (.file content) → file = .file content) ∧ At tree w)
    (fun _ w => (sys.NeverFails → ∀ content, here.stat tree path ≠ some (.file content)) ∧
      At tree w) R := by
  refine .bind (M := fun _ => At tree) (.get fun w hw => hw) fun time => ?_
  refine invoke_cases (fun w hw file tree' h => ?_) fun w e hw hfails => ⟨fun hok content hstat => ?_, hw⟩
  · obtain rfl : w.tree = tree := hw
    split at h
    case h_1 content hstat =>
      cases h
      refine ⟨fun content' hstat' => ?_, rfl⟩
      cases hstat.symm.trans hstat'
      rfl
    case h_2 hstat =>
      cases h
      exact ⟨fun content' hstat' => (by simp [hstat] at hstat'), rfl⟩
    case h_3 hstat =>
      cases h
      exact ⟨fun content' hstat' => (by simp [hstat] at hstat'), rfl⟩
    case h_4 => cases h
  · obtain rfl : w.tree = tree := hw
    have hanswer := hok.answer hfails
    rw [hstat] at hanswer
    cases hanswer

variable {handle : List FileName × FileName} {bytes : List UInt8}

theorem write_triple (buffer : List UInt8) (hbuffer : buffer ≠ []) :
    Stateful.Triple (Writing tree handle bytes) (write sys handle buffer)
      (fun written w => 0 < written ∧ Writing tree handle (bytes ++ buffer.take written) w)
      (fun _ w => ¬sys.NeverFails ∧ Writing tree handle bytes w) R := by
  have hpos := List.length_pos_of_ne_nil hbuffer
  refine .bind (M := fun _ => Writing tree handle bytes) (.get fun w hw => hw) fun time => ?_
  refine invoke_cases (fun w hw written tree' h => ?_) fun w e hw hfails => ⟨fun hok => ?_, hw⟩
  · rw [hw.1] at h
    obtain ⟨tree'', hwrite, heq⟩ := Option.map_eq_some_iff.mp h
    cases heq
    obtain ⟨hentry, hother⟩ := of_write hwrite
    exact ⟨by omega, hentry, fun q hq => (hother q hq).trans (hw.2 q hq)⟩
  · have hanswer := hok.answer hfails
    obtain ⟨tree', hwrite, -⟩ :=
      write_of_entry (e := .file (bytes ++ buffer.take (min (sys.bytes time + 1) buffer.length))) hw.1 nofun
    simp only [hw.1, hwrite] at hanswer
    cases hanswer

/-- The loop has written the buffer when it ends, and each call writes a byte. -/
theorem writeBuffer_triple (fuel : ℕ) (buffer : List UInt8) :
    Stateful.Triple (Writing tree handle bytes) (writeBuffer sys handle fuel buffer)
      (fun _ => Writing tree handle (bytes ++ buffer))
      (fun _ w => ¬sys.NeverFails ∧ ∃ bytes, Writing tree handle bytes w)
      (fun w => fuel ≤ buffer.length ∧ ∃ bytes, Writing tree handle bytes w) := by
  -- on the fuel, whatever has been written before: a round leaves less of the buffer
  induction fuel generalizing buffer bytes with
  | zero => exact .goOn fun _ hw => ⟨Nat.zero_le _, _, hw⟩
  | succ fuel ih =>
    refine .ite (fun hnil => .pure fun w hw => ?_) fun hbuffer => ?_
    · rwa [hnil, List.append_nil]
    · refine .bind_state ((write_triple buffer hbuffer).conseq (fun _ h => h) (fun _ _ h => h)
        (fun _ _ h => ⟨h.1, _, h.2⟩) fun _ h => h) fun written w ⟨hpos, hw⟩ => ?_
      -- what is written by now and what is left are the bytes before and the buffer
      refine (ih (buffer.drop written)).conseq (fun w' h => h ▸ hw) (fun _ w h => ?_) (fun _ _ h => h)
        fun _ h => ⟨?_, h.2⟩
      · rwa [List.append_assoc, List.take_append_drop] at h
      · have hlength := List.length_pos_of_ne_nil hbuffer
        have hfuel := h.1
        rw [List.length_drop] at hfuel
        omega

theorem read_triple (file : Source) (rest : List UInt8) (hfile : file = .file rest) {P : World → Prop}
    (hP : ∀ w time, P w → P ⟨w.tree, time, w.opened⟩) :
    Stateful.Triple P (read sys file)
      (fun buffer w => buffer = rest.take buffer.length ∧ (buffer = [] → rest = []) ∧ P w)
      (fun _ w => ¬sys.NeverFails ∧ P w) R := by
  refine .bind (M := fun _ => P) (.get fun w hw => hw) fun time => ?_
  refine invoke_cases (fun w hw buffer tree' h => ?_) fun w e hw hfails => ⟨fun hok => ?_, hP w _ hw⟩
  · subst hfile
    cases h
    refine ⟨?_, fun hnil => ?_, hP w _ hw⟩
    · rw [List.length_take, List.take_eq_take_iff]
      omega
    · rcases List.take_eq_nil_iff.mp hnil with h | h
      · omega
      · exact h
  · subst hfile
    cases hok.answer hfails

/-- The loop has copied the rest of the file when it ends. -/
theorem copyBytes_triple (fuel : ℕ) (rest : List UInt8) :
    Stateful.Triple (Writing tree handle bytes) (copyBytes sys handle fuel (.file rest))
      (fun _ => Writing tree handle (bytes ++ rest))
      (fun _ w => ¬sys.NeverFails ∧ ∃ bytes, Writing tree handle bytes w)
      (fun w => fuel ≤ rest.length + 1 ∧ ∃ bytes, Writing tree handle bytes w) := by
  -- on the fuel, whatever has been copied before: a round that is not the last takes a byte of the rest
  induction fuel generalizing rest bytes with
  | zero => exact .goOn fun _ hw => ⟨Nat.zero_le _, _, hw⟩
  | succ fuel ih =>
    refine .bind_state ((read_triple (.file rest) rest rfl fun w time h => h).conseq (fun _ h => h) (fun _ _ h => h)
      (fun _ _ h => ⟨h.1, _, h.2⟩) fun _ h => h) fun buffer w ⟨hbuffer, hend, hw⟩ => ?_
    have hle : buffer.length ≤ rest.length := by
      have hlength := congrArg List.length hbuffer
      rw [List.length_take] at hlength
      omega
    refine .ite (fun hnil => .pure fun w' h => ?_) fun hne => ?_
    · rw [hend hnil, List.append_nil]
      exact h ▸ hw
    · have hpos := List.length_pos_of_ne_nil hne
      refine .bind ((writeBuffer_triple fuel buffer).conseq (fun w' h => h ▸ hw) (fun _ _ h => h) (fun _ _ h => h)
        fun _ h => ⟨by have := h.1; omega, h.2⟩) fun _ => ?_
      refine (ih (rest.drop buffer.length)).conseq (fun _ h => h) (fun _ w h => ?_) (fun _ _ h => h)
        fun _ h => ⟨?_, h.2⟩
      · rw [List.append_assoc] at h
        nth_rewrite 1 [hbuffer] at h
        rwa [List.take_append_drop] at h
      · have hfuel := h.1
        rw [List.length_drop] at hfuel
        omega

/-- A directory is not copied, since it is not read. -/
theorem copyBytes_at (fuel : ℕ) (file : Source) :
    Stateful.Triple (Writing tree handle bytes) (copyBytes sys handle fuel file)
      (fun _ w => ∃ written, (∀ rest, file = .file rest → written = bytes ++ rest) ∧ Writing tree handle written w)
      (fun _ w => (sys.NeverFails → ∀ rest, file ≠ .file rest) ∧
        ∃ written, Writing tree handle written w)
      (fun w => (∀ rest, file = .file rest → fuel ≤ rest.length + 1) ∧ ∃ written, Writing tree handle written w) := by
  cases file with
  | file rest =>
    refine (copyBytes_triple fuel rest).conseq (fun _ h => h) (fun _ w h => ⟨_, fun rest' heq => ?_, h⟩)
      (fun _ w h => ⟨fun hok => absurd hok h.1, h.2⟩) fun w h => ⟨fun rest' heq => ?_, h.2⟩
    · rw [Source.file.inj heq]
    · rw [← Source.file.inj heq]
      exact h.1
  | directory =>
    cases fuel with
    | zero => exact .goOn fun w hw => ⟨fun rest h => Source.noConfusion h, _, hw⟩
    | succ fuel =>
      refine .bind (M := fun _ _ => False) ?_ fun _ => .of_false fun _ h => h
      refine .bind (M := fun _ => Writing tree handle bytes) (.get fun w hw => hw) fun time => ?_
      refine invoke_triple (fun w hw a tree' h => ?_) fun w e hw => ⟨fun _ rest h => Source.noConfusion h, _, hw⟩
      cases h

/-- When the file that has been made is removed, everything is as before. -/
theorem unlink_writing (hlast : tree.last here.links here.cwd (route dst) = some handle)
    (hnone : tree.entry (handle.1 ++ [handle.2]) = none) :
    Stateful.Triple (fun w => ∃ written, Writing tree handle written w) (unlink here sys dst)
      (fun _ w => Adds tree (some (handle.1 ++ [handle.2])) w.tree)
      (fun _ w => Adds tree (some (handle.1 ++ [handle.2])) w.tree) R := by
  obtain ⟨dir, name⟩ := handle
  refine invoke_triple (fun w ⟨written, hw⟩ a tree' h => ?_) fun w e ⟨written, hw⟩ => adds_of_put hnone hw
  obtain ⟨-, h⟩ := Option.ite_none_left_eq_some.mp h
  obtain ⟨tree'', hunlink, heq⟩ := Option.map_eq_some_iff.mp h
  cases heq
  obtain ⟨dir', name', hlast', -, -, hnone', hother⟩ := of_unlink hunlink
  -- the path still leads to where the file was made: one file more turns no route
  obtain ⟨rfl, rfl⟩ := Prod.mk.inj (Option.some.inj ((last_mono (hw.sub hnone) hlast).symm.trans hlast'))
  have hsame : ∀ q, tree'.entry q = tree.entry q := by
    intro q
    by_cases hq : q = dir ++ [name]
    · rw [hq, hnone', hnone]
    · rw [hother q hq, hw.2 q hq]
  exact ⟨fun q e he => (hsame q).trans he, fun q _ => hsame q⟩

/-- What is copied, and what is left of a copy that fails. -/
theorem argonCopyFileNative_at (fuel : ℕ) (src dst : Str) :
    Stateful.Triple (At tree) (argonCopyFileNative here sys fuel src dst)
      (fun _ w => ∃ place content, here.target tree dst = some place ∧ here.place w.tree dst = some place ∧
        tree.entry place = none ∧ tree.Put w.tree place (.file content) ∧
          ∀ c, here.stat tree src = some (.file c) → content = c)
      (fun _ w => (sys.NeverFails → here.Free tree dst → ∀ content, here.stat tree src ≠ some (.file content)) ∧
        Adds tree (here.target tree dst) w.tree)
      (fun w => (∀ content, here.stat tree src = some (.file content) → fuel ≤ content.length + 1) ∧
        Adds tree (here.target tree dst) w.tree) := by
  have hstays : ∀ {w : World}, At tree w → Adds tree (here.target tree dst) w.tree := fun h => h ▸ .refl _ _
  refine .bind_state ((openSource_at src).conseq (fun _ h => h) (fun _ _ h => h)
    (fun _ w h => ⟨fun hok _ => h.1 hok, hstays h.2⟩) fun _ h => h) fun file w ⟨hfile, hw⟩ => ?_
  refine .bind (M := fun _ => At tree) (invoke_cases (fun w' h a tree' hanswer => ?_) fun w' e h hfails => ?_)
    fun _ => ?_
  · cases hanswer
    exact h ▸ hw
  · refine ⟨fun hok => ?_, hstays (h ▸ hw)⟩
    cases hok.answer hfails
  refine .bind_state ((openDestination_at dst).conseq (fun _ h => h) (fun _ _ h => h)
    (fun _ w h => ⟨fun hok hfree => absurd hfree (h.1 hok), hstays h.2⟩) fun _ h => h)
    fun handle w' ⟨hne, hlast, hnone, hw'⟩ => ?_
  -- From here on there is a new file, and all that may still change is in it.
  have htarget := Setting.target_of_new hne hlast hnone
  refine .attempt_bind (M := fun _ w => ∃ written, (∀ rest, file = .file rest → written = rest) ∧
      Writing tree handle written w)
    (F := fun _ w => (sys.NeverFails → ∀ rest, file ≠ .file rest) ∧ ∃ written, Writing tree handle written w)
    ?_ (fun _ => .pure fun w h => ?_) fun e => ?_
  · refine .bind ((copyBytes_at fuel file).conseq (fun w h => h ▸ hw') (fun _ _ h => h) (fun _ _ h => h)
      fun w h => ⟨fun content hstat => h.1 content (hfile content hstat), ?_⟩) fun _ =>
        invoke_cases (fun w h a tree' hanswer => ?_) fun w e h hfails => ⟨fun hok => ?_, h.imp fun _ h => h.2⟩
    · obtain ⟨-, written, hwriting⟩ := h
      rw [htarget]
      exact adds_of_put hnone hwriting
    · cases hanswer
      exact h
    · cases hok.answer hfails
  · obtain ⟨written, hwritten, hput⟩ := h
    refine ⟨_, written, htarget, ?_, hnone, hput, fun c hstat => hwritten c (hfile c hstat)⟩
    exact Setting.place_of_last hne (last_mono (hput.sub hnone) hlast) hput.1 fun target h => by cases h
  · -- the file that was made is removed again, if that does not fail too
    refine .of_state fun w ⟨hok, hw⟩ => ?_
    have hno : sys.NeverFails → here.Free tree dst → ∀ content, here.stat tree src ≠ some (.file content) :=
      fun h _ content hstat => hok h content (hfile content hstat)
    rw [htarget]
    exact .attempt_bind ((unlink_writing hlast hnone).in_state hw) (fun _ => .throw fun w h => ⟨hno, h⟩)
      fun _ => .throw fun w h => ⟨hno, h⟩

/-! ## Copying a directory -/

/-- What is behind a name in a directory, and what is done at the name. -/
theorem copyEntry_at {copy : Str → Str → Stateful World ℤ Unit} (fuel : ℕ) (src dst : Str)
    (hcopy : ∀ tree, Stateful.Triple (At tree) (copy src dst)
      (fun _ w => tree.Sub w.tree ∧ here.stat w.tree dst = some .directory ∧
        (sys.Reliable → here.Copied tree src dst w.tree)) (fun _ w => tree.Sub w.tree) fun w => tree.Sub w.tree) :
    Stateful.Triple (At tree) (copyEntry here sys copy fuel src dst)
      (fun _ w => tree.Sub w.tree ∧ (sys.Reliable → here.Copied tree src dst w.tree)) (fun _ w => tree.Sub w.tree)
      fun w => tree.Sub w.tree := by
  refine .bind (argonIsDirectory_at src) fun b => .ite (fun hb => ?_) fun hb => ?_
  · exact (hcopy tree).conseq (fun _ h => h.2.2) (fun _ _ h => ⟨h.1, h.2.2⟩) (fun _ _ h => h) fun _ h => h
  refine .of_state fun w ⟨_, hdirectory, hw⟩ => ?_
  -- `stat` did not say that it is a directory; if it does not fail, it is none
  have hnot : sys.Reliable → here.stat tree src ≠ some .directory :=
    fun h hstat => hb (hdirectory (fun time => h.stat time src) hstat)
  refine .bind ((argonIsFile_at src).in_state hw) fun b => .ite (fun hb => ?_) fun hb => ?_
  · refine .of_state fun w ⟨hfile, _, hw⟩ => ?_
    obtain ⟨content, hstat⟩ := hfile hb
    refine (argonCopyFileNative_at fuel src dst).conseq (fun w' h => h ▸ hw) (fun _ w h => ?_) (fun _ w h => h.2.1)
      fun w h => h.2.1
    obtain ⟨place, content', -, hplace, hnone, hput, hcontent⟩ := h
    refine ⟨hput.sub hnone, fun hreliable names e he hfinds => ?_⟩
    rcases hfinds.stat with hdir | ⟨rfl, he'⟩
    · exact absurd hdir (hnot hreliable)
    · obtain rfl := Option.some.inj (hstat.symm.trans he')
      rw [hcontent content hstat] at hput
      exact Setting.stat_eq_some.mpr ⟨place, hplace, hput.1⟩
  -- neither a directory nor a file: it is left out, and `Copied` does not ask for it
  · refine .pure fun w ⟨_, hfile, hw⟩ => ⟨hw ▸ .refl tree, fun hreliable names e he hfinds => ?_⟩
    rcases hfinds.stat with hdir | ⟨rfl, he'⟩
    · exact absurd hdir (hnot hreliable)
    · rcases he with rfl | ⟨content, rfl⟩
      · exact absurd he' (hnot hreliable)
      · exact absurd (hfile (fun time => hreliable.stat time src) ⟨content, he'⟩) hb

/-- What has been copied from a source stays copied. -/
theorem Setting.Copied.mono {tree₁ tree₂ tree₃ tree₄ : Tree} (h : here.Copied tree₂ src dst tree₃)
    (h₁ : tree₁.Sub tree₂) (h₂ : tree₃.Sub tree₄) : here.Copied tree₁ src dst tree₄ :=
  fun names e he hfinds => (h names e he (hfinds.mono h₁)).mono h₂

/-- The loop over the names that are listed. -/
theorem copyEntries_at {copy : Str → Str → Stateful World ℤ Unit} (fuel : ℕ)
    (hcopy : ∀ tree src dst, Stateful.Triple (At tree) (copy src dst)
      (fun _ w => tree.Sub w.tree ∧ here.stat w.tree dst = some .directory ∧
        (sys.Reliable → here.Copied tree src dst w.tree)) (fun _ w => tree.Sub w.tree) fun w => tree.Sub w.tree)
    (src dst : Str) (names : List Str) :
    Stateful.Triple (At tree) (copyEntries here sys copy fuel src dst names)
      (fun _ w => tree.Sub w.tree ∧ (sys.Reliable → ∀ name : FileName, name.val ∈ names →
        here.Copied tree (pathJoin src name.val) (pathJoin dst name.val) w.tree)) (fun _ w => tree.Sub w.tree)
      fun w => tree.Sub w.tree := by
  -- on the names, for any file system: an entry is copied in the one that the entries before it have left
  induction names generalizing tree with
  | nil => exact .pure fun w hw => ⟨hw ▸ .refl tree, fun _ name h => absurd h List.not_mem_nil⟩
  | cons child rest ih =>
    refine .ite (fun hdot => ?_) fun hdot => ?_
    -- `.` and `..` are passed over, and they are the names of nothing
    · refine ih.conseq (fun _ h => h) (fun _ w h => ⟨h.1, fun hreliable name hname => ?_⟩) (fun _ _ h => h) fun _ h => h
      rcases List.mem_cons.mp hname with rfl | hname
      · exact absurd hdot (not_or.mpr name.2.2)
      · exact h.2 hreliable name hname
    · have hstays : ∀ {w : World}, At tree w → tree.Sub w.tree := fun h => h ▸ .refl tree
      refine .bind_state ((joinPaths_at src dst child).conseq (fun _ h => h) (fun _ _ h => h) (fun _ _ h => hstays h)
        fun _ h => h) fun paths w ⟨hpaths, hw⟩ => ?_
      subst hpaths
      refine .bind_state ((copyEntry_at fuel _ _ fun tree => hcopy tree _ _).in_state hw) fun _ w' ⟨hsub, hcopied⟩ => ?_
      -- the others are copied in the file system that is then there
      refine .conseq (P := At w'.tree) ih (fun w'' h => h ▸ rfl)
        (fun _ w'' h => ⟨hsub.trans h.1, fun hreliable name hname => ?_⟩) (fun _ _ h => hsub.trans h)
        fun _ h => hsub.trans h
      rcases List.mem_cons.mp hname with rfl | hname
      · exact (hcopied hreliable).mono (.refl tree) h.1
      · exact (h.2 hreliable name hname).mono hsub (.refl _)

/-- There is a directory then. -/
theorem makeDirectory_at (dst : Str) : Stateful.Triple (At tree) (makeDirectory here sys dst)
    (fun _ w => tree.Sub w.tree ∧ here.stat w.tree dst = some .directory) (fun _ w => tree.Sub w.tree) R := by
  have hstays : ∀ {w : World}, At tree w → tree.Sub w.tree := fun h => h ▸ .refl tree
  refine .attempt_bind (M := fun _ w => tree.Sub w.tree ∧ here.stat w.tree dst = some .directory)
    (F := fun _ => At tree) (invoke_triple (fun w hw a tree' h => ?_) fun w e hw => hw) (fun _ => .pure fun w h => h)
    fun e => ?_
  · obtain rfl : w.tree = tree := hw
    obtain ⟨hne, h⟩ := Option.ite_none_left_eq_some.mp h
    obtain ⟨⟨added, dir, name⟩, hadd, heq⟩ := Option.map_eq_some_iff.mp h
    cases heq
    obtain ⟨hlast, hnone, hput⟩ := of_add hadd
    have hsub := hput.sub hnone
    have hplace : here.place added dst = some (dir ++ [name]) :=
      Setting.place_of_last hne (last_mono hsub hlast) hput.1 fun target h => by cases h
    exact ⟨hsub, Setting.stat_eq_some.mpr ⟨_, hplace, hput.1⟩⟩
  -- there is something at the path, which is no error if it is a directory
  · refine .ite (fun _ => .throw fun w hw => hstays hw) fun _ => ?_
    refine .attempt_bind (stat_at dst) (fun e' => ?_) fun e' => .throw fun w hw => hstays hw.2
    rcases e' with _ | _ | target | _
    case directory => exact .pure fun w ⟨hstat, hw⟩ => ⟨hstays hw, hw ▸ hstat⟩
    all_goals exact .throw fun w hw => hstays hw.2

/-- What was found behind a directory is behind one of its names. -/
theorem copied_of_names {tree' : Tree} {names : List Str} (hdirectory : here.stat tree' dst = some .directory)
    (hlisted : ∀ (name : FileName) e, here.stat tree (pathJoin src name.val) = some e → name.val ∈ names)
    (hsource : here.stat tree src = some .directory)
    (hcopied : ∀ name : FileName, name.val ∈ names →
      here.Copied tree (pathJoin src name.val) (pathJoin dst name.val) tree') : here.Copied tree src dst tree' := by
  intro below e he hfinds
  cases below with
  | nil =>
    obtain rfl := Option.some.inj (hsource.symm.trans hfinds)
    exact hdirectory
  | cons name rest =>
    have hname : name.val ∈ names := by
      rcases hfinds.2.stat with hstat | ⟨-, hstat⟩
      · exact hlisted name _ hstat
      · exact hlisted name _ hstat
    exact ⟨hdirectory, hcopied name hname rest e he hfinds.2⟩

theorem argonCopyDirectoryNative_at (fuel : ℕ) (tree : Tree) (src dst : Str) :
    Stateful.Triple (At tree) (argonCopyDirectoryNative here sys fuel src dst)
      (fun _ w => tree.Sub w.tree ∧ here.stat w.tree dst = some .directory ∧
        (sys.Reliable → here.Copied tree src dst w.tree)) (fun _ w => tree.Sub w.tree) fun w => tree.Sub w.tree := by
  have hstays : ∀ {w : World}, At tree w → tree.Sub w.tree := fun h => h ▸ .refl tree
  -- on the fuel, for any file system and paths, as `copyEntries_at` takes it for the directories in this one
  induction fuel generalizing tree src dst with
  | zero => exact .goOn fun w hw => hw ▸ .refl tree
  | succ fuel ih =>
    refine .bind (argonIsDirectory_at src) fun b => .ite (fun hb => ?_) fun _ => .throw fun w hw => hstays hw.2.2
    refine .of_state fun w ⟨hdirectory, _, hw⟩ => ?_
    refine .bind_state ((makeDirectory_at dst).in_state hw) fun _ w₁ ⟨hsub, hdst⟩ => ?_
    refine .bind_state (.conseq (P := At w₁.tree) (opendir_at src) (fun w' h => h ▸ rfl) (fun _ _ h => h)
      (fun _ _ h => h ▸ hsub) fun _ h => h) fun names w₂ ⟨hlisted, hw₂⟩ => ?_
    refine .conseq (P := At w₁.tree) (copyEntries_at fuel (fun tree src dst => ih tree src dst fun h => h ▸ .refl tree)
      src dst names) (fun w' h => h ▸ hw₂) (fun _ w h => ?_) (fun _ _ h => hsub.trans h) fun _ h => hsub.trans h
    have hdst' := Setting.stat_mono h.1 hdst
    refine ⟨hsub.trans h.1, hdst', fun hreliable => ?_⟩
    exact (copied_of_names hdst' (hlisted hreliable) (Setting.stat_mono hsub (hdirectory hb)) (h.2 hreliable)).mono hsub
      (.refl _)

end

/-! ## The functions -/

theorem copyFile_at (tree : Tree) (fuel : ℕ) (src dst : Str) :
    Stateful.Triple (At tree) (copyFile here sys fuel src dst)
      (fun _ w => ∃ place content, here.stat tree (argonPathToCString src) = some (.file content) ∧
        here.target tree (argonPathToCString dst) = some place ∧ tree.entry place = none ∧
          tree.Put w.tree place (.file content))
      (fun _ w => (sys.NeverFails → here.Free tree (argonPathToCString dst) → ∀ content,
        here.stat tree (argonPathToCString src) ≠ some (.file content)) ∧
          Adds tree (here.target tree (argonPathToCString dst)) w.tree)
      (fun w => (∃ content, here.stat tree (argonPathToCString src) = some (.file content) ∧
        fuel ≤ content.length + 1) ∧ Adds tree (here.target tree (argonPathToCString dst)) w.tree) := by
  refine .bind (argonIsFile_at (argonPathToCString src)) fun b => .ite (fun hb => ?_) fun hb => .throw fun w h => ?_
  · refine .of_state fun w ⟨hfile, _, hw⟩ => ?_
    obtain ⟨content, hstat⟩ := hfile hb
    refine .attempt_bind ((argonCopyFileNative_at fuel _ _).conseq (fun w' h => h ▸ hw) (fun _ _ h => h)
      (fun _ _ h => h) fun w h => ⟨⟨content, hstat, h.1 content hstat⟩, h.2⟩) (fun _ => .pure fun w h => ?_)
      fun e => .throw fun w h => h
    obtain ⟨place, content', htarget, -, hnone, hput, hcontent⟩ := h
    exact ⟨place, content, hstat, htarget, hnone, hcontent content hstat ▸ hput⟩
  · obtain ⟨-, hfile, hw⟩ := h
    exact ⟨fun hok _ content hstat => hb (hfile (fun time => hok time _) ⟨content, hstat⟩), hw ▸ .refl _ _⟩

theorem copyDir_at (tree : Tree) (fuel : ℕ) (src dst : Str) :
    Stateful.Triple (At tree) (copyDir here sys fuel src dst)
      (fun _ w => tree.Sub w.tree ∧ here.stat tree (argonPathToCString src) = some .directory ∧
        here.stat w.tree (argonPathToCString dst) = some .directory ∧
          (sys.Reliable → here.Copied tree (argonPathToCString src) (argonPathToCString dst) w.tree))
      (fun _ w => tree.Sub w.tree) fun w => tree.Sub w.tree := by
  refine .bind (argonIsDirectory_at (argonPathToCString src)) fun b => .ite (fun hb => ?_) fun _ => .throw fun w h => ?_
  · refine .of_state fun w ⟨hdirectory, _, hw⟩ => ?_
    exact .attempt_bind ((argonCopyDirectoryNative_at fuel tree _ _).in_state hw)
      (fun _ => .pure fun w h => ⟨h.1, hdirectory hb, h.2⟩) fun e => .throw fun w h => h
  · exact h.2.2 ▸ .refl tree

/-- However the calls of `copy_file` behave, what was there stays as it was, and only the target may be new. When the
function returns, that is a new file with what is in the source. It ends after as many rounds as the source has bytes,
and two more; and if no call fails, the source is a file and the target is free, it returns. -/
theorem copyFile_copies (tree : Tree) (fuel : ℕ) (src dst : Str) :
    CopiesFile here sys tree (argonPathToCString src) (argonPathToCString dst) fuel
      (copyFile here sys fuel src dst ⟨tree, 0, []⟩) := by
  have hrun := copyFile_at here sys tree fuel src dst ⟨tree, 0, []⟩ rfl
  rcases hend : copyFile here sys fuel src dst ⟨tree, 0, []⟩ with ⟨_ | e | _, w⟩
  all_goals rw [hend] at hrun
  case done =>
    obtain ⟨place, content, hstat, htarget, hnone, hput⟩ := hrun
    refine ⟨?_, fun _ => ⟨place, content, hstat, htarget, hnone, hput⟩, nofun, fun _ _ _ _ _ => rfl⟩
    rw [htarget]
    exact adds_of_put hnone hput
  case thrown =>
    obtain ⟨hok, hadds⟩ := hrun
    exact ⟨hadds, nofun, nofun, fun hnever hfree content hstat => absurd hstat (hok hnever hfree content)⟩
  case running =>
    obtain ⟨⟨content, hstat, hle⟩, hadds⟩ := hrun
    refine ⟨hadds, nofun, fun _ => ⟨content, hstat, hle⟩, fun _ _ content' hstat' hlt => ?_⟩
    cases hstat.symm.trans hstat'
    omega

/-- However the calls of `copy_dir` behave, what was there stays as it was. When the function returns, the target is a
directory, and if the calls for which a failure is not noticed have not failed, each file and each directory that was
found behind the source is found behind the target, even if the target is in the source. -/
theorem copyDir_copies (tree : Tree) (fuel : ℕ) (src dst : Str) :
    CopiesDirectory here sys tree (argonPathToCString src) (argonPathToCString dst)
      (copyDir here sys fuel src dst ⟨tree, 0, []⟩) := by
  have hrun := copyDir_at here sys tree fuel src dst ⟨tree, 0, []⟩ rfl
  rcases hend : copyDir here sys fuel src dst ⟨tree, 0, []⟩ with ⟨_ | e | _, w⟩
  all_goals rw [hend] at hrun
  case done =>
    obtain ⟨hkept, hsource, htarget, hcopied⟩ := hrun
    exact ⟨hkept, fun _ => hsource, fun _ => htarget, fun _ => hcopied⟩
  case thrown =>
    exact ⟨hrun, nofun, nofun, nofun⟩
  case running =>
    exact ⟨hrun, nofun, nofun, nofun⟩

end File

end Chloride
