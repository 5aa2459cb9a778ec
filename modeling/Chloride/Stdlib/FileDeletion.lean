import Chloride.Containers.FileTree
import Chloride.Logic.Stateful
import Chloride.Stdlib.ArchiveExtraction

/-!
# Deleting directories

`delete_dir` of `stdlib/file/native/main.c` with `argon_remove_directory_native`, as they are built for POSIX, on a file
system with symbolic links. Paths are strings here as they are there: each call walks the path that it is given, in the
file system as it is then. Any call may fail, and the names of a directory come in any order (`System`).

What an entry is decides `stat`, which follows symbolic links. A link to a directory is opened as if it were the
directory, and what it leads to is emptied. `deletion_confined_iff` says that this happens exactly if there is such a
link.
-/

namespace Chloride

namespace File

open Chloride.Path (Str slash dot dotDot text)
open Fields Walks FileTree

/-! ## The file system -/

/-- The name of an entry. -/
abbrev FileName : Type := {s : Str // IsField slash s ∧ s ≠ dot ∧ s ≠ dotDot}

abbrev Tree := FileTree FileName (List UInt8)

/-- A part of a path between two slashes. -/
def toMove (f : Str) (h : IsField slash f) : Move FileName :=
  if hstay : f = dot then .stay else if hup : f = dotDot then .up else .enter ⟨f, h, hstay, hup⟩

/-- The route that a path is. -/
def route (path : Str) : Route FileName :=
  ⟨path.head? = some slash, (fields slash path).pmap toMove fun _ h => isField_of_mem _ h⟩

/-- The working directory, and how many symbolic links may be on one path. -/
structure Setting where
  cwd : List FileName
  links : ℕ

variable (here : Setting)

/-- Where a path leads. The empty one leads nowhere. -/
def Setting.place (tree : Tree) (path : Str) : Option (List FileName) :=
  if path = [] then none else tree.follow here.links here.cwd (route path)

/-- What `stat` sees at a path. -/
def Setting.stat (tree : Tree) (path : Str) : Option (Entry FileName (List UInt8)) :=
  (here.place tree path).bind tree.entry

/-- What `lstat` would see. -/
def Setting.lstat (tree : Tree) (path : Str) : Option (Entry FileName (List UInt8)) :=
  if path = [] then none else tree.lstat here.links here.cwd (route path)

/-- A call, and its paths. -/
inductive Call where
  | malloc
  | stat (path : Str)
  | opendir (path : Str)
  | unlink (path : Str)
  | rmdir (path : Str)
  | mkdir (path : Str)
  | rename (source destination : Str)
  | openSource (path : Str)
  | openDestination (path : Str)
  | fstat
  | read
  | write
  | close

/-- How the calls behave, each with its number: which of them fail although nothing is in the way, the number of an
error, what is listed of the names in a directory, how many bytes more than one are read or written, and what is read of
something that is no file. -/
structure System where
  fails : ℕ → Call → Bool
  errno : ℕ → ℤ
  list : ℕ → Str → List FileName → List Str
  mem_list : ∀ {time path names name}, name ∈ list time path names →
    name = dot ∨ name = dotDot ∨ ∃ entry ∈ names, entry.val = name
  nodup_list : ∀ {time path names}, names.Nodup → (list time path names).Nodup
  bytes : ℕ → ℕ
  data : ℕ → List UInt8
  strerror : ℤ → Str

/-- The file system, the number of the next call, and the paths that have been opened as directories. -/
structure World where
  tree : Tree
  time : ℕ
  opened : List Str

variable (sys : System) {ε α : Type}

/-- A call, that fails where it has no answer. -/
def invoke (call : Call) (answer : Tree → Option (α × Tree)) : Stateful World ℤ α := fun w =>
  let after := { w with time := w.time + 1 }
  if sys.fails w.time call then (.thrown (sys.errno w.time), after)
  else
    match answer w.tree with
    | none => (.thrown (sys.errno w.time), after)
    | some (a, tree) => (.done a, { after with tree := tree })

def stat (path : Str) : Stateful World ℤ (Entry FileName (List UInt8)) :=
  invoke sys (.stat path) fun tree => (here.stat tree path).map fun entry => (entry, tree)

def opendir (path : Str) : Stateful World ℤ (List Str) := do
  let time ← Stateful.get World.time
  let names ← invoke sys (.opendir path) fun tree =>
    if here.stat tree path = some .directory then
      (here.place tree path).map fun place => (tree.names place, tree)
    else none
  Stateful.modify fun w => { w with opened := w.opened ++ [path] }
  return sys.list time path names

def unlink (path : Str) : Stateful World ℤ Unit :=
  invoke sys (.unlink path) fun tree =>
    if path = [] then none else (tree.unlink here.links here.cwd (route path)).map fun tree => ((), tree)

def rmdir (path : Str) : Stateful World ℤ Unit :=
  invoke sys (.rmdir path) fun tree =>
    if path = [] then none else (tree.rmdir here.links here.cwd (route path)).map fun tree => ((), tree)

/-! ## The code -/

/-- `ENOMEM` -/
def enomem : ℤ := 12

/-- `argon_path_to_c_string` -/
def argonPathToCString (path : Str) : Str := nullTerminated (path ++ [0])

/-- `argon_is_directory` -/
def argonIsDirectory (path : Str) : Stateful World ε Bool := do
  match ← Stateful.attempt (stat here sys path) with
  | .ok .directory => return true
  | _ => return false

/-- The path that `argon_path_join` makes. -/
def pathJoin (parent child : Str) : Str :=
  if parent ≠ [] ∧ parent.getLast? ≠ some slash then parent ++ slash :: child else parent ++ child

/-- `argon_path_join`, with the error that its callers report when it gives no path. -/
def argonPathJoin (parent child : Str) : Stateful World ℤ Str := do
  match ← Stateful.attempt (invoke sys .malloc fun tree => some (pathJoin parent child, tree)) with
  | .ok path => return path
  | .error (_ : ℤ) => Stateful.throw enomem

/-- The removal of an entry in `argon_remove_directory_native`, where `remove` is the function itself. -/
def removeEntry (remove : Str → Stateful World ℤ Unit) (child : Str) : Stateful World ℤ Unit := do
  if ← argonIsDirectory here sys child then remove child else unlink here sys child

/-- The loop of `argon_remove_directory_native` over the names that are listed. -/
def removeEntries (remove : Str → Stateful World ℤ Unit) (path : Str) : List Str → Stateful World ℤ Unit
  | [] => return ()
  | name :: rest => do
    if name = dot ∨ name = dotDot then removeEntries remove path rest
    else
      let child ← argonPathJoin sys path name
      removeEntry here sys remove child
      removeEntries remove path rest

/-- `argon_remove_directory_native`, as deep as `fuel`. -/
def argonRemoveDirectoryNative : ℕ → Str → Stateful World ℤ Unit
  | 0, _ => Stateful.goOn
  | fuel + 1, path => do
    let names ← opendir here sys path
    removeEntries here sys (argonRemoveDirectoryNative fuel) path names
    rmdir here sys path

inductive Thrown where
  | fileError (message : Str)

/-- `delete_dir` -/
def deleteDir (fuel : ℕ) (path : Str) : Stateful World Thrown Unit := do
  let path := argonPathToCString path
  if ← argonIsDirectory here sys path then
    match ← Stateful.attempt (argonRemoveDirectoryNative here sys fuel path) with
    | .ok () => return ()
    | .error e => Stateful.throw (.fileError (text "failed to delete directory '" ++ path ++ text "': " ++ sys.strerror e))
  else Stateful.throw (.fileError (text "not a directory: " ++ path))

/-! ## What it should do -/

/-- What a run for a directory should do, however it ends: outside of the directory nothing is changed and inside of it
nothing but removed, the directory is gone if there is no error, and no symbolic link is opened. -/
structure Confined (tree : Tree) (place : List FileName) (run : Status Thrown Unit × World) : Prop where
  outside : ∀ q, ¬place <+: q → run.2.tree.entry q = tree.entry q
  removed : run.2.tree.Sub tree
  gone : run.1 = .done () → run.2.tree.entry place = none
  links : ∀ path ∈ run.2.opened, ∀ target, here.lstat tree path ≠ some (.link target)

/-- Deletion is confined for a path, and ends: it is one of a directory, and the calls behave in any way. -/
def DeletionConfined (tree : Tree) (path : Str) : Prop :=
  ∀ (sys : System) (place : List FileName), here.place tree (argonPathToCString path) = some place →
    tree.entry place = some .directory → ∃ fuel, (deleteDir here sys fuel path ⟨tree, 0, []⟩).1 ≠ .running ∧
      Confined here tree place (deleteDir here sys fuel path ⟨tree, 0, []⟩)

/-- The path of an entry further down in a directory. -/
def joined (path : Str) (names : List FileName) : Str := names.foldl (fun path name => pathJoin path name.val) path

/-- The path is one of a symbolic link itself, or there is a link to a directory in the directory. -/
def LinkToDirectory (tree : Tree) (path : Str) (place : List FileName) : Prop :=
  (∃ target, here.lstat tree path = some (.link target)) ∨
    ∃ names target, tree.entry (place ++ names) = some (.link target) ∧
      here.stat tree (joined path names) = some .directory

/-! ## Paths -/

theorem pathJoin_ne_nil {path : Str} (h : path ≠ []) (child : Str) : pathJoin path child ≠ [] := by
  unfold pathJoin
  split
  · exact List.append_ne_nil_of_left_ne_nil h _
  · exact List.append_ne_nil_of_left_ne_nil h _

theorem joined_concat (path : Str) (names : List FileName) (name : FileName) :
    joined path (names ++ [name]) = pathJoin (joined path names) name.val := by
  rw [joined, List.foldl_concat, ← joined]

theorem toMove_val (name : FileName) (h : IsField slash name.val) : toMove name.val h = .enter name := by
  rw [toMove, dif_neg name.2.2.1, dif_neg name.2.2.2]

/-- The route of a joined path has the name at its end. -/
theorem route_pathJoin {path : Str} (h : path ≠ []) (name : FileName) :
    route (pathJoin path name.val) = (route path).concat name := by
  have hfield := name.2.1
  have hfields : fields slash (pathJoin path name.val) = fields slash path ++ [name.val] := by
    unfold pathJoin
    split
    case isTrue => rw [fields_append, hfield.fields_eq]
    case isFalse hslash =>
      have hlast : path.getLast? = some slash := not_not.mp (not_and.mp hslash h)
      obtain ⟨init, rfl⟩ : ∃ init, path = init ++ [slash] := ⟨_, (List.dropLast_append_getLast? _ hlast).symm⟩
      rw [List.append_assoc, List.singleton_append, fields_append, fields_concat, hfield.fields_eq]
  have hhead : (pathJoin path name.val).head? = path.head? := by
    unfold pathJoin
    split
    · exact List.head?_append_of_ne_nil _ h
    · exact List.head?_append_of_ne_nil _ h
  simp only [route, Route.concat, hhead, hfields, List.pmap_append, List.pmap_cons, List.pmap_nil, toMove_val]

variable {here} {tree tree' : Tree} {path : Str} {place dir : List FileName} {name : FileName}
  {e : Entry FileName (List UInt8)}

theorem Setting.place_of_ne_nil (h : path ≠ []) :
    here.place tree path = tree.follow here.links here.cwd (route path) := if_neg h

theorem Setting.ne_nil_of_place (h : here.place tree path = some place) : path ≠ [] := by
  rintro rfl
  cases h

theorem Setting.place_mono (h : tree.Sub tree') (hplace : here.place tree path = some place) :
    here.place tree' path = some place := by
  have hne := here.ne_nil_of_place hplace
  rw [Setting.place_of_ne_nil hne] at hplace ⊢
  exact follow_mono h hplace

theorem Setting.stat_eq_some : here.stat tree path = some e ↔
    ∃ place, here.place tree path = some place ∧ tree.entry place = some e := Option.bind_eq_some_iff

theorem Setting.stat_mono (h : tree.Sub tree') (hstat : here.stat tree path = some e) : here.stat tree' path = some e := by
  obtain ⟨place, hplace, he⟩ := Setting.stat_eq_some.mp hstat
  exact Setting.stat_eq_some.mpr ⟨place, Setting.place_mono h hplace, h _ _ he⟩

/-- What a joined path leads to, if that is no symbolic link. -/
theorem Setting.place_pathJoin (hplace : here.place tree path = some dir) (he : tree.entry (dir ++ [name]) = some e)
    (hlink : ∀ target, e ≠ .link target) : here.place tree (pathJoin path name.val) = some (dir ++ [name]) := by
  have hne := here.ne_nil_of_place hplace
  have hdir := directory_of_entry (he ▸ Option.some_ne_none e)
  rw [Setting.place_of_ne_nil hne] at hplace
  rw [Setting.place_of_ne_nil (pathJoin_ne_nil hne _), route_pathJoin hne]
  exact follow_of_last (last_concat hplace hdir) he hlink

theorem Setting.lstat_pathJoin (hplace : here.place tree path = some dir) (hdir : tree.entry dir = some .directory)
    (name : FileName) : here.lstat tree (pathJoin path name.val) = tree.entry (dir ++ [name]) := by
  have hne := here.ne_nil_of_place hplace
  rw [Setting.place_of_ne_nil hne] at hplace
  rw [Setting.lstat, if_neg (pathJoin_ne_nil hne _), route_pathJoin hne, FileTree.lstat, last_concat hplace hdir]

/-- What a joined path leads to, if that is a directory. -/
theorem Setting.place_joined (hplace : here.place tree path = some place) {names : List FileName}
    (hdir : tree.entry (place ++ names) = some .directory) :
    here.place tree (joined path names) = some (place ++ names) := by
  induction names using List.reverseRecOn with
  | nil => rwa [List.append_nil]
  | append_singleton names last ih =>
    rw [← List.append_assoc] at hdir ⊢
    rw [joined_concat]
    exact Setting.place_pathJoin (ih (directory_of_entry (hdir ▸ Option.some_ne_none _))) hdir nofun

/-! ## Calls -/

variable {sys} {P R : World → Prop} {E : ℤ → World → Prop}

/-- What a call may do, and why it fails. -/
theorem invoke_cases {call : Call} {answer : Tree → Option (α × Tree)} {Q : α → World → Prop}
    (hdone : ∀ w, P w → ∀ a tree, answer w.tree = some (a, tree) → Q a ⟨tree, w.time + 1, w.opened⟩)
    (hfails : ∀ w e, P w → sys.fails w.time call = true ∨ answer w.tree = none → E e ⟨w.tree, w.time + 1, w.opened⟩) :
    Stateful.Triple P (invoke sys call answer) Q E R := by
  intro w hw
  unfold invoke
  dsimp only
  split
  · rename_i h
    exact hfails w _ hw (Or.inl h)
  · split
    · rename_i h
      exact hfails w _ hw (Or.inr h)
    · rename_i a tree hanswer
      exact hdone w hw a tree hanswer

theorem invoke_triple {call : Call} {answer : Tree → Option (α × Tree)} {Q : α → World → Prop}
    (hdone : ∀ w, P w → ∀ a tree, answer w.tree = some (a, tree) → Q a ⟨tree, w.time + 1, w.opened⟩)
    (hfails : ∀ w e, P w → E e ⟨w.tree, w.time + 1, w.opened⟩) : Stateful.Triple P (invoke sys call answer) Q E R :=
  invoke_cases hdone fun w e hw _ => hfails w e hw

/-! ## A directory without links to directories -/

/-- What has been done while the directory is emptied, where some paths have been opened before. -/
structure Inside (here : Setting) (tree : Tree) (place : List FileName) (before : List Str) (w : World) : Prop where
  outside : ∀ q, ¬place <+: q → w.tree.entry q = tree.entry q
  removed : w.tree.Sub tree
  links : ∀ path ∈ w.opened, path ∈ before ∨ ∀ target, here.lstat tree path ≠ some (.link target)

variable {before : List Str}

theorem Inside.later {w : World} (h : Inside here tree place before w) (time : ℕ) :
    Inside here tree place before ⟨w.tree, time, w.opened⟩ := ⟨h.outside, h.removed, h.links⟩

theorem Inside.of_removed {w : World} (h : Inside here tree place before w) {q : List FileName} (hq : place <+: q)
    (hremoved : w.tree.Removed tree' q) (time : ℕ) : Inside here tree place before ⟨tree', time, w.opened⟩ where
  outside q' hq' := by
    rw [hremoved.2 q' fun heq => hq' (heq ▸ hq), h.outside q' hq']
  removed := hremoved.sub.trans h.removed
  links := h.links

theorem argonPathJoin_triple (parent : Str) (child : Str) :
    Stateful.Triple (Inside here tree place before) (argonPathJoin sys parent child)
      (fun path w => path = pathJoin parent child ∧ Inside here tree place before w) (fun _ => Inside here tree place before) R := by
  refine .bind (M := fun r w => (∀ path, r = .ok path → path = pathJoin parent child) ∧ Inside here tree place before w)
    (.attempt (invoke_triple (fun w hw a tree' h => ?_) fun w e hw => ?_)) fun r => ?_
  · cases h
    exact ⟨fun path h => (Except.ok.inj h).symm, hw.later _⟩
  · exact ⟨nofun, hw.later _⟩
  · cases r with
    | ok path => exact .pure fun w hw => ⟨hw.1 path rfl, hw.2⟩
    | error e => exact .throw fun w hw => hw.2

/-- What `stat` has seen was there at first. -/
theorem argonIsDirectory_triple {E : ε → World → Prop} (path : Str) :
    Stateful.Triple (Inside here tree place before) (argonIsDirectory here sys path)
      (fun b w => (b = true → here.stat tree path = some .directory) ∧ Inside here tree place before w) E R := by
  refine .bind (M := fun r w => (∀ e, r = .ok e → here.stat tree path = some e) ∧ Inside here tree place before w)
    (.attempt (invoke_triple (fun w hw a tree' h => ?_) fun w e hw => ?_)) fun r => ?_
  · obtain ⟨e, he, heq⟩ := Option.map_eq_some_iff.mp h
    cases heq
    refine ⟨fun e' h => ?_, hw.later _⟩
    cases h
    exact Setting.stat_mono hw.removed he
  · exact ⟨nofun, hw.later _⟩
  · rcases r with e | (e | _ | target | _)
    case ok.directory => exact .pure fun w hw => ⟨fun _ => hw.1 _ rfl, hw.2⟩
    all_goals exact .pure fun w hw => ⟨nofun, hw.2⟩

/-- A directory of which no symbolic link is the path is opened. -/
theorem opendir_triple (hplace : here.place tree path = some dir)
    (hlstat : ∀ target, here.lstat tree path ≠ some (.link target)) :
    Stateful.Triple (Inside here tree place before) (opendir here sys path)
      (fun names w => (∀ child ∈ names, child = dot ∨ child = dotDot ∨
        ∃ name, tree.entry (dir ++ [name]) ≠ none ∧ name.val = child) ∧ Inside here tree place before w)
      (fun _ => Inside here tree place before) R := by
  refine .bind (M := fun _ => Inside here tree place before) (.get fun w hw => hw) fun time => ?_
  refine .bind (M := fun names w => (∀ name ∈ names, tree.entry (dir ++ [name]) ≠ none) ∧ Inside here tree place before w)
    (invoke_triple (fun w hw names tree' h => ?_) fun w e hw => hw.later _) fun names => ?_
  · obtain ⟨-, h⟩ := Option.ite_none_right_eq_some.mp h
    obtain ⟨dir', hdir', heq⟩ := Option.map_eq_some_iff.mp h
    cases heq
    refine ⟨fun name hname => ?_, hw.later _⟩
    obtain rfl : dir' = dir := Option.some.inj ((Setting.place_mono hw.removed hdir').symm.trans hplace)
    obtain ⟨e, he⟩ := Option.ne_none_iff_exists'.mp (mem_names.mp hname)
    rw [hw.removed _ _ he]
    exact Option.some_ne_none e
  · refine .bind (M := fun _ w => (∀ name ∈ names, tree.entry (dir ++ [name]) ≠ none) ∧ Inside here tree place before w)
      (.modify fun w hw => ⟨hw.1, hw.2.outside, hw.2.removed, fun p hp => ?_⟩) fun _ => .pure fun w hw => ⟨?_, hw.2⟩
    · rcases List.mem_append.mp hp with hp | hp
      · exact hw.2.links p hp
      · rw [List.mem_singleton.mp hp]
        exact Or.inr hlstat
    · intro child hchild
      rcases sys.mem_list hchild with h | h | ⟨name, hname, h⟩
      · exact Or.inl h
      · exact Or.inr (Or.inl h)
      · exact Or.inr (Or.inr ⟨name, hw.1 name hname, h⟩)

theorem unlink_triple (hplace : here.place tree path = some dir) (hbelow : place <+: dir) (name : FileName) :
    Stateful.Triple (Inside here tree place before) (unlink here sys (pathJoin path name.val))
      (fun _ => Inside here tree place before) (fun _ => Inside here tree place before) R := by
  refine invoke_triple (fun w hw a tree' h => ?_) fun w e hw => hw.later _
  have hne := here.ne_nil_of_place hplace
  rw [Setting.place_of_ne_nil hne] at hplace
  rw [if_neg (pathJoin_ne_nil hne _), route_pathJoin hne] at h
  obtain ⟨tree'', hunlink, heq⟩ := Option.map_eq_some_iff.mp h
  cases heq
  obtain ⟨dir', name', hlast, -, -, hremoved⟩ := of_unlink hunlink
  obtain ⟨rfl, rfl⟩ := of_last_concat hplace (last_mono hw.removed hlast)
  exact hw.of_removed (hbelow.trans (List.prefix_append _ _)) hremoved _

/-- A directory that is removed is the one that the path was one of at first. -/
theorem rmdir_triple (hplace : here.place tree path = some dir) (hbelow : place <+: dir) :
    Stateful.Triple (Inside here tree place before) (rmdir here sys path)
      (fun _ w => w.tree.entry dir = none ∧ Inside here tree place before w) (fun _ => Inside here tree place before) R := by
  refine invoke_triple (fun w hw a tree' h => ?_) fun w e hw => hw.later _
  have hne := here.ne_nil_of_place hplace
  rw [Setting.place_of_ne_nil hne] at hplace
  rw [if_neg hne] at h
  obtain ⟨tree'', hrmdir, heq⟩ := Option.map_eq_some_iff.mp h
  cases heq
  obtain ⟨parent, name, hlast, hdir, -, hremoved⟩ := of_rmdir hrmdir
  have hfollow := follow_of_last (last_mono hw.removed hlast) (hw.removed _ _ hdir) nofun
  obtain rfl : parent ++ [name] = dir := Option.some.inj (hfollow.symm.trans hplace)
  exact ⟨hremoved.1, hw.of_removed hbelow hremoved _⟩

section

variable {start : Str} (hlinks : ∀ names target, tree.entry (place ++ names) = some (.link target) →
  here.stat tree (joined start names) ≠ some .directory)
include hlinks

/-- An entry is unlinked or it is a directory, since no symbolic link leads to one. -/
theorem removeEntry_triple {remove : Str → Stateful World ℤ Unit} {below : List FileName} {name : FileName}
    (hplace : here.place tree (joined start below) = some (place ++ below))
    (hsome : tree.entry (place ++ (below ++ [name])) ≠ none)
    (hremove : tree.entry (place ++ (below ++ [name])) = some .directory →
      here.place tree (joined start (below ++ [name])) = some (place ++ (below ++ [name])) →
        Stateful.Triple (Inside here tree place before) (remove (joined start (below ++ [name])))
          (fun _ => Inside here tree place before) (fun _ => Inside here tree place before) R) :
    Stateful.Triple (Inside here tree place before) (removeEntry here sys remove (joined start (below ++ [name])))
      (fun _ => Inside here tree place before) (fun _ => Inside here tree place before) R := by
  refine .bind (argonIsDirectory_triple _) fun b => .of_state fun w hw => ?_
  obtain ⟨hdirectory, hw⟩ := hw
  refine Stateful.Triple.in_state ?_ hw
  refine .ite (fun hb => ?_) fun _ => ?_
  · have hstat := hdirectory hb
    obtain ⟨e, he⟩ := Option.ne_none_iff_exists'.mp hsome
    have hlink : ∀ target, e ≠ .link target := by
      rintro target rfl
      exact hlinks (below ++ [name]) target he hstat
    rw [← List.append_assoc] at he
    have hchild := Setting.place_pathJoin hplace he hlink
    rw [← joined_concat] at hchild
    rw [Setting.stat, hchild, Option.bind_some, he] at hstat
    rw [List.append_assoc] at he hchild
    exact hremove (hstat ▸ he) hchild
  · rw [joined_concat]
    exact unlink_triple hplace (List.prefix_append _ _) name

/-- The loop empties a directory, if the function removes the directories in it. -/
theorem removeEntries_triple {remove : Str → Stateful World ℤ Unit} {below : List FileName}
    (hplace : here.place tree (joined start below) = some (place ++ below))
    (hremove : ∀ name, tree.entry (place ++ (below ++ [name])) = some .directory →
      here.place tree (joined start (below ++ [name])) = some (place ++ (below ++ [name])) →
        Stateful.Triple (Inside here tree place before) (remove (joined start (below ++ [name])))
          (fun _ => Inside here tree place before) (fun _ => Inside here tree place before) R)
    (names : List Str) (hnames : ∀ child ∈ names, child = dot ∨ child = dotDot ∨
      ∃ name, tree.entry (place ++ below ++ [name]) ≠ none ∧ name.val = child) :
    Stateful.Triple (Inside here tree place before) (removeEntries here sys remove (joined start below) names)
      (fun _ => Inside here tree place before) (fun _ => Inside here tree place before) R := by
  induction names with
  | nil => exact .pure fun w hw => hw
  | cons child rest ih =>
    have hrest := ih fun child' h => hnames child' (List.mem_cons_of_mem _ h)
    refine .ite (fun _ => hrest) fun hdots => ?_
    obtain ⟨hdot, hdotDot⟩ := not_or.mp hdots
    obtain ⟨name, hsome, rfl⟩ := ((hnames child List.mem_cons_self).resolve_left hdot).resolve_left hdotDot
    refine .bind (argonPathJoin_triple _ name.val) fun path => .of_state fun w hw => ?_
    obtain ⟨rfl, hw⟩ := hw
    refine Stateful.Triple.in_state ?_ hw
    rw [List.append_assoc] at hsome
    rw [← joined_concat]
    exact .bind (removeEntry_triple hlinks hplace hsome (hremove name)) fun _ => hrest

/-- A directory in the directory is removed, and it is if the fuel is enough for what is in it. -/
theorem argonRemoveDirectoryNative_triple (fuel : ℕ) (below : List FileName)
    (hfuel : tree.depth < fuel + (place ++ below).length ∨ ∀ w, R w)
    (hplace : here.place tree (joined start below) = some (place ++ below))
    (hdir : tree.entry (place ++ below) = some .directory)
    (hlstat : ∀ target, here.lstat tree (joined start below) ≠ some (.link target)) :
    Stateful.Triple (Inside here tree place before)
      (argonRemoveDirectoryNative here sys fuel (joined start below))
      (fun _ w => w.tree.entry (place ++ below) = none ∧ Inside here tree place before w)
      (fun _ => Inside here tree place before) R := by
  induction fuel generalizing below with
  | zero =>
    have hdepth := length_le_depth (hdir ▸ Option.some_ne_none _)
    exact .goOn fun w _ => hfuel.resolve_left (by omega) w
  | succ fuel ih =>
    refine .bind (opendir_triple hplace hlstat) fun names => .of_state fun w hw => ?_
    obtain ⟨hnames, hw⟩ := hw
    refine Stateful.Triple.in_state ?_ hw
    refine .bind (removeEntries_triple hlinks hplace (fun name he hchild => ?_) names hnames) fun _ =>
      rmdir_triple hplace (List.prefix_append _ _)
    have hlstat' := Setting.lstat_pathJoin hplace hdir name
    rw [List.append_assoc, he, ← joined_concat] at hlstat'
    refine (ih (below ++ [name]) ?_ hchild he ?_).conseq (fun _ h => h) (fun _ _ h => h.2) (fun _ _ h => h) fun _ h => h
    · simp only [List.length_append, List.length_singleton] at hfuel ⊢
      exact hfuel.imp_left fun _ => by omega
    · rw [hlstat']
      nofun

end

/-- Without such a link, deletion is confined and ends. -/
theorem confined_of_not_link {path : Str} (hplace : here.place tree (argonPathToCString path) = some place)
    (hdir : tree.entry place = some .directory) (hno : ¬LinkToDirectory here tree (argonPathToCString path) place) :
    ∃ fuel, (deleteDir here sys fuel path ⟨tree, 0, []⟩).1 ≠ .running ∧
      Confined here tree place (deleteDir here sys fuel path ⟨tree, 0, []⟩) := by
  obtain ⟨hlstat, hlinks⟩ := not_or.mp hno
  have hlinks : ∀ names target, tree.entry (place ++ names) = some (.link target) →
      here.stat tree (joined (argonPathToCString path) names) ≠ some .directory :=
    fun names target hentry hstat => hlinks ⟨names, target, hentry, hstat⟩
  have hremove : Stateful.Triple (Inside here tree place []) (argonRemoveDirectoryNative here sys _ _) _ _ fun _ => False :=
    argonRemoveDirectoryNative_triple hlinks (tree.depth + 1) []
    (.inl (by rw [List.append_nil]; omega)) (by rwa [List.append_nil]) (by rwa [List.append_nil])
    fun target h => hlstat ⟨target, h⟩
  rw [List.append_nil] at hremove
  have hrun : Stateful.Triple (Inside here tree place []) (deleteDir here sys (tree.depth + 1) path)
      (fun _ w => w.tree.entry place = none ∧ Inside here tree place [] w) (fun _ => Inside here tree place [])
      fun _ => False := by
    refine .bind (argonIsDirectory_triple _) fun b => .ite (fun _ => ?_) fun _ => .throw fun w hw => hw.2
    refine .bind (M := fun r w => (r = .ok () → w.tree.entry place = none) ∧ Inside here tree place [] w)
      (.attempt ?_) fun r => ?_
    · exact hremove.conseq (fun _ h => h.2) (fun _ _ h => ⟨fun _ => h.1, h.2⟩) (fun _ _ h => ⟨nofun, h⟩) fun _ h => h
    · cases r with
      | ok => exact .pure fun w hw => ⟨hw.1 rfl, hw.2⟩
      | error e => exact .throw fun w hw => hw.2
  have hend := hrun ⟨tree, 0, []⟩ ⟨fun _ _ => rfl, .refl _, fun p hp => absurd hp List.not_mem_nil⟩
  refine ⟨tree.depth + 1, ?_⟩
  rcases hresult : deleteDir here sys (tree.depth + 1) path ⟨tree, 0, []⟩ with ⟨a | e | _, w⟩
  all_goals rw [hresult] at hend
  case done => exact ⟨nofun, hend.2.outside, hend.2.removed, fun _ => hend.1,
    fun p hp => (hend.2.links p hp).resolve_left List.not_mem_nil⟩
  case thrown => exact ⟨nofun, hend.outside, hend.removed, nofun,
    fun p hp => (hend.links p hp).resolve_left List.not_mem_nil⟩
  case running => exact hend.elim

/-! ## A link to a directory -/

/-- A call that is made where nothing fails. -/
theorem invoke_of_answer {call : Call} {answer : Tree → Option (α × Tree)} {Q : α → World → Prop}
    (h : ∀ w, P w → sys.fails w.time call = false ∧
      ∃ a tree, answer w.tree = some (a, tree) ∧ Q a ⟨tree, w.time + 1, w.opened⟩) :
    Stateful.Triple P (invoke sys call answer) Q E R := by
  intro w hw
  obtain ⟨hfails, a, tree, hanswer, hQ⟩ := h w hw
  unfold invoke
  dsimp only
  rw [hfails, if_neg Bool.false_ne_true, hanswer]
  exact hQ

/-- What removing entries and opening directories does not change. -/
structure Kept (I : World → Prop) : Prop where
  removed : ∀ {w : World} {tree : Tree}, I w → tree.Sub w.tree → I ⟨tree, w.time + 1, w.opened⟩
  opened : ∀ {w : World} (path : Str), I w → I { w with opened := w.opened ++ [path] }

theorem kept_opened (opened : Str) : Kept fun w => opened ∈ w.opened := ⟨fun h _ => h, fun _ h => List.mem_append_left _ h⟩

section

variable {I : World → Prop} (hI : Kept I)
include hI

theorem invoke_keeps {call : Call} {answer : Tree → Option (α × Tree)}
    (h : ∀ tree a tree', answer tree = some (a, tree') → tree'.Sub tree) : Stateful.Keeps I (invoke sys call answer) :=
  invoke_triple (fun _ hw _ _ hanswer => hI.removed hw (h _ _ _ hanswer)) fun _ _ hw => hI.removed hw (.refl _)

theorem argonPathJoin_keeps (parent child : Str) : Stateful.Keeps I (argonPathJoin sys parent child) := by
  refine Stateful.Keeps.bind (Stateful.Keeps.attempt (invoke_keeps hI fun tree a tree' h => ?_)) fun r => ?_
  · cases h
    exact .refl _
  · cases r with
    | ok => exact Stateful.Keeps.pure _
    | error => exact Stateful.Keeps.throw _

theorem argonIsDirectory_keeps (path : Str) :
    Stateful.Keeps I (argonIsDirectory here sys path : Stateful World ε Bool) := by
  refine Stateful.Keeps.bind (Stateful.Keeps.attempt (invoke_keeps hI fun tree a tree' h => ?_)) fun r => ?_
  · obtain ⟨e, -, heq⟩ := Option.map_eq_some_iff.mp h
    cases heq
    exact .refl _
  · rcases r with e | (e | _ | target | _)
    all_goals exact Stateful.Keeps.pure _

theorem opendir_keeps (path : Str) : Stateful.Keeps I (opendir here sys path) := by
  refine Stateful.Keeps.bind (.get fun w hw => hw) fun _ =>
    Stateful.Keeps.bind (invoke_keeps hI fun tree a tree' h => ?_) fun _ =>
      Stateful.Keeps.bind (.modify fun w hw => hI.opened path hw) fun _ => Stateful.Keeps.pure _
  obtain ⟨-, h⟩ := Option.ite_none_right_eq_some.mp h
  obtain ⟨place, -, heq⟩ := Option.map_eq_some_iff.mp h
  cases heq
  exact .refl _

theorem unlink_keeps (path : Str) : Stateful.Keeps I (unlink here sys path) := by
  refine invoke_keeps hI fun tree a tree' h => ?_
  obtain ⟨-, h⟩ := Option.ite_none_left_eq_some.mp h
  obtain ⟨tree'', hunlink, heq⟩ := Option.map_eq_some_iff.mp h
  cases heq
  obtain ⟨_, _, -, -, -, hremoved⟩ := of_unlink hunlink
  exact hremoved.sub

theorem rmdir_keeps (path : Str) : Stateful.Keeps I (rmdir here sys path) := by
  refine invoke_keeps hI fun tree a tree' h => ?_
  obtain ⟨-, h⟩ := Option.ite_none_left_eq_some.mp h
  obtain ⟨tree'', hrmdir, heq⟩ := Option.map_eq_some_iff.mp h
  cases heq
  obtain ⟨_, _, -, -, -, hremoved⟩ := of_rmdir hrmdir
  exact hremoved.sub

theorem removeEntry_keeps {remove : Str → Stateful World ℤ Unit}
    (hremove : ∀ child, Stateful.Keeps I (remove child)) (child : Str) :
    Stateful.Keeps I (removeEntry here sys remove child) :=
  Stateful.Keeps.bind (argonIsDirectory_keeps hI _) fun _ => .ite (fun _ => hremove child) fun _ => unlink_keeps hI _

theorem removeEntries_keeps {remove : Str → Stateful World ℤ Unit}
    (hremove : ∀ child, Stateful.Keeps I (remove child)) (path : Str) (names : List Str) :
    Stateful.Keeps I (removeEntries here sys remove path names) := by
  induction names with
  | nil => exact Stateful.Keeps.pure ()
  | cons child rest ih =>
    refine .ite (fun _ => ih) fun _ => Stateful.Keeps.bind (argonPathJoin_keeps hI _ _) fun child => ?_
    exact Stateful.Keeps.bind (removeEntry_keeps hI hremove child) fun _ => ih

theorem argonRemoveDirectoryNative_keeps (fuel : ℕ) (path : Str) :
    Stateful.Keeps I (argonRemoveDirectoryNative here sys fuel path) := by
  induction fuel generalizing path with
  | zero => exact .goOn fun w hw => hw
  | succ fuel ih =>
    exact Stateful.Keeps.bind (opendir_keeps hI path) fun names =>
      Stateful.Keeps.bind (removeEntries_keeps hI ih path names) fun _ => rmdir_keeps hI path

end

/-- Nothing fails, and of each directory on the way to an entry only the next name is listed. The call that opens a
directory is the third behind the one that opens the directory that it is in. -/
def towards (names : List FileName) : System where
  fails _ _ := false
  errno _ := 0
  list time _ entries :=
    match names[(time - 1) / 3]? with
    | some name => if name ∈ entries then [name.val] else []
    | none => []
  mem_list {time path entries name} h := by
    refine Or.inr (Or.inr ?_)
    split at h
    · rename_i next hnext
      obtain ⟨hmem, h⟩ := List.mem_ite_nil_right.mp h
      exact ⟨next, hmem, (List.mem_singleton.mp h).symm⟩
    · exact absurd h List.not_mem_nil
  nodup_list {time path entries} _ := by
    split
    · split
      · exact List.nodup_singleton _
      · exact List.nodup_nil
    · exact List.nodup_nil
  bytes _ := 0
  data _ := []
  strerror _ := []

/-- The file system is as it was, and a number of calls has been made. -/
def Untouched (tree : Tree) (time : ℕ) (w : World) : Prop := w.tree = tree ∧ w.time = time

theorem argonIsDirectory_of_stat {names : List FileName} {time : ℕ} {E : ε → World → Prop}
    (h : here.stat tree path = some .directory) :
    Stateful.Triple (Untouched tree time) (argonIsDirectory here (towards names) path)
      (fun b w => b = true ∧ Untouched tree (time + 1) w) E R := by
  refine .bind (M := fun r w => r = .ok .directory ∧ Untouched tree (time + 1) w)
    (.attempt (invoke_of_answer fun w hw => ⟨rfl, .directory, tree, ?_, rfl, rfl, ?_⟩)) fun r => .of_state fun w hw => ?_
  · rw [hw.1, h, Option.map_some]
  · rw [hw.2]
  · obtain ⟨rfl, hw⟩ := hw
    exact .pure fun w' h => ⟨rfl, h ▸ hw⟩

theorem opendir_of_stat {names : List FileName} {time : ℕ} (hplace : here.place tree path = some dir)
    (hdir : tree.entry dir = some .directory) :
    Stateful.Triple (Untouched tree time) (opendir here (towards names) path)
      (fun listed w => listed = (towards names).list time path (tree.names dir) ∧ path ∈ w.opened ∧
        Untouched tree (time + 1) w) E R := by
  have hstat : here.stat tree path = some .directory := Setting.stat_eq_some.mpr ⟨dir, hplace, hdir⟩
  refine .bind (M := fun t w => t = time ∧ Untouched tree time w) (.get fun w hw => ⟨hw.2, hw⟩) fun t => ?_
  refine .bind (M := fun entries w => t = time ∧ entries = tree.names dir ∧ Untouched tree (time + 1) w)
    (invoke_of_answer fun w hw => ⟨rfl, tree.names dir, tree, ?_, hw.1, rfl, rfl, ?_⟩) fun entries => ?_
  · rw [hw.2.1, if_pos hstat, hplace, Option.map_some]
  · rw [hw.2.2]
  · refine .bind (M := fun _ w => t = time ∧ entries = tree.names dir ∧ path ∈ w.opened ∧ Untouched tree (time + 1) w)
      (.modify fun w hw => ⟨hw.1, hw.2.1, List.mem_append_right _ (List.mem_singleton_self _), hw.2.2⟩) fun _ =>
        .pure fun w hw => ?_
    obtain ⟨rfl, rfl, hw⟩ := hw
    exact ⟨rfl, hw⟩

theorem argonPathJoin_of_untouched {names : List FileName} {time : ℕ} (parent child : Str) :
    Stateful.Triple (Untouched tree time) (argonPathJoin (towards names) parent child)
      (fun path w => path = pathJoin parent child ∧ Untouched tree (time + 1) w) E R := by
  refine .bind (M := fun r w => r = .ok (pathJoin parent child) ∧ Untouched tree (time + 1) w)
    (.attempt (invoke_of_answer fun w hw => ⟨rfl, _, w.tree, rfl, rfl, hw.1, ?_⟩)) fun r => .of_state fun w hw => ?_
  · rw [hw.2]
  · obtain ⟨rfl, hw⟩ := hw
    exact .pure fun w' h => ⟨rfl, h ▸ hw⟩

/-- Of a directory on the way the next name is listed. -/
theorem towards_list {names pre post entries : List FileName} (hnames : names = pre ++ name :: post)
    (hmem : name ∈ entries) (path : Str) :
    (towards names).list (1 + 3 * pre.length) path entries = [name.val] := by
  have hindex : (1 + 3 * pre.length - 1) / 3 = pre.length := by omega
  have hname : names[pre.length]? = some name := by rw [hnames, List.getElem?_append_right le_rfl]; simp
  simp only [towards, hindex, hname, if_pos hmem]

/-- A loop over the name of a directory, which is emptied after two more calls. -/
theorem removeEntries_of_stat {names : List FileName} {time : ℕ} {remove : Str → Stateful World ℤ Unit}
    {I : World → Prop} (hstat : here.stat tree (pathJoin path name.val) = some .directory)
    (hremove : Stateful.Triple (Untouched tree (time + 1 + 1)) (remove (pathJoin path name.val)) (fun _ => I)
      (fun _ => I) R) :
    Stateful.Triple (Untouched tree time) (removeEntries here (towards names) remove path [name.val]) (fun _ => I)
      (fun _ => I) R := by
  rw [removeEntries, if_neg (not_or.mpr ⟨name.2.2.1, name.2.2.2⟩)]
  refine .bind_state (argonPathJoin_of_untouched _ _) fun child w hw => ?_
  obtain ⟨rfl, hw⟩ := hw
  refine .bind (M := fun _ => I) ?_ fun _ => .pure fun _ h => h
  refine .bind_state ((argonIsDirectory_of_stat hstat).in_state hw) fun b w' hw' => ?_
  obtain ⟨rfl, hw'⟩ := hw'
  exact hremove.in_state hw'

/-- The directory at the end of the way is opened, if the directories on it are. -/
theorem argonRemoveDirectoryNative_opens {start : Str} {names : List FileName} {place : List FileName}
    (hplace : here.place tree start = some place)
    (hend : here.stat tree (joined start names) = some .directory) (hsome : tree.entry (place ++ names) ≠ none)
    (fuel : ℕ) (pre post : List FileName) (hnames : names = pre ++ post) :
    Stateful.Triple (Untouched tree (1 + 3 * pre.length))
      (argonRemoveDirectoryNative here (towards names) fuel (joined start pre))
      (fun _ w => joined start names ∈ w.opened) (fun _ w => joined start names ∈ w.opened) fun _ => True := by
  have hentries : ∀ pre name post, names = pre ++ name :: post → tree.entry (place ++ pre) = some .directory := by
    intro pre name post h
    rw [h, ← List.append_assoc] at hsome
    exact directory_of_below hsome
  have hplaces : ∀ pre name post, names = pre ++ name :: post → here.place tree (joined start pre) = some (place ++ pre) :=
    fun pre name post h => Setting.place_joined hplace (hentries pre name post h)
  have hkept := kept_opened (joined start names)
  -- on the fuel: each round is one name further on the way, and three calls later
  induction fuel generalizing pre post with
  | zero => exact .goOn fun _ _ => trivial
  | succ fuel ih =>
    have hkeeps : ∀ listed, Stateful.Keeps (joined start names ∈ ·.opened) (do
        removeEntries here (towards names) (argonRemoveDirectoryNative here (towards names) fuel) (joined start pre) listed
        rmdir here (towards names) (joined start pre)) := fun listed =>
      Stateful.Keeps.bind (removeEntries_keeps hkept (argonRemoveDirectoryNative_keeps hkept fuel) _ _) fun _ =>
        rmdir_keeps hkept _
    cases post with
    | nil =>
      -- the end of the way is opened, and stays in the list whatever follows
      rw [List.append_nil] at hnames
      subst hnames
      obtain ⟨dir, hplace, hdir⟩ := Setting.stat_eq_some.mp hend
      refine .bind (opendir_of_stat hplace hdir) fun listed => ?_
      exact (hkeeps listed).conseq (fun w hw => hw.2.1) (fun _ _ h => h) (fun _ _ h => h) fun _ _ => trivial
    | cons name post =>
      have hnext : tree.entry (place ++ pre ++ [name]) ≠ none ∧
          here.stat tree (joined start (pre ++ [name])) = some .directory := by
        cases post with
        | nil =>
          rw [hnames, ← List.append_assoc] at hsome
          exact ⟨hsome, hnames ▸ hend⟩
        | cons below post =>
          have hbelow : names = (pre ++ [name]) ++ below :: post := by
            rw [hnames, List.append_assoc, List.singleton_append]
          have hentry := hentries (pre ++ [name]) below post hbelow
          refine ⟨?_, Setting.stat_eq_some.mpr ⟨_, hplaces (pre ++ [name]) below post hbelow, hentry⟩⟩
          rw [List.append_assoc, hentry]
          exact Option.some_ne_none _
      have hlisted := towards_list hnames (mem_names.mpr hnext.1) (joined start pre)
      refine .bind_state (opendir_of_stat (hplaces pre name post hnames) (hentries pre name post hnames))
        fun listed w hw => ?_
      obtain ⟨rfl, -, hw⟩ := hw
      rw [hlisted]
      refine .bind (M := fun _ w => joined start names ∈ w.opened) ?_ fun _ => (rmdir_keeps hkept _).conseq
        (fun _ h => h) (fun _ _ h => h) (fun _ _ h => h) fun _ _ => trivial
      refine Stateful.Triple.in_state (removeEntries_of_stat (joined_concat start pre name ▸ hnext.2) ?_) hw
      rw [← joined_concat]
      refine (ih (pre ++ [name]) post (by rw [hnames, List.append_assoc, List.singleton_append])).conseq
        (fun w' hw' => ⟨hw'.1, ?_⟩) (fun _ _ h => h) (fun _ _ h => h) fun _ h => h
      rw [hw'.2, List.length_append, List.length_singleton]
      omega

/-! ## The result -/

/-- Where there is such a link, something is opened by it when it is the first of its directory that is listed. -/
theorem not_link_of_confined (h : DeletionConfined here tree path)
    (hplace : here.place tree (argonPathToCString path) = some place) (hdir : tree.entry place = some .directory) :
    ¬LinkToDirectory here tree (argonPathToCString path) place := by
  intro hlink
  -- The link is the path itself, or is at the end of a way into the directory.
  obtain ⟨names, target, hlstat, hend, hsome⟩ : ∃ names target,
      here.lstat tree (joined (argonPathToCString path) names) = some (.link target) ∧
      here.stat tree (joined (argonPathToCString path) names) = some .directory ∧ tree.entry (place ++ names) ≠ none := by
    rcases hlink with ⟨target, hlstat⟩ | ⟨names, target, hentry, hstat⟩
    · refine ⟨[], target, hlstat, Setting.stat_eq_some.mpr ⟨place, hplace, hdir⟩, ?_⟩
      rw [List.append_nil, hdir]
      exact Option.some_ne_none _
    · refine ⟨names, target, ?_, hstat, hentry ▸ Option.some_ne_none _⟩
      induction names using List.reverseRecOn with
      | nil =>
        rw [List.append_nil, hdir] at hentry
        cases hentry
      | append_singleton names last =>
        rw [← List.append_assoc] at hentry
        have hparent := directory_of_entry (hentry ▸ Option.some_ne_none _)
        rw [joined_concat, Setting.lstat_pathJoin (Setting.place_joined hplace hparent) hparent, hentry]
  obtain ⟨fuel, hends, hconfined⟩ := h (towards names) place hplace hdir
  -- When the names of the way come first, what the link leads to is opened, however the run ends.
  have hrun : Stateful.Triple (Untouched tree 0) (deleteDir here (towards names) fuel path)
      (fun _ w => joined (argonPathToCString path) names ∈ w.opened)
      (fun _ w => joined (argonPathToCString path) names ∈ w.opened) fun _ => True := by
    refine .bind (argonIsDirectory_of_stat (Setting.stat_eq_some.mpr ⟨place, hplace, hdir⟩)) fun b =>
      .of_state fun w hw => ?_
    obtain ⟨rfl, hw⟩ := hw
    refine .bind (M := fun _ w => joined (argonPathToCString path) names ∈ w.opened) (.attempt ?_) fun r => ?_
    · exact (argonRemoveDirectoryNative_opens hplace hend hsome fuel [] names rfl).in_state hw
    · cases r with
      | ok => exact .pure fun _ h => h
      | error => exact .throw fun _ h => h
  have hopened := hrun ⟨tree, 0, []⟩ ⟨rfl, rfl⟩
  rcases hresult : deleteDir here (towards names) fuel path ⟨tree, 0, []⟩ with ⟨a | e | _, w⟩
  all_goals rw [hresult] at hopened hends hconfined
  case done => exact hconfined.links _ hopened target hlstat
  case thrown => exact hconfined.links _ hopened target hlstat
  case running => exact hends rfl

/-- Deletion is confined exactly if there is no symbolic link that leads to a directory. -/
theorem deletion_confined_iff (here : Setting) (tree : Tree) (path : Str) : DeletionConfined here tree path ↔
    ∀ place, here.place tree (argonPathToCString path) = some place → tree.entry place = some .directory →
      ¬LinkToDirectory here tree (argonPathToCString path) place :=
  ⟨fun h _ hplace hdir => not_link_of_confined h hplace hdir,
    fun h _ place hplace hdir => confined_of_not_link hplace hdir (h place hplace hdir)⟩

/-! ## A link out of the directory -/

instance (s : Str) : Decidable (IsField slash s) := inferInstanceAs (Decidable (_ ∧ _))

def nameD : FileName := ⟨text "d", by decide⟩

def nameL : FileName := ⟨text "l", by decide⟩

def nameT : FileName := ⟨text "t", by decide⟩

/-- `/d/l` is a link to the directory `/t`. -/
def linked : Tree where
  entries := ⟨[⟨[nameD], .directory⟩, ⟨[nameD, nameL], .link ⟨true, [.enter nameT]⟩⟩, ⟨[nameT], .directory⟩],
    by unfold List.NodupKeys; decide⟩
  root h := absurd (AList.mem_keys.mp h) (by decide)
  parent {place name} hmem hne := by
    have hkeys : place ++ [name] ∈ [[] ++ [nameD], [nameD] ++ [nameL], [] ++ [nameT]] := AList.mem_keys.mp hmem
    have hplace : place = [nameD] := by
      rcases List.mem_cons.mp hkeys with h | hkeys
      · exact absurd (List.append_inj' h rfl).1 hne
      · rcases List.mem_cons.mp hkeys with h | hkeys
        · exact (List.append_inj' h rfl).1
        · exact absurd (List.append_inj' (List.mem_singleton.mp hkeys) rfl).1 hne
    rw [hplace]
    rfl

/-- The directory `/t` is opened when `/d` is deleted. -/
theorem not_forall_deletion_confined : ¬∀ here tree path, DeletionConfined here tree path := by
  intro h
  have hpath : argonPathToCString (text "/d") = text "/d" := by decide
  have hd : linked.entry ([] ++ [nameD]) = some .directory := rfl
  have hl : linked.entry ([nameD] ++ [nameL]) = some (.link ⟨true, [.enter nameT]⟩) := rfl
  have ht : linked.entry ([] ++ [nameT]) = some .directory := rfl
  have hroute : route (text "/d") = ⟨true, [.enter nameD]⟩ := by decide
  have hplace : (⟨[], 40⟩ : Setting).place linked (text "/d") = some [nameD] := by
    rw [Setting.place_of_ne_nil (by decide), follow, hroute, Route.origin, if_pos rfl,
      walk_enter (entry_nil _) _ hd Entry.directory_ne_link, walk_nil, Option.map_some]
    rfl
  refine not_link_of_confined (h ⟨[], 40⟩ linked (text "/d")) (by rwa [hpath]) hd ?_
  rw [hpath]
  refine Or.inr ⟨[nameL], _, hl, Setting.stat_eq_some.mpr ⟨[nameT], ?_, ht⟩⟩
  rw [joined, List.foldl_cons, List.foldl_nil, Setting.place_of_ne_nil (pathJoin_ne_nil (by decide) _),
    route_pathJoin (by decide), follow, hroute, Route.concat, Route.origin, if_pos rfl, List.singleton_append,
    walk_enter (entry_nil _) _ hd Entry.directory_ne_link, walk_link hd _ hl, Route.origin, if_pos rfl, List.append_nil,
    walk_enter (entry_nil _) _ ht Entry.directory_ne_link, walk_nil, Option.map_some]
  rfl

end File

end Chloride
