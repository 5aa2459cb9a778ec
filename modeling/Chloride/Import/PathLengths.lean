import Chloride.Import.Cache

/-!
# The path of a module

The way of a path through `ar_import` and `load_argon_file` of `src/import.c`, and through `execute_code` of
`src/shell.c`, with the type of every variable that holds a length on it. All are wide enough but `path_length` of
`load_argon_file` and of `execute_code`, which is a `char`: the path that is kept with the module is the one that was
given exactly when it is shorter than 127 bytes.

The functions of cwalk are parameters. Files can be opened and sources compile, and memory is only short for a size that
no machine has.
-/

namespace Chloride

namespace PathLengths

/-! ## Types of lengths -/

/-- A length in a `size_t`. -/
def sizeT (n : ℕ) : ℤ := (n % 2^64 : ℕ)

/-- A length in an `int`. -/
def int (n : ℕ) : ℤ := Int.bmod n (2^32)

/-- A length in a `char`. -/
def char (n : ℕ) : ℤ := Int.bmod n (2^8)

/-! ## Copies -/

/-- The string at the start of a block; `none` when no byte of the block ends it. -/
def readCString (block : List UInt8) : Option (List UInt8) :=
  if 0 ∈ block then some (block.takeWhile (· ≠ 0)) else none

/-- A copy of a string: `strlen` and one more is the length of the block and of the `memcpy`. A negative one is a size
for which there is no memory. -/
def copyCString (length : ℕ → ℤ) (s : List UInt8) : Option (List UInt8) :=
  let pathLength := length (s.length + 1)
  if pathLength < 0 then none else readCString ((s ++ [0]).take pathLength.toNat)

/-! ## The way of a path -/

/-- The functions of cwalk: the last part of a path, which is within it, the length of what is in front of that, and a
path joined from two, which has at most a separator more. -/
structure Cwk where
  getBasename : List UInt8 → Option (List UInt8)
  getDirname : List UInt8 → ℕ
  join : List UInt8 → List UInt8 → List UInt8
  basename_infix : ∀ path basename, getBasename path = some basename → basename <:+: path
  dirname_le : ∀ path, getDirname path ≤ path.length
  length_join : ∀ a b, (join a b).length ≤ a.length + b.length + 1

/-- What is kept with a module, and what `load_argon_file` computes on the way. -/
structure ModulePaths where
  basename : List UInt8
  parentDirectory : List UInt8
  cacheFilePath : List UInt8
  translatedPath : List UInt8
  statePath : List UInt8
  deriving DecidableEq

/-- `CACHE_FOLDER`, `"/"` and `".bin"`. -/
def cacheFolderBytes : List UInt8 := [95, 95, 97, 114, 99, 97, 99, 104, 101, 95, 95]

/-- How a load ends: with an error, or with the paths. -/
inductive Load where
  | noBasename (path : List UInt8)
  | loaded (paths : ModulePaths)
  deriving DecidableEq

section

variable (cwk : Cwk)

/-- `load_argon_file`, of a source that compiles; `none` where it goes on with a module that was never set, and where
the copy of the path is no string. The state gets the path that was given. -/
def loadArgonFile (path : List UInt8) : Option Load :=
  match cwk.getBasename path with
  | none => some (.noBasename path)
  | some basenamePtr => do
    let basenameLength := (sizeT basenamePtr.length).toNat
    let safeLen := if basenameLength < pathMax then basenameLength else pathMax - 1
    let basename := basenamePtr.take safeLen
    let parentDirectoryLength := (sizeT (cwk.getDirname path)).toNat
    let parentDirectory := path.take parentDirectoryLength
    let cacheFolderPath := (cwk.join parentDirectory cacheFolderBytes).take (pathMax - 1)
    let cacheFilePath := cacheFolderPath ++ [47] ++ basename ++ [46, 98, 105, 110]
    let written := int cacheFilePath.length
    if 0 < written ∧ written < pathMax then
      let pathAlloc ← copyCString char path
      return .loaded ⟨basename, parentDirectory, cacheFilePath, pathAlloc, path⟩
    else none

/-- `ar_import`, from the path of the file that was found. -/
def arImport (pathC : List UInt8) : Option Load := do
  let path ← copyCString sizeT pathC
  loadArgonFile cwk path

/-- `execute_code` of the shell: the path that the module has, which the state has too. -/
def executeCode (path : List UInt8) : Option (List UInt8) := copyCString char path

/-- The paths that are kept are the one that was given, and its parts are those that cwalk finds. -/
structure PathsKept (path : List UInt8) : Prop where
  imported : ∃ l, arImport cwk path = some l ∧ ∀ paths, l = .loaded paths →
    paths.translatedPath = path ∧ paths.statePath = path ∧ cwk.getBasename path = some paths.basename ∧
      paths.parentDirectory = path.take (cwk.getDirname path)
  shell : executeCode path = some path

end

/-! ## Copies of strings -/

theorem readCString_terminated {s : List UInt8} (hs : 0 ∉ s) : readCString (s ++ [0]) = some s := by
  have hmem : (0 : UInt8) ∈ s ++ [0] := List.mem_append_right _ (List.mem_singleton_self 0)
  have hall : ∀ b ∈ s, decide (b ≠ 0) = true := by
    intro b hb
    rw [decide_eq_true_iff]
    rintro rfl
    exact hs hb
  rw [readCString, if_pos hmem, List.takeWhile_append_of_pos hall]
  simp

/-- A block that ends before the string does is not a string. -/
theorem readCString_cut {s : List UInt8} (hs : 0 ∉ s) {n : ℕ} (hn : n ≤ s.length) :
    readCString ((s ++ [0]).take n) = none := by
  rw [readCString, if_neg]
  rw [List.take_append_of_le_length hn]
  exact fun h => hs (List.mem_of_mem_take h)

/-- A copy is the string exactly when the type of the length holds it. -/
theorem copyCString_eq {length : ℕ → ℤ} {s : List UInt8} (hs : 0 ∉ s)
    (hlength : length (s.length + 1) ≤ s.length + 1) :
    copyCString length s = if length (s.length + 1) = s.length + 1 then some s else none := by
  unfold copyCString
  dsimp only
  split
  case isTrue h => rw [if_neg (by omega)]
  case isFalse h =>
    split
    case isTrue hexact =>
      have hnat : (length (s.length + 1)).toNat = (s ++ [0]).length := by
        rw [List.length_append, List.length_singleton]
        omega
      rw [hnat, List.take_length, readCString_terminated hs]
    case isFalse hcut => exact readCString_cut hs (by omega)

theorem bmod_le (n : ℕ) {m : ℕ} (hm : 0 < m) : Int.bmod n m ≤ n := by
  rw [Int.bmod_def]
  have hmod : (n : ℤ) % m ≤ n := by exact_mod_cast Nat.mod_le n m
  split <;> omega

/-- A `char` holds the lengths below 128. -/
theorem char_eq_iff (n : ℕ) : char n = n ↔ n < 128 := by
  unfold char
  rw [Int.bmod_def]
  constructor
  · intro h
    split at h <;> omega
  · intro h
    rw [if_pos (by omega)]
    omega

theorem sizeT_eq {n : ℕ} (h : n < 2^64) : sizeT n = n := by
  rw [sizeT, Nat.mod_eq_of_lt h]

theorem int_eq {n : ℕ} (h : n < 2^31) : int n = n := by
  unfold int
  rw [Int.bmod_def, if_pos (by omega)]
  omega

/-- The copy with a `char` for the length. -/
theorem copyCString_char {s : List UInt8} (hs : 0 ∉ s) :
    copyCString char s = if s.length < 127 then some s else none := by
  have hle : char (s.length + 1) ≤ s.length + 1 := by exact_mod_cast bmod_le (s.length + 1) (by omega)
  have hiff : char (s.length + 1) = s.length + 1 ↔ s.length < 127 := by
    have h := char_eq_iff (s.length + 1)
    push_cast at h
    rw [h]
    omega
  rw [copyCString_eq hs hle]
  simp only [hiff]

/-- The copy with a `size_t` for the length. -/
theorem copyCString_sizeT {s : List UInt8} (hs : 0 ∉ s) (hlength : s.length < pathMax) :
    copyCString sizeT s = some s := by
  unfold pathMax at hlength
  have h : sizeT (s.length + 1) = s.length + 1 := by exact_mod_cast sizeT_eq (n := s.length + 1) (by omega)
  rw [copyCString_eq hs h.le, if_pos h]

/-! ## The paths of a module -/

variable {cwk : Cwk} {path : List UInt8}

/-- The parts of a path shorter than `PATH_MAX` are those that cwalk finds, and the copy has a `char` for its
length. -/
theorem loadArgonFile_eq (hpath : 0 ∉ path) (hlength : path.length < 127) :
    loadArgonFile cwk path = match cwk.getBasename path with
      | none => some (.noBasename path)
      | some basename => some (.loaded ⟨basename, path.take (cwk.getDirname path),
          cwk.join (path.take (cwk.getDirname path)) cacheFolderBytes ++ [47] ++ basename ++ [46, 98, 105, 110],
          path, path⟩) := by
  unfold loadArgonFile
  cases hbasename : cwk.getBasename path with
  | none => rfl
  | some basename =>
    have hle : basename.length ≤ path.length := (cwk.basename_infix path basename hbasename).length_le
    have hdir := cwk.dirname_le path
    have hjoin := cwk.length_join (path.take (cwk.getDirname path)) cacheFolderBytes
    have hfolder : cacheFolderBytes.length = 11 := rfl
    have htake : (path.take (cwk.getDirname path)).length ≤ path.length := by
      rw [List.length_take]
      omega
    -- every length on the way is far below the bounds
    have hsize : sizeT basename.length = basename.length := sizeT_eq (by omega)
    have hsize' : sizeT (cwk.getDirname path) = cwk.getDirname path := sizeT_eq (by omega)
    have hmax : pathMax = 4096 := rfl
    dsimp only
    rw [hsize, hsize', Int.toNat_natCast, Int.toNat_natCast,
      if_pos (show basename.length < pathMax by omega), List.take_length,
      List.take_of_length_le (by omega : (cwk.join (path.take (cwk.getDirname path)) cacheFolderBytes).length ≤ _)]
    generalize hfile : cwk.join (path.take (cwk.getDirname path)) cacheFolderBytes ++ [47] ++ basename ++
      [46, 98, 105, 110] = file
    have hfilelength : file.length = (cwk.join (path.take (cwk.getDirname path)) cacheFolderBytes).length + 1 +
        basename.length + 4 := by
      rw [← hfile]
      simp only [List.length_append, List.length_cons, List.length_nil]
    rw [int_eq (by omega), if_pos (by omega), copyCString_char hpath, if_pos hlength]
    rfl

/-- The paths that are kept with a module are the one that was given exactly when it is shorter than 127 bytes. -/
theorem paths_kept_iff (cwk : Cwk) {path : List UInt8} (hpath : 0 ∉ path) (hlength : path.length < pathMax) :
    PathsKept cwk path ↔ path.length < 127 := by
  constructor
  · intro h
    have hshell := h.shell
    rw [executeCode, copyCString_char hpath] at hshell
    by_contra hlong
    rw [if_neg hlong] at hshell
    cases hshell
  · intro hshort
    refine ⟨?_, by rw [executeCode, copyCString_char hpath, if_pos hshort]⟩
    have himport : arImport cwk path = loadArgonFile cwk path := by
      rw [arImport, copyCString_sizeT hpath hlength]
      rfl
    rw [himport, loadArgonFile_eq hpath hshort]
    cases cwk.getBasename path with
    | none => exact ⟨_, rfl, nofun⟩
    | some basename =>
      refine ⟨_, rfl, fun paths hpaths => ?_⟩
      obtain rfl := Load.loaded.inj hpaths
      exact ⟨rfl, rfl, rfl, rfl⟩

/-- The functions of cwalk on a path such as `/m/a`. -/
def slashCwk : Cwk where
  getBasename path :=
    let basename := (path.reverse.takeWhile (· ≠ 47)).reverse
    if basename = [] then none else some basename
  getDirname path := (path.reverse.dropWhile (· ≠ 47)).length
  join a b := if a.getLast? = some 47 then a ++ b else a ++ [47] ++ b
  basename_infix path basename h := by
    dsimp only at h
    split at h
    · cases h
    · obtain rfl := Option.some.inj h
      have hprefix := (List.takeWhile_prefix (fun b : UInt8 => decide (b ≠ 47)) (l := path.reverse)).reverse
      rw [List.reverse_reverse] at hprefix
      exact hprefix.isInfix
  dirname_le path := by
    have h := (List.dropWhile_suffix (fun b : UInt8 => decide (b ≠ 47)) (l := path.reverse)).length_le
    rwa [List.length_reverse] at h
  length_join a b := by
    split <;> simp only [List.length_append, List.length_singleton] <;> omega

/-- The path `/m/a`. -/
theorem paths_kept_short : PathsKept slashCwk [47, 109, 47, 97] ↔ [47, 109, 47, (97 : UInt8)].length < 127 :=
  paths_kept_iff slashCwk (by decide) (by decide)

/-- A path of 127 bytes in the root directory. -/
theorem not_forall_paths_kept : ¬∀ (cwk : Cwk) (path : List UInt8), 0 ∉ path → path.length < pathMax →
    PathsKept cwk path := by
  intro hall
  have hnull : (0 : UInt8) ∉ 47 :: List.replicate 126 109 := by
    rw [List.mem_cons, List.mem_replicate]
    decide
  have hlength : (47 :: List.replicate 126 (109 : UInt8)).length = 127 := by
    rw [List.length_cons, List.length_replicate]
  have hshell := (hall slashCwk (47 :: List.replicate 126 109) hnull (by rw [hlength]; decide)).shell
  rw [executeCode, copyCString_char hnull, hlength] at hshell
  cases hshell

end PathLengths

end Chloride
