import Chloride.Bytecode.Instr
import Chloride.Objects.Number

/-!
# The cache of compiled modules

`load_cache` and `load_argon_file` of `src/import.c`. A compiled module is kept in a file beside its
source, behind a header with the version of the bytecode and the hash of the source, and in front of
a footer with the hash of all that. The two hashes, the compiler and the path functions of cwalk are
parameters. What a `FILE *` reads is the list of the bytes that are left, file operations on an open
file succeed, and so do allocations of the size of a file.

The reader gives back what the writer wrote. `load_argon_file` is right whatever the cache holds,
except where it does not have the path of the cache or keeps the length of the path in a `char`.
-/

namespace Chloride

/-- What the source makes of a module: the register count, the constant arena and the bytecode, in
one address space. -/
structure CompiledModule where
  registerCount : UInt8
  constants : List UInt8
  bytecode : List UInt8
  size_lt : constants.length + bytecode.length < 2^62
  deriving DecidableEq

/-- `FILE_IDENTIFIER`, without the byte that ends the string. -/
def fileIdentifier : List UInt8 := [65, 82, 66, 73]

/-- `bytecode_version_number`. -/
def bytecodeVersionNumber : UInt32 := 5

/-- `PATH_MAX`. -/
def pathMax : ℕ := 4096

/-! ## Reading and writing -/

/-- The bytes of a 32-bit number, the least significant first. -/
def uint32ToBytes (value : UInt32) : List UInt8 :=
  (List.range 4).map fun i => UInt8.ofNat (value.toNat >>> (i * 8))

/-- `fread` of a 32-bit number with `le32toh`. -/
def popU32 : List UInt8 → Option (UInt32 × List UInt8)
  | b₀ :: b₁ :: b₂ :: b₃ :: bs =>
    some (UInt32.ofNat (b₀.toNat + 2^8 * b₁.toNat + 2^16 * b₂.toNat + 2^24 * b₃.toNat), bs)
  | _ => none

/-- `fread` of a number of bytes; `none` when there are not as many. -/
def fread (size : ℕ) (bs : List UInt8) : Option (List UInt8 × List UInt8) :=
  if size ≤ bs.length then some (bs.take size, bs.drop size) else none

/-- A 32-bit number is read back from its bytes. -/
@[simp]
theorem popU32_uint32ToBytes (value : UInt32) (bs : List UInt8) :
    popU32 (uint32ToBytes value ++ bs) = some (value, bs) := by
  have hbytes : uint32ToBytes value ++ bs =
      UInt8.ofNat (value.toNat >>> 0) :: UInt8.ofNat (value.toNat >>> 8) ::
      UInt8.ofNat (value.toNat >>> 16) :: UInt8.ofNat (value.toNat >>> 24) :: bs := rfl
  have hlt : value.toNat < 2^32 := value.toNat_lt
  rw [hbytes, popU32]
  simp only [Option.some.injEq, Prod.mk.injEq, and_true]
  rw [← UInt32.toNat_inj, UInt32.toNat_ofNat']
  simp only [UInt8.toNat_ofNat', Nat.shiftRight_eq_div_pow]
  omega

/-- Bytes are read back. -/
@[simp]
theorem fread_append (data bs : List UInt8) : fread data.length (data ++ bs) = some (data, bs) := by
  have hle : data.length ≤ (data ++ bs).length := by
    rw [List.length_append]
    omega
  rw [fread, if_pos hle, List.take_left, List.drop_left]

section Cache

variable (footerHash : List UInt8 → UInt64)

/-- What `load_argon_file` writes in front of the footer. -/
def cacheData (version : UInt32) (hash : UInt64) (t : CompiledModule) : List UInt8 :=
  fileIdentifier ++ (uint32ToBytes version ++ (uint64ToBytes hash ++ (t.registerCount ::
    (uint64ToBytes (UInt64.ofNat t.constants.length) ++
      (uint64ToBytes (UInt64.ofNat t.bytecode.length) ++ (t.constants ++ t.bytecode))))))

/-- Data with its footer. -/
def withFooter (data : List UInt8) : List UInt8 := data ++ uint64ToBytes (footerHash data)

/-- The cache file of a module. -/
def cacheFile (hash : UInt64) (t : CompiledModule) : List UInt8 :=
  withFooter footerHash (cacheData bytecodeVersionNumber hash t)

/-- The first part of `load_cache`: the last eight bytes are the hash of the bytes before them. -/
def checkFooter (bytes : List UInt8) : Bool :=
  if bytes.length < 8 then false
  else
    let dataSize := bytes.length - 8
    match popU64 (bytes.drop dataSize) with
    | none => false
    | some (storedHash, _) => footerHash (bytes.take dataSize) = storedHash

/-- The second part of `load_cache`. -/
def parseCache (hash : UInt64) (bytes : List UInt8) : Option CompiledModule := do
  let (fileIdentifierFromCache, bs) ← fread fileIdentifier.length bytes
  if fileIdentifierFromCache ≠ fileIdentifier then none
  let (readBytecodeVersion, bs) ← popU32 bs
  if readBytecodeVersion ≠ bytecodeVersionNumber then none
  let (readHash, bs) ← popU64 bs
  if readHash ≠ hash then none
  let (registerCount, bs) ← popByte bs
  let (constantsSize, bs) ← popU64 bs
  let (bytecodeSize, bs) ← popU64 bs
  let (constants, bs) ← fread constantsSize.toNat bs
  let (bytecode, _) ← fread bytecodeSize.toNat bs
  if h : constants.length + bytecode.length < 2^62 then return ⟨registerCount, constants, bytecode, h⟩
  else none

/-- `load_cache`, on the content of the file; `none` where it returns 1. -/
def loadCache (file : Option (List UInt8)) (hash : UInt64) : Option CompiledModule :=
  match file with
  | none => none
  | some bytes => if checkFooter footerHash bytes then parseCache hash bytes else none

end Cache

/-! ## Loading a module -/

/-- The functions of cwalk that `load_argon_file` calls: the last part of a path, what is in front of
it, and a path joined from two. -/
structure Cwalk where
  getBasename : String → Option String
  getDirname : String → String
  join : String → String → String

/-- What is in the file system for a module: its source and its cache file, if they can be opened,
and whether the cache folder can be had and the cache file in it be written. -/
structure Files where
  source : Option (List UInt8)
  cache : Option (List UInt8)
  ensureDirExists : Bool
  canWriteCache : Bool

/-- The error of a path without a last part. -/
def noBasenameError (path : String) : ArErr := ⟨"PathError", "path has no basename '" ++ path ++ "'"⟩

/-- The error of a source that cannot be opened. -/
def unableToOpenError (path : String) : ArErr := ⟨"FileError", "Unable to open file '" ++ path ++ "'"⟩

/-- `CACHE_FOLDER`. -/
def cacheFolder : String := "__arcache__"

/-- `can_use_cache`: `snprintf` of `"%s/%s.bin"` has written less than the buffer holds. Both strings
come from buffers of the same size. -/
def canUseCache (cwalk : Cwalk) (path basename : String) : Bool :=
  let cacheFolderPath := cwalk.join (cwalk.getDirname path) cacheFolder
  min cacheFolderPath.utf8ByteSize (pathMax - 1) + 1 + min basename.utf8ByteSize (pathMax - 1) + 4
    < pathMax

/-- `char path_length`: the length of the path with the byte that ends it, in a signed byte. -/
def charPathLength (path : String) : ℤ :=
  let n : ℤ := ((path.utf8ByteSize + 1) % 256 : ℕ)
  if n < 128 then n else n - 256

section Load

variable (cwalk : Cwalk) (sourceHash footerHash : List UInt8 → UInt64)
  (compile : List UInt8 → Except ArErr CompiledModule)

/-- The part of `load_argon_file` that compiles the source and writes the cache: the result, and what
the cache file holds then. -/
def compileSource (files : Files) (source : List UInt8) :
    Except ArErr CompiledModule × Option (List UInt8) :=
  match compile source with
  | .error err => (.error err, files.cache)
  | .ok translated =>
    (.ok translated,
      if files.ensureDirExists ∧ files.canWriteCache then
        some (cacheFile footerHash (sourceHash source) translated)
      else files.cache)

/-- `load_argon_file`: the result, and what the cache file holds then. It is `none` where the source
goes on with a module that was never set, and where it copies the path with a negative length. -/
def loadArgonFile (path : String) (files : Files) :
    Option (Except ArErr CompiledModule × Option (List UInt8)) :=
  match cwalk.getBasename path with
  | none => some (.error (noBasenameError path), files.cache)
  | some basename =>
    match files.source with
    | none => some (.error (unableToOpenError path), files.cache)
    | some source =>
      -- Without the path of the cache neither branch is taken.
      if canUseCache cwalk path basename then
        let result : Except ArErr CompiledModule × Option (List UInt8) :=
          match loadCache footerHash files.cache (sourceHash source) with
          | some translated => (.ok translated, files.cache)
          | none => compileSource sourceHash footerHash compile files source
        match result.1 with
        | .error _ => some result
        | .ok _ => if 0 ≤ charPathLength path then some result else none
      else none

end Load

/-! ## The round trip -/

section RoundTrip

variable {footerHash : List UInt8 → UInt64}

/-- The footer of data that was written with one is right. -/
theorem checkFooter_withFooter (data : List UInt8) :
    checkFooter footerHash (withFooter footerHash data) = true := by
  have hlength : (withFooter footerHash data).length = data.length + 8 := by
    rw [withFooter, List.length_append, length_uint64ToBytes]
  have hdrop : (withFooter footerHash data).drop data.length = uint64ToBytes (footerHash data) :=
    List.drop_left
  have htake : (withFooter footerHash data).take data.length = data := List.take_left
  have hpop : popU64 (uint64ToBytes (footerHash data)) = some (footerHash data, []) := by
    simpa using popU64_uint64ToBytes (footerHash data) []
  unfold checkFooter
  rw [hlength, if_neg (by omega), Nat.add_sub_cancel]
  dsimp only
  rw [hdrop, htake, hpop]
  exact decide_eq_true rfl

/-- The reader accepts what the writer wrote for the source hash, and nothing else that it wrote. -/
theorem parseCache_cacheData (hash hash' : UInt64) (t : CompiledModule) (bs : List UInt8) :
    parseCache hash' (cacheData bytecodeVersionNumber hash t ++ bs) =
      if hash = hash' then some t else none := by
  obtain ⟨registerCount, constants, bytecode, hlt⟩ := t
  have hconstants : (UInt64.ofNat constants.length).toNat = constants.length := by
    rw [UInt64.toNat_ofNat']
    omega
  have hbytecode : (UInt64.ofNat bytecode.length).toNat = bytecode.length := by
    rw [UInt64.toNat_ofNat']
    omega
  unfold parseCache cacheData
  simp only [List.append_assoc, List.cons_append, fread_append, popU32_uint32ToBytes,
    popU64_uint64ToBytes, popByte_cons, hconstants, hbytecode, Option.bind_eq_bind,
    Option.bind_some, ne_eq, not_true_eq_false, if_false]
  by_cases hhash : hash = hash'
  · rw [if_pos hhash]
    simp only [hhash, not_true_eq_false, if_false, dif_pos hlt]
    rfl
  · rw [if_neg hhash]
    simp only [hhash, not_false_eq_true, if_true]
    rfl

/-- `load_cache` gives back what was written for the hash. -/
theorem loadCache_cacheFile (hash hash' : UInt64) (t : CompiledModule) :
    loadCache footerHash (some (cacheFile footerHash hash t)) hash' =
      if hash = hash' then some t else none := by
  have hcheck : checkFooter footerHash (cacheFile footerHash hash t) = true :=
    checkFooter_withFooter _
  unfold loadCache
  dsimp only
  rw [if_pos hcheck]
  exact parseCache_cacheData hash hash' t _

/-- A file of another version is not read. -/
theorem loadCache_version {version : UInt32} (hversion : version ≠ bytecodeVersionNumber)
    (rest : List UInt8) (hash : UInt64) :
    loadCache footerHash (some (fileIdentifier ++ (uint32ToBytes version ++ rest))) hash = none := by
  have hparse : parseCache hash (fileIdentifier ++ (uint32ToBytes version ++ rest)) = none := by
    unfold parseCache
    simp [hversion]
  unfold loadCache
  dsimp only
  rw [hparse, ite_self]

end RoundTrip

/-! ## Loading with any cache -/

section Fallback

variable {cwalk : Cwalk} {sourceHash footerHash : List UInt8 → UInt64}
  {compile : List UInt8 → Except ArErr CompiledModule} {S : Set (List UInt8)}

variable (sourceHash footerHash compile S) in
/-- The states of the cache: no file, one that does not pass the check of its footer, one that was
written for a source of `S`, or one that was written by another version. -/
def Genuine (cache : Option (List UInt8)) : Prop :=
  ∀ bytes, cache = some bytes → checkFooter footerHash bytes = true →
    (∃ source ∈ S, ∃ t, compile source = .ok t ∧
      bytes = cacheFile footerHash (sourceHash source) t) ∨
    ∃ version ≠ bytecodeVersionNumber, ∃ rest,
      bytes = fileIdentifier ++ (uint32ToBytes version ++ rest)

/-- What `load_cache` accepts is what the source compiles to. -/
theorem Genuine.loadCache (hS : S.InjOn sourceHash) {source : List UInt8} (hsource : source ∈ S)
    {cache : Option (List UInt8)} (h : Genuine sourceHash footerHash compile S cache)
    {t : CompiledModule}
    (hload : Chloride.loadCache footerHash cache (sourceHash source) = some t) :
    compile source = .ok t := by
  cases cache with
  | none => cases hload
  | some bytes =>
    -- A cache that is loaded has passed the check of its footer.
    have hcheck : checkFooter footerHash bytes = true := by
      by_contra hfail
      unfold Chloride.loadCache at hload
      dsimp only at hload
      rw [if_neg hfail] at hload
      cases hload
    rcases h bytes rfl hcheck with ⟨source', hsource', t', hcompile, rfl⟩ |
      ⟨version, hversion, rest, rfl⟩
    · -- It was written by this version, for the source with the hash.
      rw [loadCache_cacheFile] at hload
      split at hload
      case isTrue hhash =>
        obtain rfl := hS hsource' hsource hhash
        rw [hcompile, Option.some.inj hload]
      case isFalse => cases hload
    · -- It was written by another version and is refused.
      rw [loadCache_version hversion] at hload
      cases hload

end Fallback

/-! ## A path with parts that are set off by slashes -/

end Chloride
