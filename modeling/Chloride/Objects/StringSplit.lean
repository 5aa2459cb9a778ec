import Chloride.Containers.Splitting
import Chloride.Objects.StringSearch

/-!
# Splitting and joining strings

`split` and `replace` of `src/runtime/objects/string/string.c`, `split` of
`src/runtime/objects/buffer/buffer.c` and `join` of `src/runtime/objects/array/array.c`, on bytes. Pointers
are offsets into the string, and a loop that does not end in as many rounds as it can take is `none`, as is
a write outside a block that was allocated. Lengths have 64 bits and wrap. Memory is never short.
-/

namespace Chloride

namespace StringSplit

open Splitting
open StringSearch (Bytes)

/-- `memcmp(s.data + p, d.data, d.length) == 0` -/
def occursAt (s d : List UInt8) (p : ℕ) : Bool := (s.drop p).take d.length = d

/-- The loop of a split: the pieces, and the start of the last one. What is added to the test of a round
says whether there may be one more split. -/
def splitLoop (s d : List UInt8) (more : ℕ → Bool) :
    ℕ → ℕ → ℕ → ℕ → List (List UInt8) → Option (List (List UInt8) × ℕ)
  | 0, _, _, _, _ => none
  | fuel + 1, p, start, splits, object =>
    if p + d.length ≤ s.length ∧ more splits then
      if occursAt s d p then
        splitLoop s d more fuel (p + d.length) (p + d.length) (splits + 1)
          (object ++ [(s.drop start).take (p - start)])
      else splitLoop s d more fuel (p + 1) start splits object
    else some (object, start)

def emptySeparator : ArErr := ⟨"ValueError", "empty separator"⟩

/-- `ARGON_STRING_TYPE_split` -/
def split (s d : Bytes) (max : Option Int64) : Option (Except ArErr (List (List UInt8))) :=
  if max.any (· < 0) then some (.error ⟨"ValueError", "max splits must be non-negative"⟩)
  else
    let maxSplits := max.elim (2^64 - 1) fun max => max.toInt.toNat
    if d.1.length = 0 then some (.error emptySeparator)
    else if s.1.length = 0 then some (.ok [[]])
    else do
      let (object, start) ← splitLoop s.1 d.1 (· < maxSplits) (s.1.length + 1) 0 0 0 []
      return .ok (object ++ [s.1.drop start])

/-- `ARGON_BUFFER_TYPE_split` -/
def bufferSplit (s d : Bytes) : Option (Except ArErr (List (List UInt8))) :=
  if d.1.length = 0 then some (.error emptySeparator)
  else do
    let (object, start) ← splitLoop s.1 d.1 (fun _ => true) (s.1.length + 1) 0 0 0 []
    return .ok (object ++ [s.1.drop start])

/-- The loop of a replacement that counts the occurrences. -/
def countLoop (s old : List UInt8) : ℕ → ℕ → ℕ → Option ℕ
  | 0, _, _ => none
  | fuel + 1, i, count =>
    if i + old.length ≤ s.length then
      if occursAt s old i then countLoop s old fuel (i + old.length) (count + 1)
      else countLoop s old fuel (i + 1) count
    else some count

/-- A write of bytes behind those that were written to a block of some size. -/
def write (size : ℕ) (buf bytes : List UInt8) : Option (List UInt8) :=
  if buf.length + bytes.length ≤ size then some (buf ++ bytes) else none

/-- The loop of a replacement that builds the result, and the copy of the tail. -/
def buildLoop (s old new : List UInt8) (size : ℕ) : ℕ → ℕ → List UInt8 → Option (List UInt8)
  | 0, _, _ => none
  | fuel + 1, src, buf =>
    if src + old.length ≤ s.length then
      if occursAt s old src then do
        buildLoop s old new size fuel (src + old.length) (← write size buf new)
      else do
        buildLoop s old new size fuel (src + 1) (← write size buf ((s.drop src).take 1))
    else write size buf (s.drop src)

/-- `ARGON_STRING_TYPE_replace`. The bytes of the result are the first `new_len` of the block, and are all
to be written. -/
def replace (s old new : Bytes) : Option (List UInt8) :=
  if old.1.length = 0 then some s.1
  else do
    let count ← countLoop s.1 old.1 (s.1.length + 1) 0 0
    if count = 0 then return s.1
    else
      let newLen := UInt64.ofNat s.1.length +
        UInt64.ofNat count * (UInt64.ofNat new.1.length - UInt64.ofNat old.1.length)
      let size := (newLen + 1).toNat
      let buf ← buildLoop s.1 old.1 new.1 size (s.1.length + 1) 0 []
      if newLen.toNat < size ∧ buf.length = newLen.toNat then return buf else none

/-- The loop of `ARRAY_TYPE_join` that adds up the lengths, from the item at an index on. An item that is no
string is none. -/
def joinLength (sep : List UInt8) : ℕ → UInt64 → List (Option (List UInt8)) → Except ArErr UInt64
  | _, length, [] => .ok length
  | i, _, none :: _ => .error ⟨"ValueError", "index " ++ toString i ++ " contains non string"⟩
  | i, length, some item :: rest =>
    let length := length + UInt64.ofNat item.length
    joinLength sep (i + 1) (if rest.isEmpty then length else length + UInt64.ofNat sep.length) rest

/-- The loop of `ARRAY_TYPE_join` that copies the items, each but the last with a separator behind it. -/
def joinItems (sep : List UInt8) (size : ℕ) :
    List UInt8 → List (Option (List UInt8)) → Option (List UInt8)
  | data, [] => some data
  | _, none :: _ => none
  | data, some item :: rest => do
    let data ← write size data item
    let data ← (if rest.isEmpty then some data else write size data sep)
    joinItems sep size data rest

/-- `ARRAY_TYPE_join` -/
def join (items : List (Option (List UInt8))) (sep : Bytes) : Option (Except ArErr (List UInt8)) :=
  match joinLength sep.1 0 0 items with
  | .error e => some (.error e)
  | .ok length => do
    let data ← joinItems sep.1 length.toNat [] items
    if data.length = length.toNat then return .ok data else none

/-! ## The loops -/

theorem occursAt_iff {s d : List UInt8} {p : ℕ} : occursAt s d p = true ↔ d <+: s.drop p := by
  unfold occursAt
  rw [decide_eq_true_eq, List.prefix_iff_eq_take]
  exact eq_comm

/-- The loop of a split gives the pieces of what is left, with what was passed since the last one. -/
theorem splitLoop_spec {s d : List UInt8} (hd : d ≠ []) {more : ℕ → Bool} {limit : ℕ}
    (hmore : ∀ k ≤ s.length, more k ↔ k < limit) (fuel : ℕ) :
    ∀ (p start splits : ℕ) (object : List (List UInt8)), start ≤ p → p ≤ s.length → splits ≤ p →
      s.length < fuel + p → ∃ object' start', splitLoop s d more fuel p start splits object = some (object', start') ∧
        object' ++ [s.drop start'] = object ++
          (pieces d (limit - splits) (s.drop p)).modifyHead ((s.drop start).take (p - start) ++ ·) := by
  have hpos := List.length_pos_of_ne_nil hd
  induction fuel with
  | zero => exact fun p start splits object _ _ _ hfuel => by omega
  | succ fuel ih =>
    intro p start splits object hstart hp hsplits hfuel
    have hlimit := hmore splits (by omega)
    rw [splitLoop]
    split
    case isTrue hround =>
      have hroom := hround.1
      have hleft := hlimit.mp hround.2
      split
      case isTrue hoccurs =>
        have hinitial := occursAt_iff.mp hoccurs
        obtain ⟨object', start', hloop, hpieces⟩ := ih (p + d.length) (p + d.length) (splits + 1)
          (object ++ [(s.drop start).take (p - start)]) le_rfl hroom (by omega) (by omega)
        refine ⟨object', start', hloop, hpieces.trans ?_⟩
        have hid : (([] : List UInt8) ++ ·) = id := rfl
        rw [pieces_cut (by omega) hd hinitial, List.drop_drop, ← Nat.sub_add_eq, Nat.sub_self, List.take_zero,
          hid, List.modifyHead_id, List.modifyHead_cons, List.append_nil, List.append_assoc]
        rfl
      case isFalse hoccurs =>
        obtain ⟨object', start', hloop, hpieces⟩ := ih (p + 1) start splits object (by omega) (by omega)
          (by omega) (by omega)
        refine ⟨object', start', hloop, hpieces.trans ?_⟩
        have hlt : p < s.length := by omega
        have hcons : s.drop p = s[p] :: s.drop (p + 1) := List.drop_eq_getElem_cons hlt
        have htake : (s.drop start).take (p + 1 - start) = (s.drop start).take (p - start) ++ [s[p]] := by
          rw [Nat.sub_add_comm hstart, List.take_add_one, List.getElem?_drop, Nat.add_sub_cancel' hstart,
            List.getElem?_eq_getElem hlt]
          rfl
        have hno : ¬(0 < limit - splits ∧ d ≠ [] ∧ d <+: s[p] :: s.drop (p + 1)) := fun h =>
          hoccurs (occursAt_iff.mpr (hcons ▸ h.2.2))
        rw [hcons, pieces_keep hno, List.modifyHead_modifyHead, htake]
        congr 2
        funext x
        exact List.append_assoc _ _ _
    case isFalse hround =>
      refine ⟨object, start, rfl, ?_⟩
      have hend : limit - splits = 0 ∨ (s.drop p).length < d.length := by
        rw [List.length_drop]
        by_contra h
        exact hround ⟨by omega, hlimit.mpr (by omega)⟩
      have hrest : (s.drop start).take (p - start) ++ s.drop p = s.drop start := by
        have hdrop : s.drop p = (s.drop start).drop (p - start) := by
          rw [List.drop_drop, Nat.add_sub_cancel' hstart]
        rw [hdrop, List.take_append_drop]
      rw [pieces_eq_singleton hend, List.modifyHead_cons, hrest]

/-- The loop of a split, from the start. -/
theorem splitLoop_start {s d : List UInt8} (hd : d ≠ []) {more : ℕ → Bool} {limit : ℕ}
    (hmore : ∀ k ≤ s.length, more k ↔ k < limit) :
    ∃ object start, splitLoop s d more (s.length + 1) 0 0 0 [] = some (object, start) ∧
      object ++ [s.drop start] = pieces d limit s := by
  obtain ⟨object, start, hloop, hpieces⟩ :=
    splitLoop_spec hd hmore (s.length + 1) 0 0 0 [] le_rfl (Nat.zero_le _) le_rfl (by omega)
  have hid : (([] : List UInt8) ++ ·) = id := rfl
  rw [Nat.sub_self, List.take_zero, hid, List.modifyHead_id, List.drop_zero] at hpieces
  exact ⟨object, start, hloop, hpieces⟩

/-- The limit of `split`. -/
def limit (max : Option Int64) : ℕ := max.elim (2^64 - 1) fun max => max.toInt.toNat

theorem split_spec (s : Bytes) {d : Bytes} (hd : d.1 ≠ []) {max : Option Int64} (hmax : ∀ m ∈ max, 0 ≤ m) :
    split s d max = some (.ok (pieces d.1 (limit max) s.1)) := by
  have hany : ¬max.any (· < 0) := by
    rw [Option.any_eq_true]
    rintro ⟨m, hm, hneg⟩
    exact absurd (of_decide_eq_true hneg) (Int64.not_lt.mpr (hmax m hm))
  have hlength : d.1.length ≠ 0 := mt List.length_eq_zero_iff.mp hd
  unfold split
  rw [if_neg hany]
  dsimp only
  rw [if_neg hlength]
  split
  case isTrue hempty =>
    rw [List.length_eq_zero_iff.mp hempty, pieces_nil]
  case isFalse =>
    obtain ⟨object, start, hloop, hpieces⟩ := @splitLoop_start s.1 d.1 hd
      (· < limit max) (limit max) fun k _ => decide_eq_true_iff
    have hloop' : splitLoop s.1 d.1 (· < max.elim (2^64 - 1) fun max => max.toInt.toNat) (s.1.length + 1)
        0 0 0 [] = some (object, start) := hloop
    rw [hloop', ← hpieces]
    rfl

theorem bufferSplit_spec (s : Bytes) {d : Bytes} (hd : d.1 ≠ []) :
    bufferSplit s d = some (.ok (allPieces d.1 s.1)) := by
  have hlength : d.1.length ≠ 0 := mt List.length_eq_zero_iff.mp hd
  obtain ⟨object, start, hloop, hpieces⟩ := @splitLoop_start s.1 d.1 hd
    (fun _ => true) (s.1.length + 1) fun k hk => iff_of_true rfl (by omega)
  unfold bufferSplit
  rw [if_neg hlength, hloop, Option.bind_eq_bind, Option.bind_some]
  dsimp only
  rw [hpieces, pieces_of_length_le (Nat.le_succ _)]
  rfl

/-- The first pass of a replacement counts the cuts. -/
theorem countLoop_spec {s old : List UInt8} (hold : old ≠ []) (fuel : ℕ) :
    ∀ i count : ℕ, i ≤ s.length → s.length < fuel + i →
      countLoop s old fuel i count = some (count + ((allPieces old (s.drop i)).length - 1)) := by
  have hpos := List.length_pos_of_ne_nil hold
  induction fuel with
  | zero => exact fun i count _ hfuel => by omega
  | succ fuel ih =>
    intro i count hi hfuel
    rw [countLoop]
    split
    case isTrue hround =>
      split
      case isTrue hoccurs =>
        have hne := allPieces_ne_nil old (s.drop (i + old.length))
        have hlength := List.length_pos_of_ne_nil hne
        rw [ih _ _ hround (by omega), allPieces_cut hold (occursAt_iff.mp hoccurs), List.drop_drop,
          List.length_cons]
        congr 1
        omega
      case isFalse hoccurs =>
        have hlt : i < s.length := by omega
        have hcons : s.drop i = s[i] :: s.drop (i + 1) := List.drop_eq_getElem_cons hlt
        have hno : ¬old <+: s[i] :: s.drop (i + 1) := fun h => hoccurs (occursAt_iff.mpr (hcons ▸ h))
        rw [ih _ _ hlt (by omega), hcons, allPieces_keep hno, List.length_modifyHead]
    case isFalse hround =>
      have hend : (s.drop i).length < old.length := by
        rw [List.length_drop]
        omega
      rw [allPieces, pieces_eq_singleton (Or.inr hend)]
      rfl

/-- To write in two steps is to write at once. -/
theorem write_append (size : ℕ) (buf x y : List UInt8) :
    (do write size (← write size buf x) y : Option (List UInt8)) = write size buf (x ++ y) := by
  unfold write
  by_cases hx : buf.length + x.length ≤ size
  · rw [if_pos hx, Option.bind_eq_bind, Option.bind_some, List.length_append, List.length_append,
      List.append_assoc, Nat.add_assoc]
  · rw [if_neg hx, if_neg (by rw [List.length_append]; omega)]
    rfl

theorem length_le_of_write {size : ℕ} {buf x r : List UInt8} (h : write size buf x = some r) :
    r.length ≤ size := by
  unfold write at h
  split at h
  case isTrue hroom =>
    cases h
    rwa [List.length_append]
  case isFalse => cases h

/-- The second pass of a replacement writes the result if there is room for it. -/
theorem buildLoop_spec {s old new : List UInt8} (hold : old ≠ []) {size : ℕ} (fuel : ℕ) :
    ∀ (src : ℕ) (buf : List UInt8), src ≤ s.length → s.length < fuel + src →
      buildLoop s old new size fuel src buf = write size buf (replaced old new (s.drop src)) := by
  have hpos := List.length_pos_of_ne_nil hold
  induction fuel with
  | zero => exact fun src buf _ hfuel => by omega
  | succ fuel ih =>
    intro src buf hsrc hfuel
    rw [buildLoop]
    split
    case isTrue hround =>
      split
      case isTrue hoccurs =>
        rw [replaced_cut hold (occursAt_iff.mp hoccurs), List.drop_drop, ← write_append]
        congr 1
        funext buf'
        exact ih _ _ hround (by omega)
      case isFalse hoccurs =>
        have hlt : src < s.length := by omega
        have hcons : s.drop src = s[src] :: s.drop (src + 1) := List.drop_eq_getElem_cons hlt
        have hno : ¬old <+: s[src] :: s.drop (src + 1) := fun h => hoccurs (occursAt_iff.mpr (hcons ▸ h))
        have hone : (s.drop src).take 1 = [s[src]] := by rw [hcons]; rfl
        rw [hone, hcons, replaced_keep hno]
        refine Eq.trans ?_ (write_append size buf [s[src]] (replaced old new (s.drop (src + 1))))
        congr 1
        funext buf'
        exact ih _ _ hlt (by omega)
    case isFalse hround =>
      rw [replaced_of_length_lt]
      rw [List.length_drop]
      omega

/-- The length that a replacement allocates, which wraps. -/
theorem newLen_eq (d n s : List UInt8) :
    UInt64.ofNat s.length + UInt64.ofNat ((allPieces d s).length - 1) *
      (UInt64.ofNat n.length - UInt64.ofNat d.length) = UInt64.ofNat (replaced d n s).length := by
  have hlength := congrArg UInt64.ofNat (length_replaced d n s)
  rw [UInt64.ofNat_add, UInt64.ofNat_add, UInt64.ofNat_mul, UInt64.ofNat_mul] at hlength
  grind

/-- A replacement gives the list with the occurrences replaced, unless the size of its block wraps. -/
theorem replace_spec (s : Bytes) {old : Bytes} (hold : old.1 ≠ []) (new : Bytes) :
    replace s old new = if (replaced old.1 new.1 s.1).length < 2^64 - 1 then
      some (replaced old.1 new.1 s.1) else none := by
  have hs := s.2
  have hlength : old.1.length ≠ 0 := mt List.length_eq_zero_iff.mp hold
  have hcount := countLoop_spec (s := s.1) hold (s.1.length + 1) 0 0 (Nat.zero_le _) (by omega)
  rw [List.drop_zero, Nat.zero_add] at hcount
  have hbuild (size : ℕ) : buildLoop s.1 old.1 new.1 size (s.1.length + 1) 0 [] =
      write size [] (replaced old.1 new.1 s.1) := by
    have h := @buildLoop_spec s.1 old.1 new.1 hold size (s.1.length + 1) 0 []
      (Nat.zero_le _) (by omega)
    rwa [List.drop_zero] at h
  unfold replace
  rw [if_neg hlength, hcount, Option.bind_eq_bind, Option.bind_some]
  split
  case isTrue hnone =>
    -- With no occurrence there is one piece, the string itself.
    have hlen := length_replaced old.1 new.1 s.1
    rw [hnone, Nat.zero_mul, Nat.zero_mul] at hlen
    have hback : old.1.intercalate (allPieces old.1 s.1) = s.1 := intercalate_pieces old.1 _ s.1
    have hone : allPieces old.1 s.1 = [s.1] := by
      obtain ⟨p, L, hp⟩ := List.exists_cons_of_ne_nil (allPieces_ne_nil old.1 s.1)
      rw [hp, List.length_cons, Nat.add_sub_cancel] at hnone
      rw [hp, List.length_eq_zero_iff.mp hnone] at hback ⊢
      rw [← hback, List.intercalate_singleton]
    rw [if_pos (by omega), replaced, hone, List.intercalate_singleton]
    rfl
  case isFalse =>
    dsimp only
    rw [newLen_eq, hbuild]
    generalize replaced old.1 new.1 s.1 = r
    have hnewLen : (UInt64.ofNat r.length).toNat = r.length % 2^64 := UInt64.toNat_ofNat
    have hsize : (UInt64.ofNat r.length + 1).toNat = (r.length % 2^64 + 1) % 2^64 := by
      rw [UInt64.toNat_add, hnewLen]
      rfl
    unfold write
    rw [hnewLen, hsize, List.length_nil, Nat.zero_add, List.nil_append]
    by_cases hfits : r.length < 2^64 - 1
    · have hmod : r.length % 2^64 = r.length := Nat.mod_eq_of_lt (by omega)
      have hmod' : (r.length + 1) % 2^64 = r.length + 1 := Nat.mod_eq_of_lt (by omega)
      rw [hmod, hmod', if_pos (Nat.le_succ _), if_pos hfits, Option.bind_eq_bind,
        Option.bind_some, if_pos ⟨Nat.lt_succ_self _, rfl⟩]
      rfl
    · rw [if_neg (by omega), if_neg hfits]
      rfl

/-- The lengths are added up, and wrap. -/
theorem joinLength_spec (sep : List UInt8) (L : List (List UInt8)) : ∀ (i : ℕ) (length : UInt64),
    joinLength sep i length (L.map some) = .ok (length + UInt64.ofNat (sep.intercalate L).length) := by
  induction L with
  | nil => exact fun i length => congrArg Except.ok (UInt64.add_zero length).symm
  | cons item L ih =>
    intro i length
    rw [List.map_cons, joinLength, ih]
    cases L with
    | nil =>
      rw [List.intercalate_singleton]
      exact congrArg Except.ok (UInt64.add_zero _)
    | cons item' L =>
      have hlength : (sep.intercalate (item :: item' :: L)).length =
          item.length + sep.length + (sep.intercalate (item' :: L)).length := by
        rw [List.intercalate_cons_cons, List.length_append, List.length_append]
      rw [hlength, UInt64.ofNat_add, UInt64.ofNat_add]
      refine congrArg Except.ok ?_
      show length + _ + _ + _ = _
      rw [UInt64.add_assoc, UInt64.add_assoc, UInt64.add_assoc]

/-- The items are written with the separator between them, if there is room. -/
theorem joinItems_spec (sep : List UInt8) (size : ℕ) (L : List (List UInt8)) : ∀ data : List UInt8,
    data.length ≤ size → joinItems sep size data (L.map some) = write size data (sep.intercalate L) := by
  induction L with
  | nil =>
    intro data hdata
    have hroom : data.length + (sep.intercalate ([] : List (List UInt8))).length ≤ size := hdata
    unfold write
    rw [if_pos hroom, List.intercalate_nil, List.append_nil]
    rfl
  | cons item L ih =>
    intro data hdata
    rw [List.map_cons, joinItems]
    cases L with
    | nil =>
      rw [List.intercalate_singleton]
      exact Option.bind_fun_some _
    | cons item' L =>
      rw [List.intercalate_cons_cons, List.append_assoc, ← write_append]
      congr 1
      funext data'
      rw [← write_append]
      show (write size data' sep).bind _ = (write size data' sep).bind _
      cases hwrite : write size data' sep with
      | none => rfl
      | some data'' => exact ih data'' (length_le_of_write hwrite)

/-- Strings are joined, unless the size of the block wraps. -/
theorem join_spec (L : List (List UInt8)) (sep : Bytes) :
    join (L.map some) sep = if (sep.1.intercalate L).length < 2^64 then
      some (.ok (sep.1.intercalate L)) else none := by
  unfold join
  rw [joinLength_spec, UInt64.zero_add]
  dsimp only
  rw [joinItems_spec _ _ _ _ (Nat.zero_le _)]
  generalize sep.1.intercalate L = r
  have hsize : (UInt64.ofNat r.length).toNat = r.length % 2^64 := UInt64.toNat_ofNat
  unfold write
  rw [hsize, List.length_nil, Nat.zero_add, List.nil_append]
  by_cases hfits : r.length < 2^64
  · have hmod : r.length % 2^64 = r.length := Nat.mod_eq_of_lt hfits
    rw [hmod, if_pos le_rfl, if_pos hfits, Option.bind_eq_bind, Option.bind_some, if_pos rfl]
    rfl
  · rw [if_neg (by omega), if_neg hfits]
    rfl

/-! ## The laws -/

/-- What is asked of the results of splitting, joining and replacing. -/
structure Laws (s d o n : Bytes) (max : Option Int64) : Prop where
  split : ∃ L, split s d max = some (.ok L) ∧ join (L.map some) d = some (.ok s.1) ∧
    (∀ m ∈ max, (L.length : ℤ) ≤ m.toInt + 1) ∧
    ∀ k p, L[k]? = some p → k + 1 < L.length ∨ (∀ m ∈ max, (L.length : ℤ) ≤ m.toInt) → ¬d.1 <:+: p
  buffer : ∃ L, bufferSplit s d = some (.ok L) ∧ d.1.intercalate L = s.1 ∧ ∀ p ∈ L, ¬d.1 <:+: p
  replace : ∃ L r, StringSplit.split s o none = some (.ok L) ∧ StringSplit.replace s o n = some r ∧
    join (L.map some) n = some (.ok r)

/-- The result of a replacement is shorter than the numbers that its block is measured with, with the byte
behind it. -/
def Fits (s o n : Bytes) : Prop := (replaced o.1 n.1 s.1).length < 2^64 - 1

/-- Strings without bytes are no delimiters. -/
abbrev Delimiter := {d : Bytes // d.1 ≠ []}

/-- A limit of a split. -/
abbrev Limit := {m : Int64 // 0 ≤ m}

theorem laws_of_fits {s d o n : Bytes} (hd : d.1 ≠ []) (ho : o.1 ≠ []) {max : Option Int64}
    (hmax : ∀ m ∈ max, 0 ≤ m) (h : Fits s o n) : Laws s d o n max := by
  have hs := s.2
  have hall (o : Bytes) : pieces o.1 (2^64 - 1) s.1 = allPieces o.1 s.1 := pieces_of_length_le (by omega)
  have hlimit (m : Int64) (hm : m ∈ max) : limit max = m.toInt.toNat ∧ 0 ≤ m.toInt := by
    have hpos := Int64.le_iff_toInt_le.mp (hmax m hm)
    rw [Int64.toInt_zero] at hpos
    rw [Option.mem_def.mp hm]
    exact ⟨rfl, hpos⟩
  constructor
  case split =>
    have hlength := length_pieces_le d.1 (limit max) s.1
    refine ⟨_, split_spec s hd hmax, ?_, fun m hm => ?_, fun k p hp hk => ?_⟩
    · rw [join_spec, intercalate_pieces, if_pos (by omega)]
    · obtain ⟨heq, hpos⟩ := hlimit m hm
      omega
    · refine not_infix_of_pieces hd hp ?_
      have hlt := (List.getElem?_eq_some_iff.mp hp).1
      cases hmax' : max with
      | none =>
        have hbound := length_pieces_le d.1 s.1.length s.1
        rw [hmax'] at hlt
        have hsame : pieces d.1 (limit none) s.1 = pieces d.1 s.1.length s.1 := hall d
        rw [hsame] at hlt
        show k < 2^64 - 1
        omega
      | some m =>
        obtain ⟨heq, hpos⟩ := hlimit m hmax'
        rw [← hmax', heq]
        rcases hk with hk | hk
        · omega
        · have hreached := hk m hmax'
          omega
  case buffer =>
    refine ⟨_, bufferSplit_spec s hd, intercalate_pieces d.1 _ s.1, fun p hp => ?_⟩
    obtain ⟨k, hk⟩ := List.mem_iff_getElem?.mp hp
    have hlt := (List.getElem?_eq_some_iff.mp hk).1
    have hbound := length_pieces_le d.1 s.1.length s.1
    have hsame : pieces d.1 (s.1.length + 1) s.1 = allPieces d.1 s.1 := pieces_of_length_le (Nat.le_succ _)
    have hbound' : (allPieces d.1 s.1).length ≤ s.1.length + 1 := hbound
    rw [← hsame] at hk
    exact not_infix_of_pieces hd hk (by omega)
  case replace =>
    refine ⟨allPieces o.1 s.1, replaced o.1 n.1 s.1, ?_, ?_, ?_⟩
    · rw [split_spec s ho fun m hm => by cases hm]
      exact congrArg (fun L => some (Except.ok L)) (hall o)
    · rw [replace_spec s ho n]
      exact if_pos h
    · have hlt : (replaced o.1 n.1 s.1).length < 2^64 := Nat.lt_of_lt_of_le h (Nat.sub_le _ _)
      rw [join_spec, ← replaced, if_pos hlt]

/-- Splitting, joining and replacing have their laws if and only if the length of the result of the
replacement, with the byte behind it, has 64 bits. -/
theorem split_join_replace_iff (s : Bytes) (d o : Delimiter) (n : Bytes) (max : Option Limit) :
    Laws s d.1 o.1 n (max.map (·.1)) ↔ Fits s o.1 n := by
  constructor
  · intro h
    obtain ⟨L, r, -, hreplace, -⟩ := h.replace
    rw [replace_spec s o.2 n] at hreplace
    by_contra hlong
    have hnone := hreplace.symm.trans (if_neg hlong)
    cases hnone
  · refine laws_of_fits d.2 o.2 fun m hm => ?_
    obtain ⟨limit, -, rfl⟩ := Option.map_eq_some_iff.mp hm
    exact limit.2

/-- A string of one byte, over and over, is cut at each. -/
theorem length_allPieces_replicate (a : UInt8) (k : ℕ) :
    (allPieces [a] (List.replicate k a)).length = k + 1 := by
  induction k with
  | zero => exact congrArg List.length (pieces_nil [a] 0)
  | succ k ih =>
    have hinitial : [a] <+: List.replicate (k + 1) a := ⟨List.replicate k a, rfl⟩
    rw [allPieces_cut (List.cons_ne_nil _ _) hinitial, List.length_cons]
    exact congrArg Nat.succ ih

/-- `2^33` bytes, each of which is replaced by `2^31` others. -/
theorem not_forall_laws : ¬∀ (s n : Bytes) (d o : Delimiter), Laws s d.1 o.1 n none := by
  intro h
  have hs : (List.replicate (2^33) (97 : UInt8)).length < 2^63 := by
    rw [List.length_replicate]
    decide
  have hn : (List.replicate (2^31) (98 : UInt8)).length < 2^63 := by
    rw [List.length_replicate]
    decide
  have ho : ([97] : List UInt8).length < 2^63 := by decide
  obtain ⟨L, r, -, hreplace, -⟩ :=
    (h ⟨_, hs⟩ ⟨_, hn⟩ ⟨⟨[97], ho⟩, List.cons_ne_nil _ _⟩ ⟨⟨[97], ho⟩, List.cons_ne_nil _ _⟩).replace
  rw [replace_spec _ (List.cons_ne_nil _ _)] at hreplace
  have hlength := length_replaced [97] (List.replicate (2^31) (98 : UInt8)) (List.replicate (2^33) 97)
  rw [length_allPieces_replicate, List.length_replicate, List.length_replicate, List.length_singleton] at hlength
  have hlong : ¬(replaced [97] (List.replicate (2^31) (98 : UInt8)) (List.replicate (2^33) 97)).length <
      2^64 - 1 := by omega
  rw [if_neg hlong] at hreplace
  cases hreplace

end StringSplit

end Chloride
