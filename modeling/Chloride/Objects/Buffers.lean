import Chloride.Containers.Runs
import Chloride.Objects.StringBytes
import Chloride.Objects.StringSearch

/-!
# Buffers

The objects of `src/runtime/objects/buffer/buffer.c`, each with a block of memory of its own that `extend` may move.
Reading a byte goes through `char`, which is signed, where a string has `to_byte`: the two agree on the bytes below
128 only. `extend` calls `ar_realloc`, which ends the program if the collector gives no memory.
-/

namespace Chloride

namespace Buffers

open Substring
open StringSearch (Bytes)

/-! ## `partition` -/

/-- `found_at` -/
def foundAt (self part : List UInt8) : Option ℕ :=
  if part.length ≤ self.length then
    (List.range (self.length - part.length + 1)).find? fun i => (self.drop i).take part.length = part
  else none

def partition (self part : List UInt8) : List UInt8 × List UInt8 × List UInt8 :=
  match foundAt self part with
  | none => (self, [], [])
  | some i => (self.take i, part, self.drop (i + part.length))

/-! ## Objects and blocks -/

/-- `struct buffer` -/
structure BufferStruct where
  data : ℕ
  size : ℕ
  deriving DecidableEq

/-- The buffer objects in the order in which they were made, and the blocks of memory. -/
structure Store where
  objects : List BufferStruct
  memory : ℕ → List UInt8

def Store.init : Store := ⟨[], fun _ => []⟩

/-- No buffer has its bytes in the block. -/
def Store.Free (s : Store) (block : ℕ) : Prop := ∀ o ∈ s.objects, o.data ≠ block

instance (s : Store) (block : ℕ) : Decidable (s.Free block) :=
  inferInstanceAs (Decidable (∀ o ∈ s.objects, o.data ≠ block))

/-- The bytes of a buffer. -/
def Store.bytes (s : Store) (b : ℕ) : Option (List UInt8) :=
  s.objects[b]?.map fun o => (s.memory o.data).take o.size

/-- `create_ARGON_BUFFER_object` in a block, and a copy of the contents into it. -/
def Store.create (s : Store) (block : ℕ) (contents : List UInt8) : ℕ × Store :=
  (s.objects.length, ⟨s.objects ++ [⟨block, contents.length⟩], Function.update s.memory block contents⟩)

/-- `from_string` -/
def fromString (s : Store) (block : ℕ) (str : List UInt8) : ℕ × Store := s.create block str

/-- `to_string` -/
def toString (s : Store) (b : ℕ) : Option (List UInt8) := s.bytes b

/-- `__getitem__` of a number. The byte is read as a `char`. -/
def getitem (s : Store) (b : ℕ) (index : Int64) : Option (Except ArErr Int64) := do
  let self ← s.bytes b
  let index := if index < 0 then index.toInt + self.length else index.toInt
  if index ≥ self.length ∨ index < 0 then return .error ⟨"IndexError", "index out of range"⟩
  else return .ok (self.getD index.toNat 0).toInt8.toInt64

/-- `to_byte` of a string. -/
def toByte (str : List UInt8) : Except ArErr Int64 :=
  if str.length ≠ 1 then .error ⟨"ValueError", "to_byte expects exactly one byte"⟩
  else .ok (Int64.ofNat (str.getD 0 0).toNat)

/-- `extend`. `room` says for which sizes `GC_REALLOC` returns memory: without it the program exits. The block that it
returns is the old one or one that is not in use; when it is not the old one, that is freed, and of a freed block
nothing is read. -/
def extend (room : ℕ → Bool) (s : Store) (self other block : ℕ) : Option Store := do
  let otherBuffer ← s.objects[other]?
  let selfBuffer ← s.objects[self]?
  let newSize := selfBuffer.size + otherBuffer.size
  if room newSize ∧ ((self ≠ other ∧ s.Free block) ∨ block = selfBuffer.data) then
    let memory := Function.update s.memory block ((s.memory selfBuffer.data).take selfBuffer.size)
    let copied := (memory block).take selfBuffer.size ++ (memory otherBuffer.data).take otherBuffer.size
    return ⟨s.objects.set self ⟨block, newSize⟩, Function.update memory block copied⟩
  else none

/-- What makes or changes buffers: `from_string`, `of_size`, a slice and the pieces of `partition` and `split` are new
ones with their contents. -/
inductive BufferOp where
  | create (block : ℕ) (contents : List UInt8)
  | extend (self other block : ℕ)

def step (room : ℕ → Bool) (s : Store) : BufferOp → Option Store
  | .create block contents => if s.Free block then some (s.create block contents).2 else none
  | .extend self other block => extend room s self other block

/-- The stores that a program comes to. -/
abbrev Reachable (room : ℕ → Bool) : Store → Prop := Runs.Reachable (step room) (· = Store.init)

/-! ## Every buffer has a block of its own -/

/-- No two buffers share a block, and every block has the bytes of its buffer. -/
structure Store.Sound (s : Store) : Prop where
  separate : ∀ (i j : ℕ) (a b : BufferStruct), s.objects[i]? = some a → s.objects[j]? = some b → a.data = b.data → i = j
  length : ∀ o ∈ s.objects, (s.memory o.data).length = o.size

theorem Store.sound_init : Store.init.Sound := ⟨nofun, nofun⟩

variable {s : Store}

theorem Store.bytes_eq_some {b : ℕ} {x : List UInt8} (hs : s.Sound) :
    s.bytes b = some x ↔ ∃ o, s.objects[b]? = some o ∧ s.memory o.data = x := by
  unfold bytes
  rw [Option.map_eq_some_iff]
  refine exists_congr fun o => and_congr_right fun ho => ?_
  rw [List.take_of_length_le (hs.length o (List.mem_of_getElem? ho)).le]

/-- Making a buffer in a free block. -/
theorem Store.Sound.create (hs : s.Sound) {block : ℕ} (hfree : s.Free block) (contents : List UInt8) :
    (s.create block contents).2.Sound := by
  have hother : ∀ o ∈ s.objects, o.data ≠ block := hfree
  constructor
  · intro i j a b ha hb hab
    simp only [Store.create, List.getElem?_append] at ha hb
    split at ha <;> split at hb
    · exact hs.separate i j a b ha hb hab
    · -- the new buffer has the block, which no old one has
      have hnew : b = ⟨block, contents.length⟩ := List.mem_singleton.mp (List.mem_of_getElem? hb)
      exact absurd (hab.trans (congrArg BufferStruct.data hnew)) (hother a (List.mem_of_getElem? ha))
    · have hnew : a = ⟨block, contents.length⟩ := List.mem_singleton.mp (List.mem_of_getElem? ha)
      exact absurd (hab.symm.trans (congrArg BufferStruct.data hnew)) (hother b (List.mem_of_getElem? hb))
    · obtain ⟨hi, -⟩ := List.getElem?_eq_some_iff.mp ha
      obtain ⟨hj, -⟩ := List.getElem?_eq_some_iff.mp hb
      rw [List.length_singleton] at hi hj
      omega
  · intro o ho
    rcases List.mem_append.mp ho with ho | ho
    · change (Function.update s.memory block contents o.data).length = o.size
      rw [Function.update_of_ne (hother o ho)]
      exact hs.length o ho
    · obtain rfl := List.mem_singleton.mp ho
      change (Function.update s.memory block contents block).length = contents.length
      rw [Function.update_self]

theorem Store.Sound.bytes_create (hs : s.Sound) {block : ℕ} (hfree : s.Free block) (contents : List UInt8) :
    (s.create block contents).2.bytes (s.create block contents).1 = some contents := by
  rw [Store.bytes_eq_some (hs.create hfree contents)]
  refine ⟨⟨block, contents.length⟩, ?_, Function.update_self _ _ _⟩
  simp [Store.create]

theorem Store.Sound.bytes_fromString (hs : s.Sound) {block : ℕ} (hfree : s.Free block) (str : List UInt8) :
    (fromString s block str).2.bytes (fromString s block str).1 = some str := hs.bytes_create hfree str

/-- A buffer gets other contents, in its own block or in a free one. -/
def Store.replace (s : Store) (self block : ℕ) (contents : List UInt8) : Store :=
  ⟨s.objects.set self ⟨block, contents.length⟩, Function.update s.memory block contents⟩

section Replace

variable {self block : ℕ} {a : BufferStruct}

/-- The other buffers are not in the block. -/
theorem Store.Sound.ne_of_other (hs : s.Sound) (ha : s.objects[self]? = some a)
    (hblock : s.Free block ∨ block = a.data) {i : ℕ} (hi : i ≠ self) {b : BufferStruct}
    (hb : s.objects[i]? = some b) : b.data ≠ block := by
  rcases hblock with hfree | rfl
  · exact hfree b (List.mem_of_getElem? hb)
  · exact fun h => hi (hs.separate i self b a hb ha h)

theorem Store.Sound.bytes_replace (hs : s.Sound) (ha : s.objects[self]? = some a)
    (hblock : s.Free block ∨ block = a.data) (contents : List UInt8) (i : ℕ) :
    (s.replace self block contents).bytes i = if i = self then some contents else s.bytes i := by
  obtain ⟨hlt, -⟩ := List.getElem?_eq_some_iff.mp ha
  unfold bytes replace
  split
  case isTrue hi =>
    rw [hi, List.getElem?_set_self hlt]
    simp
  case isFalse hi =>
    rw [List.getElem?_set_ne (Ne.symm hi)]
    cases hb : s.objects[i]? with
    | none => rfl
    | some b =>
      have hne := hs.ne_of_other ha hblock hi hb
      simp [Function.update_of_ne hne]

theorem Store.Sound.replace (hs : s.Sound) (ha : s.objects[self]? = some a)
    (hblock : s.Free block ∨ block = a.data) (contents : List UInt8) : (s.replace self block contents).Sound := by
  obtain ⟨hlt, -⟩ := List.getElem?_eq_some_iff.mp ha
  have hobject : ∀ (i : ℕ) (o : BufferStruct), (s.replace self block contents).objects[i]? = some o →
      (i = self ∧ o = ⟨block, contents.length⟩) ∨ i ≠ self ∧ s.objects[i]? = some o ∧ o.data ≠ block := by
    intro i o ho
    by_cases hi : i = self
    · rw [hi, Store.replace, List.getElem?_set_self hlt] at ho
      exact Or.inl ⟨hi, (Option.some.inj ho).symm⟩
    · rw [Store.replace, List.getElem?_set_ne (Ne.symm hi)] at ho
      exact Or.inr ⟨hi, ho, hs.ne_of_other ha hblock hi ho⟩
  constructor
  · intro i j o o' ho ho' hdata
    rcases hobject i o ho with ⟨hi, rfl⟩ | ⟨hi, hold, hne⟩
    · rcases hobject j o' ho' with ⟨hj, -⟩ | ⟨-, -, hne'⟩
      · rw [hi, hj]
      · exact absurd hdata.symm hne'
    · rcases hobject j o' ho' with ⟨hj, rfl⟩ | ⟨hj, hold', -⟩
      · exact absurd hdata hne
      · exact hs.separate i j o o' hold hold' hdata
  · intro o ho
    obtain ⟨i, hi⟩ := List.mem_iff_getElem?.mp ho
    rcases hobject i o hi with ⟨-, rfl⟩ | ⟨-, hold, hne⟩
    · change (Function.update s.memory block contents block).length = contents.length
      rw [Function.update_self]
    · change (Function.update s.memory block contents o.data).length = o.size
      rw [Function.update_of_ne hne]
      exact hs.length o (List.mem_of_getElem? hold)

end Replace

/-- An extension appends the bytes of the other buffer, or the program exits. -/
theorem Store.Sound.extend (hs : s.Sound) {room : ℕ → Bool} {self other block : ℕ} {a b : BufferStruct}
    (ha : s.objects[self]? = some a) (hb : s.objects[other]? = some b)
    (hblock : (self ≠ other ∧ s.Free block) ∨ block = a.data) :
    extend room s self other block =
      if room (a.size + b.size) then some (s.replace self block (s.memory a.data ++ s.memory b.data)) else none := by
  have hlength_a := hs.length a (List.mem_of_getElem? ha)
  have hlength_b := hs.length b (List.mem_of_getElem? hb)
  -- the block of the other buffer still has its bytes when they are copied
  have hread : Function.update s.memory block (s.memory a.data) b.data = s.memory b.data := by
    by_cases hbd : b.data = block
    · rw [hbd, Function.update_self]
      rcases hblock with ⟨-, hfree⟩ | rfl
      · exact absurd hbd (hfree b (List.mem_of_getElem? hb))
      · rfl
    · rw [Function.update_of_ne hbd]
  unfold Buffers.extend Store.replace
  simp only [ha, hb, hblock, and_true, Option.bind_eq_bind, Option.bind_some, List.take_of_length_le hlength_a.le,
    hread, List.take_of_length_le hlength_b.le, Function.update_self, Function.update_idem, List.length_append,
    hlength_a, hlength_b]
  rfl

/-- Every step keeps the buffers in blocks of their own. -/
theorem Store.Sound.step (hs : s.Sound) {room : ℕ → Bool} {op : BufferOp} {s' : Store}
    (h : Buffers.step room s op = some s') : s'.Sound := by
  cases op with
  | create block contents =>
    rw [Buffers.step] at h
    split at h
    case isTrue hfree =>
      obtain rfl := Option.some.inj h
      exact hs.create hfree contents
    case isFalse => cases h
  | extend self other block =>
    rw [Buffers.step] at h
    cases ha : s.objects[self]? with
    | none => simp [Buffers.extend, ha] at h
    | some a =>
      cases hb : s.objects[other]? with
      | none => simp [Buffers.extend, hb] at h
      | some b =>
        by_cases hblock : (self ≠ other ∧ s.Free block) ∨ block = a.data
        · rw [hs.extend ha hb hblock] at h
          split at h
          case isTrue =>
            obtain rfl := Option.some.inj h
            exact hs.replace ha (hblock.imp_left And.right) _
          case isFalse => cases h
        · simp [Buffers.extend, ha, hb, hblock] at h

theorem Reachable.sound {room : ℕ → Bool} (h : Reachable room s) : s.Sound :=
  Runs.Reachable.invariant (fun _ hinit => hinit ▸ Store.sound_init) (fun _ _ _ hs hstep => hs.step hstep) h

/-! ## Bytes as numbers -/

theorem toInt_ofNat_byte (x : UInt8) : (Int64.ofNat x.toNat).toInt = x.toNat := by
  have h := x.toNat_lt
  rw [Int64.toInt_ofNat_of_lt (by omega)]

/-- A byte that is read as a `char`. -/
theorem toInt_char (x : UInt8) : x.toInt8.toInt64.toInt = if x < 128 then (x.toNat : ℤ) else x.toNat - 256 := by
  have h := x.toNat_lt
  have hbits : x.toInt8.toInt = x.toBitVec.toInt := rfl
  have hlt : x < 128 ↔ 2 * x.toNat < 2^8 := by
    rw [UInt8.lt_iff_toNat_lt]
    change x.toNat < 128 ↔ _
    omega
  rw [Int8.toInt_toInt64, hbits, BitVec.toInt_eq_toNat_cond]
  simp only [hlt, UInt8.toNat_toBitVec]
  rfl

/-- The `char` is the byte for the bytes below 128. -/
theorem char_eq_iff (x : UInt8) : x.toInt8.toInt64 = Int64.ofNat x.toNat ↔ x < 128 := by
  rw [← Int64.toInt_inj, toInt_ofNat_byte, toInt_char]
  split <;> simp [*]
/-- An index is out of range, or it is that of a byte. -/
theorem getitemBytes_cases (x : List UInt8) (index : Int64) :
    getitemBytes x index = .error ⟨"IndexError", "index out of range"⟩ ∨
      ∃ (k : ℕ) (hk : k < x.length), getitemBytes x index = .ok [x[k]] := by
  unfold getitemBytes
  dsimp only
  generalize (if index < 0 then index.toInt + (x.length : ℤ) else index.toInt) = i
  split
  case isTrue => exact Or.inl rfl
  case isFalse hin =>
    have hk : i.toNat < x.length := by omega
    refine Or.inr ⟨i.toNat, hk, ?_⟩
    rw [List.drop_eq_getElem_cons hk, List.take_succ_cons, List.take_zero]

/-- The index of a byte is in range. -/
theorem getitemBytes_ofNat {x : List UInt8} (hx : x.length < 2^63) {k : ℕ} (hk : k < x.length) :
    getitemBytes x (Int64.ofNat k) = .ok [x[k]] := by
  have hint : (Int64.ofNat k).toInt = k := Int64.toInt_ofNat_of_lt (by omega)
  have hnonneg : ¬Int64.ofNat k < 0 := by
    rw [Int64.lt_iff_toInt_lt, hint]
    exact not_lt.mpr (Int.natCast_nonneg k)
  unfold getitemBytes
  rw [if_neg hnonneg, hint, if_neg (by omega), Int.toNat_natCast, List.drop_eq_getElem_cons hk, List.take_succ_cons,
    List.take_zero]

/-- `__getitem__` of a buffer takes the byte that `__getitem__` of a string would take. -/
theorem getitem_eq {b : ℕ} {x : List UInt8} (hb : s.bytes b = some x) (index : Int64) :
    getitem s b index = some ((getitemBytes x index).map fun piece => (piece.getD 0 0).toInt8.toInt64) := by
  unfold getitem getitemBytes
  rw [hb, Option.bind_eq_bind, Option.bind_some]
  dsimp only
  generalize (if index < 0 then index.toInt + (x.length : ℤ) else index.toInt) = i
  split
  case isTrue => rfl
  case isFalse hin =>
    have hk : i.toNat < x.length := by omega
    rw [List.drop_eq_getElem_cons hk, List.getD_eq_getElem _ _ hk]
    rfl

/-! ## `partition` takes the first occurrence -/

/-- The comparisons of `partition` find the first occurrence. -/
theorem foundAt_eq (self part : List UInt8) : foundAt self part = firstFrom part self 0 := by
  unfold foundAt
  split
  case isTrue hle =>
    ext i
    rw [firstFrom_eq_some_iff, List.find?_range_eq_some]
    simp only [decide_eq_true_eq, Bool.not_eq_true', decide_eq_false_iff_not, List.mem_range,
      Nat.cast_nonneg, true_and]
    constructor
    · rintro ⟨hi, hlt, hbefore⟩
      refine ⟨(take_drop_eq_iff (by omega)).mp hi, fun j hj hoccurs => ?_⟩
      exact hbefore j hj ((take_drop_eq_iff hoccurs.1).mpr hoccurs)
    · rintro ⟨hi, hbefore⟩
      have hlt := hi.1
      refine ⟨(take_drop_eq_iff hi.1).mpr hi, by omega, fun j hj h => ?_⟩
      exact hbefore j hj ((take_drop_eq_iff (by omega)).mp h)
  case isFalse hlt =>
    symm
    rw [firstFrom_eq_none_iff]
    intro j _ hoccurs
    have hle := hoccurs.1
    omega

/-- What a partition should be: the parts make up the buffer, the separator is found when there is one, and nothing
before it is one. -/
structure Partitions (b sep : List UInt8) (r : List UInt8 × List UInt8 × List UInt8) : Prop where
  whole : r.1 ++ r.2.1 ++ r.2.2 = b
  found : r.2.1 = sep ↔ ∃ i, OccursAt sep b i
  absent : (¬∃ i, OccursAt sep b i) → r.2.1 = [] ∧ r.2.2 = []
  first : (∃ i, OccursAt sep b i) → OccursAt sep b r.1.length ∧ ∀ j < r.1.length, ¬OccursAt sep b j

theorem partition_spec (b : List UInt8) {sep : List UInt8} (hsep : sep ≠ []) :
    Partitions b sep (partition b sep) := by
  unfold partition
  rw [foundAt_eq]
  cases h : firstFrom sep b 0 with
  | none =>
    have hnone : ¬∃ i, OccursAt sep b i := by
      rintro ⟨i, hi⟩
      exact firstFrom_eq_none_iff.mp h i (Int.natCast_nonneg i) hi
    exact ⟨by simp, iff_of_false (fun hh => hsep hh.symm) hnone, fun _ => ⟨rfl, rfl⟩, fun hi => absurd hi hnone⟩
  | some i =>
    obtain ⟨⟨-, hi⟩, hbefore⟩ := firstFrom_eq_some_iff.mp h
    have hsome : ∃ i, OccursAt sep b i := ⟨i, hi⟩
    have hlength : (b.take i).length = i := by
      have hle := hi.1
      rw [List.length_take]
      omega
    refine ⟨hi.take_append_drop, iff_of_true rfl hsome, fun hnone => absurd hsome hnone, fun _ => ?_⟩
    rw [hlength]
    exact ⟨hi, fun j hj hoccurs => hbefore j hj ⟨Int.natCast_nonneg j, hoccurs⟩⟩

/-! ## Buffers as lists of bytes -/

/-- What the methods should do with a string, two buffers and a separator. -/
structure Refines (room : ℕ → Bool) (s : Store) (str sep : List UInt8) (b c : ℕ) : Prop where
  index : ∀ block, s.Free block → ∀ i, getitem (fromString s block str).2 (fromString s block str).1 i =
    some (getitemBytes str i >>= toByte)
  value : ∀ block, s.Free block → ∀ (k : ℕ) (hk : k < str.length),
    getitem (fromString s block str).2 (fromString s block str).1 (Int64.ofNat k) =
      some (.ok (Int64.ofNat str[k].toNat))
  text : ∀ block, s.Free block → toString (fromString s block str).2 (fromString s block str).1 = some str
  extend : ∀ x y o block, s.bytes b = some x → s.bytes c = some y → s.objects[b]? = some o →
    (s.Free block ∨ block = o.data) → ∃ s', extend room s b c block = some s' ∧
      s'.bytes b = some (x ++ y) ∧ ∀ d ≠ b, s'.bytes d = s.bytes d
  partition : ∀ x, s.bytes b = some x → Partitions x sep (partition x sep)

/-- The bytes of a buffer that is made of a string are its bytes as numbers exactly when they are below 128. -/
theorem index_iff (hs : s.Sound) (str : List UInt8) {block : ℕ} (hfree : s.Free block) :
    (∀ i, getitem (fromString s block str).2 (fromString s block str).1 i = some (getitemBytes str i >>= toByte)) ↔
      ∀ i k (hk : k < str.length), getitemBytes str i = .ok [str[k]] → str[k] < 128 := by
  refine forall_congr' fun i => ?_
  rw [getitem_eq (hs.bytes_fromString hfree str), Option.some.injEq]
  rcases getitemBytes_cases str i with hout | ⟨k, hk, hin⟩
  · rw [hout]
    exact iff_of_true rfl nofun
  · rw [hin]
    have hiff : (Except.map (fun piece => (piece.getD 0 0).toInt8.toInt64) (.ok [str[k]]) : Except ArErr Int64) =
        (.ok [str[k]] >>= toByte) ↔ str[k] < 128 := by
      rw [← char_eq_iff]
      exact ⟨fun h => Except.ok.inj h, fun h => congrArg Except.ok h⟩
    rw [hiff]
    constructor
    · intro hlt k' hk' heq
      rw [Except.ok.injEq, List.singleton_inj] at heq
      rwa [← heq]
    · exact fun h => h k hk rfl

/-- In every store that a program comes to, the methods do with a string, two different buffers and a separator what
they should exactly when the bytes of the string are below 128 and one of the buffers has a byte, or the collector
gives memory for none. -/
theorem buffers_refine_iff {room : ℕ → Bool} (hroom : ∀ n, 0 < n → room n) {s : Store} (hs : Reachable room s)
    (str : Bytes) (sep : {sep : List UInt8 // sep ≠ []}) {b c : ℕ} (hne : b ≠ c) {x y : List UInt8}
    (hb : s.bytes b = some x) (hc : s.bytes c = some y) :
    Refines room s str.1 sep.1 b c ↔ (∀ a ∈ str.1, a < 128) ∧ (room 0 ∨ x ≠ [] ∨ y ≠ []) := by
  have hsound := hs.sound
  obtain ⟨o, ho, hx⟩ := (Store.bytes_eq_some hsound).mp hb
  obtain ⟨o', ho', hy⟩ := (Store.bytes_eq_some hsound).mp hc
  have hlength : o.size = x.length ∧ o'.size = y.length := by
    rw [← hsound.length o (List.mem_of_getElem? ho), ← hsound.length o' (List.mem_of_getElem? ho'), hx, hy]
    exact ⟨rfl, rfl⟩
  -- a block that is free, where the string goes
  obtain ⟨block, hfree⟩ : ∃ block, s.Free block := by
    obtain ⟨block, hblock⟩ := Infinite.exists_notMem_finset (s.objects.map BufferStruct.data).toFinset
    refine ⟨block, fun o ho hdata => hblock ?_⟩
    rw [List.mem_toFinset, ← hdata]
    exact List.mem_map_of_mem ho
  have hvalue : ∀ block, s.Free block → ∀ (k : ℕ) (hk : k < str.1.length),
      getitem (fromString s block str.1).2 (fromString s block str.1).1 (Int64.ofNat k) =
        some (.ok str.1[k].toInt8.toInt64) := by
    intro block hfree k hk
    rw [getitem_eq (hsound.bytes_fromString hfree str.1), getitemBytes_ofNat str.2 hk]
    rfl
  have hextend : ∀ block, (s.Free block ∨ block = o.data) →
      extend room s b c block = if room (x.length + y.length) then some (s.replace b block (x ++ y)) else none := by
    intro block hblock
    rw [hsound.extend ho ho' (hblock.imp_left fun hfree => ⟨hne, hfree⟩), hlength.1, hlength.2, hx, hy]
  constructor
  · intro h
    constructor
    · -- the byte at the index of an element is the element
      intro a ha
      obtain ⟨k, hk, rfl⟩ := List.mem_iff_getElem.mp ha
      have hk' := h.value block hfree k hk
      rw [hvalue block hfree k hk, Option.some.injEq, Except.ok.injEq] at hk'
      exact (char_eq_iff _).mp hk'
    · obtain ⟨s', hs', -⟩ := h.extend x y o o.data hb hc ho (Or.inr rfl)
      rw [hextend o.data (Or.inr rfl)] at hs'
      by_contra hempty
      simp only [not_or, not_not] at hempty
      obtain ⟨hroom0, rfl, rfl⟩ := hempty
      simp [hroom0] at hs'
  · rintro ⟨hbytes, hempty⟩
    have hsome : room (x.length + y.length) := by
      by_cases hpos : 0 < x.length + y.length
      · exact hroom _ hpos
      · have hnil : x = [] ∧ y = [] := by
          constructor <;> (apply List.eq_nil_of_length_eq_zero; omega)
        rcases hempty with hroom0 | hx | hy
        · rwa [Nat.eq_zero_of_not_pos hpos]
        · exact absurd hnil.1 hx
        · exact absurd hnil.2 hy
    constructor
    · intro block hfree
      rw [index_iff hsound str.1 hfree]
      exact fun _ k hk _ => hbytes _ (List.getElem_mem hk)
    · intro block hfree k hk
      rw [hvalue block hfree k hk, (char_eq_iff _).mpr (hbytes _ (List.getElem_mem hk))]
    · exact fun block hfree => hsound.bytes_fromString hfree str.1
    · intro x' y' o'' block hb' hc' ho'' hblock
      obtain rfl := Option.some.inj (hb.symm.trans hb')
      obtain rfl := Option.some.inj (hc.symm.trans hc')
      obtain rfl := Option.some.inj (ho.symm.trans ho'')
      have hreplace := hsound.bytes_replace ho hblock (x ++ y)
      refine ⟨s.replace b block (x ++ y), by rw [hextend block hblock, if_pos hsome], ?_, fun d hd => ?_⟩
      · rw [hreplace, if_pos rfl]
      · rw [hreplace, if_neg hd]
    · exact fun x' _ => partition_spec x' sep.2

/-- Two buffers of one byte, and a string with a byte above 127. -/
theorem buffers_refine_two : ∃ s, Reachable (fun _ => true) s ∧
    (Refines (fun _ => true) s [104, 195, 169] [44] 0 1 ↔
      (∀ a ∈ ([104, 195, 169] : List UInt8), a < 128) ∧ (true ∨ ([1] : List UInt8) ≠ [] ∨ ([2] : List UInt8) ≠ [])) := by
  have hs : Reachable (fun _ => true) (((Store.init.create 0 [1]).2.create 1 [2]).2) :=
    .step (i := .create 1 [2]) (.step (i := .create 0 [1]) (.init rfl) rfl) rfl
  exact ⟨_, hs, buffers_refine_iff (fun _ _ => rfl) hs ⟨[104, 195, 169], by decide⟩ ⟨[44], by decide⟩ (by decide)
    rfl rfl⟩

/-- The byte of `é` that comes first is 195, and the buffer has -61. -/
theorem not_forall_buffers_refine :
    ¬∀ (room : ℕ → Bool) (s : Store) (str : Bytes) (sep : {sep : List UInt8 // sep ≠ []}) (b c : ℕ) (x y : List UInt8),
      (∀ n, 0 < n → room n) → Reachable room s → b ≠ c → s.bytes b = some x → s.bytes c = some y →
      Refines room s str.1 sep.1 b c := by
  intro hall
  have hs : Reachable (fun _ => true) (((Store.init.create 0 [1]).2.create 1 [2]).2) :=
    .step (i := .create 1 [2]) (.step (i := .create 0 [1]) (.init rfl) rfl) rfl
  have hrefines := hall (fun _ => true) _ ⟨[195, 169], by decide⟩ ⟨[44], by decide⟩ 0 1 [1] [2] (fun _ _ => rfl) hs
    (by decide) rfl rfl
  have hvalue := hrefines.value 2 (by decide) 0 (by decide)
  revert hvalue
  decide

end Buffers

end Chloride
