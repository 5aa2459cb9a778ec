import Chloride.Hashmap.Lookup
import Chloride.Objects.DynamicArray
import Chloride.Translator.Translated

/-!
# The memory of the arena

`ConstantArena` and the functions on it of `src/translator/translator.c`, with the block of memory that the constants
are in and the hash map that leads from the hash of a constant to its place. A byte of the block is indeterminate until
it is written. What the arena knows of a constant is where it starts: `arena_push` compares as many bytes from there as
it is given, which may be more than were pushed there.

The offsets and the bytes are those of `ConstantArena.push`, where data of one hash has one length (`push_refines`). So
what a push answers reads as what was pushed, then and later (`arenaPush_stable`).
-/

namespace Chloride

/-- How a function does not return: the process ends, or the behaviour is undefined. -/
inductive Fault where
  | exits
  | undefined
  deriving DecidableEq

/-- `ConstantArena`; a value of the hash map is an offset and one. -/
structure ArenaMemory where
  data : List (Option UInt8)
  capacity : ℕ
  size : ℕ
  hashmap : Hashmap (List UInt8) ℕ

namespace ArenaMemory

/-- `CHUNK_SIZE` -/
def chunkSize : ℕ := DynamicArray.chunkSize.toNat

/-- `arena_init`. The count of the hash map is what is in its memory. -/
def arenaInit (count : UInt64) : ArenaMemory where
  data := List.replicate chunkSize none
  capacity := chunkSize
  size := 0
  hashmap := Hashmap.create count

/-- `arena_resize`. There is no block of `2^64` bytes. -/
def arenaResize (arena : ArenaMemory) (newSize : ℕ) : Except Fault ArenaMemory :=
  let newCapacity := (newSize / chunkSize + 1) * chunkSize
  if newCapacity = arena.capacity then .ok arena
  else if 2^64 ≤ newCapacity then .error .exits
  else .ok { arena with data := DynamicArray.realloc arena.data newCapacity, capacity := newCapacity }

/-- The bytes from an offset on. -/
def read (arena : ArenaMemory) (offset length : ℕ) : List (Option UInt8) := (arena.data.drop offset).take length

/-- Whether `memcmp` finds no difference. It may look at all the bytes. -/
def memcmp (arena : ArenaMemory) (offset : ℕ) (data : List UInt8) : Except Fault Bool :=
  let bytes := arena.read offset data.length
  if bytes.length < data.length ∨ none ∈ bytes then .error .undefined else .ok (bytes = data.map some)

/-- `memcpy` to an offset. -/
def memcpy (arena : ArenaMemory) (offset : ℕ) (data : List UInt8) : Except Fault ArenaMemory :=
  if arena.data.length < offset + data.length then .error .undefined
  else .ok { arena with
    data := arena.data.take offset ++ data.map some ++ arena.data.drop (offset + data.length) }

/-- What `arena_push` does with data that it does not find. -/
def append (arena : ArenaMemory) (hash : UInt64) (data : List UInt8) : Except Fault (ℕ × ArenaMemory) := do
  let arena ← arena.arenaResize (arena.size + data.length)
  let offset := arena.size
  let arena ← arena.memcpy arena.size data
  match arena.hashmap.insert hash data (offset + 1) 0 with
  | none => .error .exits
  | some hashmap => return (offset, { arena with size := arena.size + data.length, hashmap := hashmap })

/-- `arena_push` -/
def arenaPush (siphash : List UInt8 → UInt64) (arena : ArenaMemory) (data : List UInt8) :
    Except Fault (ℕ × ArenaMemory) := do
  let hash := siphash data
  match arena.hashmap.lookup hash with
  | some val =>
    let offset := val - 1
    -- Another constant may have the hash.
    if ← arena.memcmp offset data then return (offset, arena) else arena.append hash data
  | none => arena.append hash data

/-- One push after the other, with the offsets. -/
def pushAll (siphash : List UInt8 → UInt64) : ArenaMemory → List (List UInt8) → Except Fault (List ℕ × ArenaMemory)
  | arena, [] => .ok ([], arena)
  | arena, data :: pushes => do
    let (offset, arena) ← arenaPush siphash arena data
    let (offsets, arena) ← pushAll siphash arena pushes
    return (offset :: offsets, arena)

/-- What is in the block from an offset on. -/
def Holds (arena : ArenaMemory) (offset : ℕ) (data : List UInt8) : Prop :=
  arena.read offset data.length = data.map some

end ArenaMemory

/-! ## The constants as one list of bytes -/

namespace ConstantArena

/-- The data is in the arena from the offset on. -/
def Holds (arena : ConstantArena) (offset : ℕ) (data : List UInt8) : Prop :=
  (arena.data.drop offset).take data.length = data

instance (arena : ConstantArena) (offset : ℕ) (data : List UInt8) : Decidable (arena.Holds offset data) :=
  inferInstanceAs (Decidable (_ = _))

/-- Bytes that are there are not behind the end. -/
theorem Holds.le_length {arena : ConstantArena} {offset : ℕ} {data : List UInt8} (h : arena.Holds offset data) :
    data = [] ∨ offset + data.length ≤ arena.data.length := by
  have hlength := congrArg List.length h
  rw [List.length_take, List.length_drop] at hlength
  rw [← List.length_eq_zero_iff]
  omega

/-- An arena that goes on with more bytes holds what it held. -/
theorem Holds.mono {arena arena' : ConstantArena} {offset : ℕ} {data : List UInt8} (h : arena.Holds offset data)
    (hbegins : arena.data <+: arena'.data) : arena'.Holds offset data := by
  obtain ⟨rest, hrest⟩ := hbegins
  rcases h.le_length with rfl | hle
  · exact List.take_zero
  · rw [Holds, ← hrest, List.drop_append_of_le_length (by omega), List.take_append_of_le_length]
    · exact h
    · rw [List.length_drop]
      omega

/-- What the offsets of an arena lead to: under each hash to data of that hash. -/
def Leads (hash : List UInt8 → UInt64) (pushed : List (List UInt8)) (arena : ConstantArena) : Prop :=
  ∀ h offset, find arena.offsets h = some offset → ∃ data ∈ pushed, hash data = h ∧ arena.Holds offset data

variable {hash : List UInt8 → UInt64} {pushed : List (List UInt8)} {arena : ConstantArena} {data : List UInt8}

/-- The two ways of a push: the data is there, or it goes to the end. -/
theorem push_cases (hash : List UInt8 → UInt64) (arena : ConstantArena) (data : List UInt8) :
    (∃ offset, find arena.offsets (hash data) = some offset ∧ arena.Holds offset data ∧
        arena.push hash data = (offset, arena)) ∨
      ((∀ offset, find arena.offsets (hash data) = some offset → ¬arena.Holds offset data) ∧
        arena.push hash data = (arena.data.length,
          { data := arena.data ++ data, offsets := put arena.offsets (hash data) arena.data.length })) := by
  unfold push
  cases find arena.offsets (hash data) with
  | none => exact Or.inr ⟨fun offset h => (nomatch h), rfl⟩
  | some offset =>
    by_cases heq : (arena.data.drop offset).take data.length = data
    · exact Or.inl ⟨offset, rfl, heq, if_pos heq⟩
    · refine Or.inr ⟨?_, if_neg heq⟩
      rintro _ ⟨⟩
      exact heq

/-- Data is in an arena that it was put at the end of. -/
theorem holds_end (offsets : List (UInt64 × ℕ)) :
    Holds { data := arena.data ++ data, offsets := offsets } arena.data.length data := by
  rw [Holds, List.drop_left, List.take_length]

/-- A push only appends to the data. -/
theorem push_prefix : arena.data <+: (arena.push hash data).2.data := by
  rcases push_cases hash arena data with ⟨offset, -, -, hpush⟩ | ⟨-, hpush⟩
  · rw [hpush]
  · rw [hpush]
    exact List.prefix_append _ _

/-- The offset that a push answers holds the data. -/
theorem push_holds : (arena.push hash data).2.Holds (arena.push hash data).1 data := by
  rcases push_cases hash arena data with ⟨offset, -, hdata, hpush⟩ | ⟨-, hpush⟩
  · rw [hpush]
    exact hdata
  · rw [hpush]
    exact holds_end _

/-- After a push the offsets lead to data that was pushed. -/
theorem Leads.push (harena : arena.Leads hash pushed) (hdata : data ∈ pushed) :
    (arena.push hash data).2.Leads hash pushed := by
  rcases push_cases hash arena data with ⟨offset, -, -, hpush⟩ | ⟨-, hpush⟩
  · rw [hpush]
    exact harena
  · rw [hpush]
    intro h offset hfind
    dsimp only at hfind
    rw [find_put] at hfind
    by_cases heq : hash data = h
    · rw [if_pos heq, Option.some.injEq] at hfind
      subst hfind
      exact ⟨data, hdata, heq, holds_end _⟩
    · rw [if_neg heq] at hfind
      obtain ⟨data', hdata', hhash, hholds⟩ := harena h offset hfind
      exact ⟨data', hdata', hhash, hholds.mono (List.prefix_append _ _)⟩

end ConstantArena

/-! ## The block and the list -/

namespace ArenaMemory

/-- The block is an arena of constants: its first bytes, and under each hash the offset. -/
structure Represents (memory : ArenaMemory) (arena : ConstantArena) : Prop where
  data : memory.data.take memory.size = arena.data.map some
  size : memory.size = arena.data.length
  capacity : memory.capacity = memory.data.length
  sound : memory.hashmap.Sound
  lookup : ∀ h, memory.hashmap.lookup h = (find arena.offsets h).map (· + 1)

variable {memory memory' : ArenaMemory} {arena : ConstantArena} {data : List UInt8} {offset : ℕ}

theorem Represents.init (count : UInt64) : Represents (arenaInit count) ⟨[], []⟩ where
  data := rfl
  size := rfl
  capacity := rfl
  sound := Hashmap.Sound.create count
  lookup h := Hashmap.lookup_create count h

/-- The block goes on behind its constants. -/
theorem Represents.data_eq (hmemory : Represents memory arena) :
    memory.data = arena.data.map some ++ memory.data.drop memory.size := by
  rw [← hmemory.data, List.take_append_drop]

/-- What is among the constants is read as it is. -/
theorem Represents.read (hmemory : Represents memory arena) {length : ℕ}
    (hle : offset + length ≤ arena.data.length) :
    memory.read offset length = ((arena.data.drop offset).take length).map some := by
  rw [ArenaMemory.read, hmemory.data_eq, List.drop_append_of_le_length (by rw [List.length_map]; omega),
    List.take_append_of_le_length (by rw [List.length_drop, List.length_map]; omega), List.map_take, List.map_drop]

/-- What the list holds, the block holds. -/
theorem Represents.holds (hmemory : Represents memory arena) (h : arena.Holds offset data) :
    memory.Holds offset data := by
  rcases h.le_length with rfl | hle
  · exact List.take_zero
  · rw [Holds, hmemory.read hle, h]

/-- A comparison with bytes among the constants finds whether the list holds the data. -/
theorem Represents.memcmp (hmemory : Represents memory arena)
    (hle : data = [] ∨ offset + data.length ≤ arena.data.length) :
    memory.memcmp offset data = .ok (decide (arena.Holds offset data)) := by
  rcases hle with rfl | hle
  · rfl
  · have hread := hmemory.read hle
    have hlength : ((arena.data.drop offset).take data.length).length = data.length := by
      rw [List.length_take, List.length_drop]
      omega
    have hdefined : ¬((memory.read offset data.length).length < data.length ∨
        none ∈ memory.read offset data.length) := by
      rw [hread, List.length_map, hlength]
      rintro (hlt | hnone)
      · exact lt_irrefl _ hlt
      · obtain ⟨b, -, hb⟩ := List.mem_map.mp hnone
        cases hb
    rw [ArenaMemory.memcmp, if_neg hdefined, hread]
    congr 1
    rw [decide_eq_decide, List.map_inj_right fun a b h => Option.some.inj h, ConstantArena.Holds]

/-- A resize for more bytes keeps the constants and leaves room. -/
theorem Represents.arenaResize (hmemory : Represents memory arena) {newSize : ℕ} (hsize : memory.size ≤ newSize) :
    memory.arenaResize newSize = .error .exits ∨ ∃ memory', memory.arenaResize newSize = .ok memory' ∧
      Represents memory' arena ∧ newSize ≤ memory'.data.length ∧ memory'.size = memory.size := by
  have hnew : newSize < (newSize / chunkSize + 1) * chunkSize := by
    show newSize < (newSize / 16 + 1) * 16
    omega
  rw [ArenaMemory.arenaResize]
  split_ifs with hsame hlarge
  · exact Or.inr ⟨memory, rfl, hmemory, by rw [← hmemory.capacity]; omega, rfl⟩
  · exact Or.inl rfl
  · have hrealloc : (DynamicArray.realloc memory.data ((newSize / chunkSize + 1) * chunkSize)).length =
        (newSize / chunkSize + 1) * chunkSize := by
      simp only [DynamicArray.realloc, List.length_append, List.length_take, List.length_replicate]
      omega
    have hle : memory.size ≤ memory.data.length := by
      have hlength := congrArg List.length hmemory.data
      rw [List.length_take, List.length_map, ← hmemory.size] at hlength
      omega
    refine Or.inr ⟨_, rfl, ⟨?_, hmemory.size, hrealloc.symm, hmemory.sound, hmemory.lookup⟩, ?_, rfl⟩
    · show (DynamicArray.realloc memory.data _).take memory.size = _
      rw [DynamicArray.realloc, List.take_append_of_le_length (by rw [List.length_take]; omega), List.take_take,
        min_eq_left (by omega), hmemory.data]
    · show newSize ≤ (DynamicArray.realloc memory.data _).length
      omega

/-- Data that is not found goes to the end of the list. -/
theorem Represents.append (hmemory : Represents memory arena) (hash : UInt64) (data : List UInt8) :
    memory.append hash data = .error .exits ∨ ∃ memory', memory.append hash data = .ok (arena.data.length, memory') ∧
      Represents memory' { data := arena.data ++ data, offsets := put arena.offsets hash arena.data.length } := by
  rw [ArenaMemory.append]
  rcases hmemory.arenaResize (Nat.le_add_right memory.size data.length) with hresize | ⟨m, hresize, hm, hroom, hsize⟩
  · left
    rw [hresize]
    rfl
  · have hfits : ¬m.data.length < m.size + data.length := by omega
    have hcopy : m.memcpy m.size data = .ok { m with
        data := m.data.take m.size ++ data.map some ++ m.data.drop (m.size + data.length) } := if_neg hfits
    simp only [hresize, bind, Except.bind, hcopy]
    cases hinsert : m.hashmap.insert hash data (m.size + 1) 0 with
    | none => exact Or.inl rfl
    | some hashmap =>
      obtain ⟨hsound, hlookup⟩ := hm.sound.insert hinsert
      have hle : m.size ≤ m.data.length := by omega
      have htake : (m.data.take m.size).length = m.size := List.length_take_of_le hle
      refine Or.inr ⟨_, congrArg (fun offset => Except.ok (offset, _)) hm.size, ?_, ?_, ?_, hsound, ?_⟩
      · show (m.data.take m.size ++ data.map some ++ m.data.drop (m.size + data.length)).take
          (m.size + data.length) = (arena.data ++ data).map some
        rw [List.take_left' (by rw [List.length_append, htake, List.length_map]), hm.data, List.map_append]
      · show m.size + data.length = (arena.data ++ data).length
        rw [hm.size, List.length_append]
      · show m.capacity = (m.data.take m.size ++ data.map some ++ m.data.drop (m.size + data.length)).length
        rw [List.length_append, List.length_append, htake, List.length_map, List.length_drop, hm.capacity]
        omega
      · intro h
        show hashmap.lookup h = _
        rw [hlookup, find_put, hm.size, hm.lookup]
        split <;> rfl

/-! ## A push and all pushes -/

variable {siphash : List UInt8 → UInt64} {pushed : List (List UInt8)}

/-- The data of one hash has one length. -/
def OneLength (siphash : List UInt8 → UInt64) (pushed : List (List UInt8)) : Prop :=
  ∀ a ∈ pushed, ∀ b ∈ pushed, siphash a = siphash b → a.length = b.length

/-- A push that does not end the process is the push onto the list. -/
theorem Represents.push_refines (hmemory : Represents memory arena) (hleads : arena.Leads siphash pushed)
    (hlength : OneLength siphash pushed) (hdata : data ∈ pushed) :
    arenaPush siphash memory data = .error .exits ∨
      ∃ memory', arenaPush siphash memory data = .ok ((arena.push siphash data).1, memory') ∧
        Represents memory' (arena.push siphash data).2 := by
  have hlookup := hmemory.lookup (siphash data)
  unfold arenaPush
  dsimp only
  rw [hlookup]
  rcases ConstantArena.push_cases siphash arena data with ⟨offset, hfind, hholds, hpush⟩ | ⟨hother, hpush⟩
  · -- The place of the hash holds the data.
    rw [hfind, hpush]
    refine Or.inr ⟨memory, ?_, hmemory⟩
    show (memory.memcmp offset data >>= _) = _
    rw [hmemory.memcmp hholds.le_length, decide_eq_true hholds]
    rfl
  · rw [hpush]
    cases hfind : find arena.offsets (siphash data) with
    | none => exact hmemory.append _ _
    | some offset =>
      -- What is there under the hash has the length of the data, so that nothing behind the constants is compared.
      obtain ⟨data', hdata', hhash, hholds⟩ := hleads _ _ hfind
      have hsame := hlength data' hdata' data hdata hhash
      have hle : data = [] ∨ offset + data.length ≤ arena.data.length := by
        rw [← List.length_eq_zero_iff, ← hsame, List.length_eq_zero_iff]
        exact hholds.le_length
      show (memory.memcmp offset data >>= _) = _ ∨ ∃ memory', (memory.memcmp offset data >>= _) = _ ∧ _
      rw [hmemory.memcmp hle, decide_eq_false (hother offset hfind)]
      exact hmemory.append _ _

/-- A hash that tells the data apart is enough. -/
theorem oneLength_of_injOn (h : Set.InjOn siphash {data | data ∈ pushed}) : OneLength siphash pushed :=
  fun _ ha _ hb hhash => congrArg List.length (h ha hb hhash)

/-- One push after the other onto the list. -/
def specPushAll (siphash : List UInt8 → UInt64) : ConstantArena → List (List UInt8) → List ℕ × ConstantArena
  | arena, [] => ([], arena)
  | arena, data :: pushes =>
    let (offset, arena) := arena.push siphash data
    let (offsets, arena) := specPushAll siphash arena pushes
    (offset :: offsets, arena)

/-- Pushes only append to the data, and each offset holds its data after all of them. -/
theorem specPushAll_holds (siphash : List UInt8 → UInt64) (arena : ConstantArena) (pushes : List (List UInt8)) :
    arena.data <+: (specPushAll siphash arena pushes).2.data ∧
      List.Forall₂ (specPushAll siphash arena pushes).2.Holds (specPushAll siphash arena pushes).1 pushes := by
  induction pushes generalizing arena with
  | nil => exact ⟨List.prefix_rfl, .nil⟩
  | cons data pushes ih =>
    obtain ⟨hbegins, hholds⟩ := ih (arena.push siphash data).2
    exact ⟨ConstantArena.push_prefix.trans hbegins, .cons (ConstantArena.push_holds.mono hbegins) hholds⟩

theorem specPushAll_append (siphash : List UInt8 → UInt64) (arena : ConstantArena) (earlier later : List (List UInt8)) :
    (specPushAll siphash arena (earlier ++ later)).1.take earlier.length = (specPushAll siphash arena earlier).1 := by
  induction earlier generalizing arena with
  | nil => rfl
  | cons data earlier ih => exact congrArg ((arena.push siphash data).1 :: ·) (ih _)

/-- Pushes that do not end the process are the pushes onto the list. -/
theorem Represents.pushAll_refines (hmemory : Represents memory arena) (hleads : arena.Leads siphash pushed)
    (hlength : OneLength siphash pushed) {pushes : List (List UInt8)} (hpushes : ∀ data ∈ pushes, data ∈ pushed) :
    pushAll siphash memory pushes = .error .exits ∨
      ∃ memory', pushAll siphash memory pushes = .ok ((specPushAll siphash arena pushes).1, memory') ∧
        Represents memory' (specPushAll siphash arena pushes).2 := by
  induction pushes generalizing memory arena with
  | nil => exact Or.inr ⟨memory, rfl, hmemory⟩
  | cons data pushes ih =>
    obtain ⟨hdata, hpushes⟩ := List.forall_mem_cons.mp hpushes
    rcases hmemory.push_refines hleads hlength hdata with hpush | ⟨m, hpush, hm⟩
    · left
      simp only [pushAll, hpush, bind, Except.bind]
    · rcases ih hm (hleads.push hdata) hpushes with hrest | ⟨m', hrest, hm'⟩
      · left
        simp only [pushAll, hpush, hrest, bind, Except.bind]
      · refine Or.inr ⟨m', ?_, hm'⟩
        simp only [pushAll, hpush, hrest, bind, Except.bind]
        rfl

/-- Pushes that end the process end it however they go on. -/
theorem pushAll_append {earlier later : List (List UInt8)} {answer : List ℕ × ArenaMemory}
    (h : pushAll siphash memory (earlier ++ later) = .ok answer) :
    ∃ answer', pushAll siphash memory earlier = .ok answer' := by
  induction earlier generalizing memory answer with
  | nil => exact ⟨_, rfl⟩
  | cons data earlier ih =>
    rw [List.cons_append, pushAll] at h
    cases hpush : arenaPush siphash memory data with
    | error fault =>
      rw [hpush] at h
      cases h
    | ok pair =>
      rw [hpush] at h
      cases hrest : pushAll siphash pair.2 (earlier ++ later) with
      | error fault =>
        simp only [bind, Except.bind, hrest] at h
        cases h
      | ok answer' =>
        obtain ⟨answer'', hearlier⟩ := ih hrest
        refine ⟨(pair.1 :: answer''.1, answer''.2), ?_⟩
        simp only [pushAll, hpush, hearlier, bind, Except.bind]
        rfl

/-! ## The result -/

/-- Pushes onto a new arena never compare or copy what is not there. Where all of them answer, so do those before any
one of them, with the same offsets, and the block then holds the data of every push so far at the offset of it. -/
theorem arenaPush_stable (siphash : List UInt8 → UInt64) (count : UInt64) (pushes : List (List UInt8))
    (hlength : OneLength siphash pushes) :
    pushAll siphash (arenaInit count) pushes ≠ .error .undefined ∧
      ∀ offsets memory, pushAll siphash (arenaInit count) pushes = .ok (offsets, memory) →
        ∀ earlier later, pushes = earlier ++ later →
          ∃ before, pushAll siphash (arenaInit count) earlier = .ok (offsets.take earlier.length, before) ∧
            List.Forall₂ before.Holds (offsets.take earlier.length) earlier := by
  have hleads : ConstantArena.Leads siphash pushes ⟨[], []⟩ := fun _ _ h => nomatch h
  constructor
  · rcases (Represents.init count).pushAll_refines hleads hlength fun _ h => h with h | ⟨m, h, -⟩
    · rw [h]
      simp
    · rw [h]
      simp
  · rintro offsets memory h earlier later rfl
    rcases (Represents.init count).pushAll_refines hleads hlength fun _ h => h with hall | ⟨m, hall, -⟩
    · rw [hall] at h
      cases h
    · rw [hall] at h
      obtain ⟨rfl, rfl⟩ := Prod.mk.inj (Except.ok.inj h)
      obtain ⟨answer, hanswer⟩ := pushAll_append hall
      rcases (Represents.init count).pushAll_refines hleads hlength fun _ h => List.mem_append_left later h with
        hearlier | ⟨before, hearlier, hbefore⟩
      · rw [hearlier] at hanswer
        cases hanswer
      · rw [specPushAll_append]
        exact ⟨before, hearlier, (specPushAll_holds siphash ⟨[], []⟩ earlier).2.imp fun _ _ => hbefore.holds⟩

/-- With a shared constant and one that goes on from it. -/
theorem arenaPush_stable_shared :
    ∃ before, pushAll (fun data => data.sum.toUInt64) (arenaInit 0) [[1], [1, 2]] = .ok ([0, 1], before) ∧
      List.Forall₂ before.Holds [0, 1] [[1], [1, 2]] :=
  (arenaPush_stable (fun data => data.sum.toUInt64) 0 [[1], [1, 2], [1]] (by
    unfold OneLength
    decide)).2 [0, 1, 0] _ rfl [[1], [1, 2]] [[1]] rfl

/-- Under a hash that two lengths have, more is compared than was pushed. -/
example : pushAll (fun _ => 0) (arenaInit 0) [[1], [1, 2]] = .error .undefined := rfl

end ArenaMemory
end Chloride
