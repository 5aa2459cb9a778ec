import Chloride.Containers.Substring
import Chloride.Logic.Loops
import Chloride.Numerics.Signed64
import Chloride.Objects.Number

/-!
# Searching in strings

`__contains__`, `index_of` and `last_index_of` of `src/runtime/objects/string/string.c`, which search with
the tables of Horspool, the last one from the right to the left. Every byte is read from where it is, so
that a read outside a string is `none`, as is a search that does not end in as many rounds as it can take.
`substring_search` says that they give what the naive searches give.
-/

namespace Chloride

namespace StringSearch

/-- The bytes of a string object, whose number fits a signed size. -/
abbrev Bytes := {bytes : List UInt8 // bytes.length < 2^63}

/-- `argon_to_i64` on a number. -/
def argonToI64 : Number → Except ArErr Int64
  | .i64 n => .ok n
  | .mpq _ => .error ⟨"RuntimeError", "number has to be i64"⟩

/-- A read of `data[i]`. -/
def read (data : List UInt8) (i : UInt64) : Option UInt8 := data[i.toNat]?

/-- `length` -/
def length (data : List UInt8) : UInt64 := UInt64.ofNat data.length

/-- `skip` of a search from the left to the right. -/
def skip (needle : List UInt8) : Option (UInt8 → UInt64) :=
  (List.range (needle.length - 1)).foldlM
    (fun skip i => do
      let c ← needle[i]?
      return Function.update skip c (length needle - 1 - UInt64.ofNat i))
    fun _ => length needle

/-- `skip` of the search from the right to the left, filled from the last index to 1. -/
def skipMirrored (needle : List UInt8) : Option (UInt8 → UInt64) :=
  (List.range (needle.length - 1)).foldlM
    (fun skip k => do
      let i := needle.length - 1 - k
      let c ← needle[i]?
      return Function.update skip c (UInt64.ofNat i))
    fun _ => length needle

/-- The comparison from the last byte to the first. `__contains__` tests the index of the needle in each
round, and `index_of` does not. -/
def matchBackwards (guard : ℕ → Bool) (self needle : List UInt8) (k : UInt64) :
    ℕ → Option (Option UInt64)
  | 0 =>
    if !guard 0 then some none
    else do
      if (← read self k) == (← needle[0]?) then return some k else return none
  | j + 1 =>
    if !guard (j + 1) then some none
    else do
      if (← read self k) == (← needle[j + 1]?) then matchBackwards guard self needle (k - 1) j
      else return none

/-- The search from the left to the right: the index where the needle is found. -/
def search (guard : ℕ → Bool) (self needle : List UInt8) (skip : UInt8 → UInt64) :
    ℕ → UInt64 → Option (Option UInt64)
  | 0, _ => none
  | rounds + 1, i =>
    if i < length self then do
      match ← matchBackwards guard self needle i (needle.length - 1) with
      | some k => return some k
      | none => search guard self needle skip rounds (i + skip (← read self i))
    else return none

/-- The comparison from the first byte to the last, with the number of bytes behind the one at `j`. -/
def matchForwards (self needle : List UInt8) (k j : UInt64) : ℕ → Option Bool
  | 0 => do return (← read needle j) == (← read self k)
  | rest + 1 => do
    if (← read needle j) == (← read self k) then matchForwards self needle (k + 1) (j + 1) rest
    else return false

/-- The search from the right to the left. -/
def searchMirrored (self needle : List UInt8) (skip : UInt8 → UInt64) : ℕ → Int64 → Option (Option Int64)
  | 0, _ => none
  | rounds + 1, i =>
    if i ≥ 0 then do
      if ← matchForwards self needle i.toUInt64 0 (needle.length - 1) then return some i
      else
        let i' ← Signed64.sub i (skip (← read self i.toUInt64)).toInt64
        searchMirrored self needle skip rounds i'
    else return none

/-- `ARGON_STRING_TYPE___contains__` on two strings. -/
def contains (self slice : List UInt8) : Option Bool :=
  if length self < length slice then some false
  else if length slice = 0 then some true
  else do
    let skip ← skip slice
    let found ← search (fun j => j < slice.length) self slice skip (self.length + 1) (length slice - 1)
    return found.isSome

/-- A start argument that is negative is counted from the end. -/
def countFromEnd (self : List UInt8) (start : Int64) : Option Int64 :=
  if start < 0 then Signed64.add start (length self).toInt64 else some start

/-- `ARGON_STRING_TYPE_index_of` behind the start argument. -/
def indexFrom (self needle : List UInt8) (start : Int64) : Option Int64 :=
  if length needle = 0 then some start
  else if length needle > length self - start.toUInt64 then some (-1)
  else do
    let skip ← skip needle
    match ← search (fun _ => true) self needle skip (self.length + 1)
      (start.toUInt64 + length needle - 1) with
    | some k => return k.toInt64
    | none => return -1

/-- `ARGON_STRING_TYPE_index_of` on two strings. -/
def indexOf (self needle : List UInt8) : Option Number → Option (Except ArErr Int64)
  | none => do return .ok (← indexFrom self needle 0)
  | some n =>
    match argonToI64 n with
    | .error e => some (.error e)
    | .ok start => do
      let start ← countFromEnd self start
      let start := if start < 0 then 0 else start
      if start ≥ (length self).toInt64 then return .ok (-1)
      else return .ok (← indexFrom self needle start)

/-- `ARGON_STRING_TYPE_last_index_of` behind the start argument. -/
def lastIndexFrom (self needle : List UInt8) (start : Int64) : Option Int64 :=
  if length needle = 0 then do
    let at' ← Signed64.add start 1
    let at' := if at' > (length self).toInt64 then (length self).toInt64 else at'
    return if at' < 0 then 0 else at'
  else if length needle > length self then some (-1)
  else do
    let maxStart ← Signed64.sub (length self).toInt64 (length needle).toInt64
    if maxStart < 0 then return -1
    else
      let maxStart := if start < maxStart then start else maxStart
      if maxStart < 0 then return -1
      else
        let skip ← skipMirrored needle
        match ← searchMirrored self needle skip (self.length + 2) maxStart with
        | some i => return i
        | none => return -1

/-- `ARGON_STRING_TYPE_last_index_of` on two strings. -/
def lastIndexOf (self needle : List UInt8) : Option Number → Option (Except ArErr Int64)
  | none => do
    let start ← Signed64.sub (length self).toInt64 1
    return .ok (← lastIndexFrom self needle start)
  | some n =>
    match argonToI64 n with
    | .error e => some (.error e)
    | .ok start => do
      let start ← countFromEnd self start
      if start < 0 then return .ok (-1)
      else
        let last ← Signed64.sub (length self).toInt64 1
        let start := if start > last then last else start
        return .ok (← lastIndexFrom self needle start)

/-! ## What they should give -/

/-- The index that a start argument stands for in a string: one that is negative counts from the end. -/
def countedStart (n : ℕ) (start : Int64) : ℤ := if start < 0 then start.toInt + n else start.toInt

/-- The answer of a search. -/
def answer : Option ℕ → Int64
  | some i => Int64.ofNat i
  | none => -1

/-- The start argument as an integer, if there is one and it is an integer. -/
def startArgument : Option Number → Except ArErr (Option Int64)
  | none => .ok none
  | some n => (argonToI64 n).map some

/-- The first occurrence at the start, which is the start of the string by default, or behind it. -/
def naiveIndexOf (self needle : List UInt8) (start : Option Int64) : Int64 :=
  answer (Substring.firstFrom needle self (start.elim 0 (countedStart self.length)))

/-- The last occurrence at the start, which is the end of the string by default, or before it. -/
def naiveLastIndexOf (self needle : List UInt8) (start : Option Int64) : Int64 :=
  answer (Substring.lastUpTo needle self (start.elim (self.length - 1 : ℤ) (countedStart self.length)))

/-! ## The tables -/

theorem toNat_ofNat {n : ℕ} (h : n < 2^64) : (UInt64.ofNat n).toNat = n := UInt64.toNat_ofNat_of_lt' h

theorem read_ofNat (data : List UInt8) {n : ℕ} (h : n < 2^64) : read data (UInt64.ofNat n) = data[n]? := by
  unfold read
  rw [toNat_ofNat h]

/-- A table is filled one place after the other: what is at a place before does not get smaller than the
shift to it. -/
theorem skip_spec {needle : List UInt8} (hne : needle ≠ []) (hneedle : needle.length < 2^63) :
    ∃ table, skip needle = some table ∧ Substring.ForwardSkip needle fun c => (table c).toNat := by
  have hpos : 0 < needle.length := List.length_pos_iff.mpr hne
  obtain ⟨table, htable, hfilled⟩ := Loop.foldlM_range
    (f := fun (skip : UInt8 → UInt64) i => do
      let c ← needle[i]?
      return Function.update skip c (length needle - 1 - UInt64.ofNat i))
    (P := fun k table => ∀ c, 0 < (table c).toNat ∧ (table c).toNat ≤ needle.length ∧
      ∀ j < k, needle[j]? = some c → (table c).toNat ≤ needle.length - 1 - j)
    (s := fun _ => length needle) (needle.length - 1)
    (by
      intro c
      unfold length
      rw [toNat_ofNat (by omega)]
      exact ⟨hpos, le_rfl, fun j hj => absurd hj (Nat.not_lt_zero j)⟩)
    (by
      intro k hk table hfilled
      obtain ⟨c, hc⟩ : ∃ c, needle[k]? = some c := ⟨_, List.getElem?_eq_getElem (by omega)⟩
      refine ⟨Function.update table c (length needle - 1 - UInt64.ofNat k), by rw [hc]; rfl, ?_⟩
      have hvalue : (length needle - 1 - UInt64.ofNat k).toNat = needle.length - 1 - k := by
        have heq : length needle - 1 - UInt64.ofNat k = UInt64.ofNat (needle.length - 1 - k) := by
          rw [UInt64.ofNat_sub (by omega), UInt64.ofNat_sub (by omega)]
          rfl
        rw [heq, toNat_ofNat (by omega)]
      intro d
      by_cases hd : d = c
      · rw [hd, Function.update_self, hvalue]
        exact ⟨by omega, by omega, fun j hj _ => by omega⟩
      · rw [Function.update_of_ne hd]
        obtain ⟨hlow, hhigh, hplaces⟩ := hfilled d
        refine ⟨hlow, hhigh, fun j hj hjd => ?_⟩
        rcases (Nat.lt_succ_iff.mp hj).lt_or_eq with hlt | rfl
        · exact hplaces j hlt hjd
        · rw [hc] at hjd
          exact absurd (Option.some.inj hjd).symm hd)
  exact ⟨table, htable, fun c => (hfilled c).1, fun c => (hfilled c).2.1,
    fun j c hj hc => (hfilled c).2.2 j (by omega) hc⟩

theorem skipMirrored_spec {needle : List UInt8} (hne : needle ≠ []) (hneedle : needle.length < 2^63) :
    ∃ table, skipMirrored needle = some table ∧
      Substring.BackwardSkip needle fun c => (table c).toNat := by
  have hpos : 0 < needle.length := List.length_pos_iff.mpr hne
  obtain ⟨table, htable, hfilled⟩ := Loop.foldlM_range
    (f := fun (skip : UInt8 → UInt64) k => do
      let i := needle.length - 1 - k
      let c ← needle[i]?
      return Function.update skip c (UInt64.ofNat i))
    (P := fun k table => ∀ c, 0 < (table c).toNat ∧ (table c).toNat ≤ needle.length ∧
      ∀ j < needle.length, needle.length ≤ j + k → needle[j]? = some c → (table c).toNat ≤ j)
    (s := fun _ => length needle) (needle.length - 1)
    (by
      intro c
      unfold length
      rw [toNat_ofNat (by omega)]
      exact ⟨hpos, le_rfl, fun j hj hle => by omega⟩)
    (by
      intro k hk table hfilled
      obtain ⟨c, hc⟩ : ∃ c, needle[needle.length - 1 - k]? = some c :=
        ⟨_, List.getElem?_eq_getElem (by omega)⟩
      refine ⟨Function.update table c (UInt64.ofNat (needle.length - 1 - k)),
        by dsimp only; rw [hc]; rfl, ?_⟩
      have hvalue : (UInt64.ofNat (needle.length - 1 - k)).toNat = needle.length - 1 - k :=
        toNat_ofNat (by omega)
      intro d
      by_cases hd : d = c
      · rw [hd, Function.update_self, hvalue]
        exact ⟨by omega, by omega, fun j _ hle _ => by omega⟩
      · rw [Function.update_of_ne hd]
        obtain ⟨hlow, hhigh, hplaces⟩ := hfilled d
        refine ⟨hlow, hhigh, fun j hj hle hjd => ?_⟩
        by_cases hjk : j = needle.length - 1 - k
        · rw [hjk, hc] at hjd
          exact absurd (Option.some.inj hjd).symm hd
        · exact hplaces j hj (by omega) hjd)
  exact ⟨table, htable, fun c => (hfilled c).1, fun c => (hfilled c).2.1,
    fun j c hpos hj hc => (hfilled c).2.2 j hj (by omega) hc⟩

/-! ## The searches -/

/-- The comparison from the last byte compares all of them. -/
theorem matchBackwards_eq {guard : ℕ → Bool} {self needle : List UInt8}
    (hguard : ∀ j < needle.length, guard j = true) (hself : self.length < 2^63) (a : ℕ) {j : ℕ}
    (hj : j < needle.length) (ha : a + j < self.length) :
    matchBackwards guard self needle (UInt64.ofNat (a + j)) j =
      some (if ∀ i ≤ j, self[a + i]? = needle[i]? then some (UInt64.ofNat a) else none) := by
  induction j with
  | zero =>
    obtain ⟨x, hx⟩ : ∃ x, self[a + 0]? = some x := ⟨_, List.getElem?_eq_getElem ha⟩
    obtain ⟨y, hy⟩ : ∃ y, needle[0]? = some y := ⟨_, List.getElem?_eq_getElem hj⟩
    have hall : (∀ i ≤ 0, self[a + i]? = needle[i]?) ↔ x = y := by
      rw [← Option.some_inj, ← hx, ← hy]
      exact ⟨fun h => h 0 le_rfl, fun h i hi => by rw [Nat.le_zero.mp hi]; exact h⟩
    rw [matchBackwards, hguard 0 hj, read_ofNat self (by omega), hx, hy]
    by_cases hxy : x = y
    · rw [if_pos (hall.mpr hxy), hxy]
      simp
    · rw [if_neg (mt hall.mp hxy)]
      simp [hxy]
  | succ j ih =>
    obtain ⟨x, hx⟩ : ∃ x, self[a + (j + 1)]? = some x := ⟨_, List.getElem?_eq_getElem ha⟩
    obtain ⟨y, hy⟩ : ∃ y, needle[j + 1]? = some y := ⟨_, List.getElem?_eq_getElem hj⟩
    have hall : (∀ i ≤ j + 1, self[a + i]? = needle[i]?) ↔
        x = y ∧ ∀ i ≤ j, self[a + i]? = needle[i]? := by
      rw [← Option.some_inj, ← hx, ← hy]
      constructor
      · exact fun h => ⟨h (j + 1) le_rfl, fun i hi => h i (by omega)⟩
      · rintro ⟨hlast, hrest⟩ i hi
        rcases hi.lt_or_eq with hlt | rfl
        · exact hrest i (by omega)
        · exact hlast
    have hprevious : UInt64.ofNat (a + (j + 1)) - 1 = UInt64.ofNat (a + j) := by
      rw [show a + (j + 1) = a + j + 1 by omega, UInt64.ofNat_add]
      exact UInt64.add_sub_cancel _ _
    rw [matchBackwards, hguard (j + 1) hj, read_ofNat self (by omega), hx, hy, hprevious,
      ih (by omega) (by omega)]
    by_cases hxy : x = y
    · simp only [hall, hxy, true_and]
      simp
    · rw [if_neg fun h => hxy (hall.mp h).1]
      simp [hxy]

/-- An occurrence at an index, as the comparisons see it. -/
theorem occursAt_iff {self needle : List UInt8} (hne : needle ≠ []) {a : ℕ}
    (ha : a + (needle.length - 1) < self.length) :
    Substring.OccursAt needle self a ↔ ∀ i ≤ needle.length - 1, self[a + i]? = needle[i]? := by
  have hpos : 0 < needle.length := List.length_pos_iff.mpr hne
  constructor
  · exact fun h i hi => h.2 i (by omega)
  · exact fun h => ⟨by omega, fun i hi => h i (by omega)⟩

/-- The search with safe shifts finds the first occurrence, in as many rounds as there are indices. -/
theorem search_eq {guard : ℕ → Bool} {self needle : List UInt8} {skip : UInt8 → UInt64}
    (hguard : ∀ j < needle.length, guard j = true) (hne : needle ≠ []) (hneedle : needle.length < 2^63)
    (hself : self.length < 2^63) (hskip : Substring.ForwardSkip needle fun c => (skip c).toNat)
    (rounds : ℕ) (a : ℕ) (hrounds : self.length ≤ a + rounds)
    (ha : a + (needle.length - 1) < 2^64) :
    search guard self needle skip (rounds + 1) (UInt64.ofNat (a + (needle.length - 1))) =
      some ((Substring.firstFrom needle self a).map UInt64.ofNat) := by
  have hpos : 0 < needle.length := List.length_pos_iff.mpr hne
  have hnone (a : ℕ) (h : self.length ≤ a + (needle.length - 1)) :
      Substring.firstFrom needle self a = none := by
    rw [Substring.firstFrom_eq_none_iff]
    intro j hj hoccurs
    have hle := hoccurs.1
    omega
  have hlt (a : ℕ) (h : a + (needle.length - 1) < 2^64) :
      UInt64.ofNat (a + (needle.length - 1)) < length self ↔
        a + (needle.length - 1) < self.length := by
    unfold length
    rw [UInt64.lt_iff_toNat_lt, toNat_ofNat h, toNat_ofNat (by omega)]
  induction rounds generalizing a with
  | zero =>
    rw [search, if_neg (by rw [hlt a ha]; omega), hnone a (by omega)]
    rfl
  | succ rounds ih =>
    rw [search]
    by_cases hin : a + (needle.length - 1) < self.length
    · rw [if_pos ((hlt a ha).mpr hin), matchBackwards_eq hguard hself a (by omega) hin,
        Option.bind_eq_bind, Option.bind_some]
      by_cases hoccurs : Substring.OccursAt needle self a
      · -- The needle is here.
        have hfirst : Substring.firstFrom needle self a = some a :=
          Substring.firstFrom_eq_some_iff.mpr ⟨⟨le_rfl, hoccurs⟩, fun j hj h => by omega⟩
        rw [if_pos ((occursAt_iff hne hin).mp hoccurs), hfirst]
        rfl
      · -- The next index is the first one that a shift does not leave out.
        obtain ⟨c, hc⟩ : ∃ c, self[a + (needle.length - 1)]? = some c :=
          ⟨_, List.getElem?_eq_getElem hin⟩
        have hshift := hskip.pos c
        have hshiftle := hskip.le c
        have hnext : UInt64.ofNat (a + (needle.length - 1)) + skip c =
            UInt64.ofNat (a + (skip c).toNat + (needle.length - 1)) := by
          rw [show a + (skip c).toNat + (needle.length - 1) = a + (needle.length - 1) + (skip c).toNat by
            omega, UInt64.ofNat_add _ (skip c).toNat, UInt64.ofNat_toNat]
        have hsame : Substring.firstFrom needle self a =
            Substring.firstFrom needle self ((a + (skip c).toNat : ℕ) : ℤ) := by
          apply Substring.firstFrom_skip (by omega)
          intro j hj hjlt
          rcases (show a ≤ j by omega).lt_or_eq with hgreater | rfl
          · exact hskip.not_occursAt hc hgreater (by omega)
          · exact hoccurs
        rw [if_neg (mt (occursAt_iff hne hin).mpr hoccurs)]
        dsimp only
        rw [read_ofNat self ha, hc, Option.bind_eq_bind, Option.bind_some, hnext, hsame]
        exact ih _ (by omega) (by omega)
    · rw [if_neg (mt (hlt a ha).mp hin), hnone a (by omega)]
      rfl

/-- The comparison from the first byte compares all of them. -/
theorem matchForwards_eq {self needle : List UInt8} (hself : self.length < 2^63)
    (hneedle : needle.length < 2^63) (a : ℕ) (j rest : ℕ) (hj : j + rest < needle.length)
    (ha : a + j + rest < self.length) :
    matchForwards self needle (UInt64.ofNat (a + j)) (UInt64.ofNat j) rest =
      some (decide (∀ i, j ≤ i → i ≤ j + rest → self[a + i]? = needle[i]?)) := by
  induction rest generalizing j with
  | zero =>
    obtain ⟨x, hx⟩ : ∃ x, self[a + j]? = some x := ⟨_, List.getElem?_eq_getElem ha⟩
    obtain ⟨y, hy⟩ : ∃ y, needle[j]? = some y := ⟨_, List.getElem?_eq_getElem hj⟩
    have hall : (∀ i, j ≤ i → i ≤ j + 0 → self[a + i]? = needle[i]?) ↔ y = x := by
      rw [← Option.some_inj, ← hx, ← hy, eq_comm]
      exact ⟨fun h => h j le_rfl le_rfl, fun h i hi hle => by
        rw [show i = j by omega]
        exact h⟩
    rw [matchForwards, read_ofNat needle (by omega), read_ofNat self (by omega), hx, hy]
    simp only [hall]
    rfl
  | succ rest ih =>
    obtain ⟨x, hx⟩ : ∃ x, self[a + j]? = some x := ⟨_, List.getElem?_eq_getElem (by omega)⟩
    obtain ⟨y, hy⟩ : ∃ y, needle[j]? = some y := ⟨_, List.getElem?_eq_getElem (by omega)⟩
    have hall : (∀ i, j ≤ i → i ≤ j + (rest + 1) → self[a + i]? = needle[i]?) ↔
        y = x ∧ ∀ i, j + 1 ≤ i → i ≤ j + 1 + rest → self[a + i]? = needle[i]? := by
      rw [← Option.some_inj, ← hx, ← hy]
      constructor
      · exact fun h => ⟨(h j le_rfl (by omega)).symm, fun i hi hle => h i (by omega) (by omega)⟩
      · rintro ⟨hfirst, hrest⟩ i hi hle
        rcases hi.lt_or_eq with hlt | rfl
        · exact hrest i hlt (by omega)
        · exact hfirst.symm
    have hk : UInt64.ofNat (a + j) + 1 = UInt64.ofNat (a + (j + 1)) := by
      rw [← add_assoc, UInt64.ofNat_add (a + j) 1]
      rfl
    have hj' : UInt64.ofNat j + 1 = UInt64.ofNat (j + 1) := (UInt64.ofNat_add j 1).symm
    rw [matchForwards, read_ofNat needle (by omega), read_ofNat self (by omega), hx, hy, hk, hj',
      ih (j + 1) (by omega) (by omega)]
    simp only [hall]
    by_cases hxy : y = x
    · simp [hxy]
    · simp [hxy]

theorem toUInt64_eq_ofNat {i : Int64} {a : ℕ} (h : i.toInt = a) : i.toUInt64 = UInt64.ofNat a := by
  have hnat := Signed64.toNat_toUInt64 i
  rw [if_neg (by rw [Int64.lt_iff_toInt_lt, Int64.toInt_zero, h]; omega), h] at hnat
  rw [← UInt64.ofNat_toNat (x := i.toUInt64), Int.natCast_inj.mp hnat]

theorem int64_ofNat_eq {i : Int64} {a : ℕ} (h : i.toInt = a) : Int64.ofNat a = i := by
  have hbounds := Signed64.fits_toInt i
  unfold Signed64.Fits at hbounds
  rw [← Int64.toInt_inj, Int64.toInt_ofNat_of_lt (by omega), h]

/-- The search from the right with safe shifts finds the last occurrence. -/
theorem searchMirrored_eq {self needle : List UInt8} {skip : UInt8 → UInt64} (hne : needle ≠ [])
    (hneedle : needle.length < 2^63) (hself : self.length < 2^63)
    (hskip : Substring.BackwardSkip needle fun c => (skip c).toNat) (rounds : ℕ) (i : Int64)
    (hrounds : i.toInt < rounds) (hi : i.toInt + needle.length ≤ self.length) :
    searchMirrored self needle skip (rounds + 1) i =
      some ((Substring.lastUpTo needle self i.toInt).map Int64.ofNat) := by
  have hpos : 0 < needle.length := List.length_pos_iff.mpr hne
  have hge (i : Int64) : i ≥ 0 ↔ 0 ≤ i.toInt := by
    rw [ge_iff_le, Int64.le_iff_toInt_le, Int64.toInt_zero]
  have hnone (i : Int64) (h : i.toInt < 0) : Substring.lastUpTo needle self i.toInt = none :=
    Substring.lastUpTo_eq_none_iff.mpr fun j hj => by omega
  induction rounds generalizing i with
  | zero =>
    rw [searchMirrored, if_neg (by rw [hge]; omega), hnone i (by omega)]
    rfl
  | succ rounds ih =>
    rw [searchMirrored]
    by_cases hin : 0 ≤ i.toInt
    · obtain ⟨a, ha⟩ : ∃ a : ℕ, i.toInt = a := ⟨i.toInt.toNat, (Int.toNat_of_nonneg hin).symm⟩
      rw [ha] at hi
      have hmatch := matchForwards_eq hself hneedle a 0 (needle.length - 1) (by omega) (by omega)
      have hall : (∀ i, 0 ≤ i → i ≤ 0 + (needle.length - 1) → self[a + i]? = needle[i]?) ↔
          Substring.OccursAt needle self a := by
        rw [occursAt_iff hne (by omega), zero_add]
        exact ⟨fun h i => h i (Nat.zero_le i), fun h i _ => h i⟩
      simp only [hall] at hmatch
      rw [if_pos ((hge i).mpr hin), toUInt64_eq_ofNat ha]
      have hzero : (0 : UInt64) = UInt64.ofNat 0 := rfl
      rw [hzero, show UInt64.ofNat a = UInt64.ofNat (a + 0) from rfl, hmatch, Option.bind_eq_bind,
        Option.bind_some]
      by_cases hoccurs : Substring.OccursAt needle self a
      · -- The needle is here.
        have hlast : Substring.lastUpTo needle self i.toInt = some a := by
          rw [ha]
          exact Substring.lastUpTo_eq_some_iff.mpr ⟨⟨le_rfl, hoccurs⟩, fun j hj h => by omega⟩
        rw [if_pos (decide_eq_true hoccurs), hlast, Option.map_some, int64_ofNat_eq ha]
        rfl
      · obtain ⟨c, hc⟩ : ∃ c, self[a]? = some c := ⟨_, List.getElem?_eq_getElem (by omega)⟩
        have hshift := hskip.pos c
        have hshiftle := hskip.le c
        have hint := Signed64.toInt_toInt64 (x := skip c) (by omega)
        obtain ⟨i', hi', hvalue⟩ := Signed64.exact_of_fits (z := i.toInt - (skip c).toInt64.toInt) (by
          unfold Signed64.Fits
          omega)
        have hsame : Substring.lastUpTo needle self i.toInt = Substring.lastUpTo needle self i'.toInt := by
          apply Substring.lastUpTo_skip (by omega)
          intro j hj hjle
          rcases (show j ≤ a by omega).lt_or_eq with hless | rfl
          · exact hskip.not_occursAt hc hless (by omega)
          · exact hoccurs
        have hsub : Signed64.sub i (skip c).toInt64 = some i' := hi'
        rw [if_neg (by simpa using hoccurs), add_zero, read_ofNat self (by omega), hc,
          Option.bind_eq_bind, Option.bind_some, hsub, Option.bind_eq_bind, Option.bind_some, hsame]
        exact ih i' (by omega) (by omega)
    · rw [if_neg (mt (hge i).mp hin), hnone i (by omega)]
      rfl

/-! ## The methods -/

section

variable {self needle : List UInt8} (hself : self.length < 2^63) (hneedle : needle.length < 2^63)
  (hne : needle ≠ [])

theorem length_toNat {data : List UInt8} (h : data.length < 2^63) : (length data).toNat = data.length :=
  toNat_ofNat (by omega)

theorem length_toInt {data : List UInt8} (h : data.length < 2^63) :
    (length data).toInt64.toInt = data.length := by
  rw [Signed64.toInt_toInt64 (by rw [length_toNat h]; exact h), length_toNat h]

include hneedle hne in
theorem length_ne_zero : length needle ≠ 0 := by
  have hpos : 0 < needle.length := List.length_pos_iff.mpr hne
  intro h
  have hnat := congrArg UInt64.toNat h
  rw [length_toNat hneedle] at hnat
  exact absurd hnat hpos.ne'

include hself hneedle hne in
theorem contains_eq :
    contains self needle = some (Substring.firstFrom needle self 0).isSome := by
  have hpos : 0 < needle.length := List.length_pos_iff.mpr hne
  unfold contains
  by_cases hlong : self.length < needle.length
  · have hnone : Substring.firstFrom needle self 0 = none := by
      rw [Substring.firstFrom_eq_none_iff]
      intro j _ hoccurs
      have hle := hoccurs.1
      omega
    rw [if_pos (by rwa [UInt64.lt_iff_toNat_lt, length_toNat hself, length_toNat hneedle]), hnone]
    rfl
  · obtain ⟨table, htable, hskip⟩ := skip_spec hne hneedle
    have hstart : length needle - 1 = UInt64.ofNat (0 + (needle.length - 1)) := by
      rw [zero_add, UInt64.ofNat_sub hpos]
      rfl
    have hsearch := @search_eq (fun j => j < needle.length) _ _ _ (fun j hj => decide_eq_true hj)
      hne hneedle hself hskip self.length 0 (by omega) (by omega)
    rw [if_neg (by rwa [UInt64.lt_iff_toNat_lt, length_toNat hself, length_toNat hneedle]),
      if_neg (length_ne_zero hneedle hne), htable, Option.bind_eq_bind, Option.bind_some, hstart, hsearch]
    show some (Option.map _ _).isSome = _
    rw [Option.isSome_map]
    rfl

include hself hneedle hne in
theorem indexFrom_eq {start : Int64} {a : ℕ} (hstart : start.toInt = a) (ha : a ≤ self.length) :
    indexFrom self needle start = some (answer (Substring.firstFrom needle self a)) := by
  have hpos : 0 < needle.length := List.length_pos_iff.mpr hne
  have hremaining : (length self - start.toUInt64).toNat = self.length - a := by
    rw [toUInt64_eq_ofNat hstart]
    unfold length
    rw [← UInt64.ofNat_sub ha, toNat_ofNat (by omega)]
  unfold indexFrom
  rw [if_neg (length_ne_zero hneedle hne)]
  by_cases hlong : self.length - a < needle.length
  · have hnone : Substring.firstFrom needle self a = none := by
      rw [Substring.firstFrom_eq_none_iff]
      intro j hj hoccurs
      have hle := hoccurs.1
      omega
    rw [if_pos (by rwa [gt_iff_lt, UInt64.lt_iff_toNat_lt, hremaining, length_toNat hneedle]), hnone]
    rfl
  · obtain ⟨table, htable, hskip⟩ := skip_spec hne hneedle
    have hfirst : start.toUInt64 + length needle - 1 = UInt64.ofNat (a + (needle.length - 1)) := by
      rw [toUInt64_eq_ofNat hstart, ← Nat.add_sub_assoc hpos, UInt64.ofNat_sub (by omega),
        UInt64.ofNat_add]
      rfl
    have hsearch := @search_eq (fun _ => true) _ _ _ (fun _ _ => rfl)
      hne hneedle hself hskip self.length a (by omega) (by omega)
    rw [if_neg (by rwa [gt_iff_lt, UInt64.lt_iff_toNat_lt, hremaining, length_toNat hneedle]), htable,
      Option.bind_eq_bind, Option.bind_some, hfirst, hsearch]
    cases Substring.firstFrom needle self a with
    | none => rfl
    | some i =>
      show some (UInt64.ofNat i).toInt64 = _
      rw [UInt64.toInt64_ofNat']
      rfl

include hself in
/-- To count from the end does not overflow. -/
theorem exists_countFromEnd (start : Int64) : ∃ counted, countFromEnd self start = some counted ∧
    counted.toInt = countedStart self.length start := by
  have hbounds := Signed64.fits_toInt start
  unfold countFromEnd countedStart
  by_cases hneg : start < 0
  · rw [if_pos hneg, if_pos hneg]
    rw [Int64.lt_iff_toInt_lt, Int64.toInt_zero] at hneg
    have hint := length_toInt hself
    obtain ⟨c, hc, hvalue⟩ := Signed64.exact_of_fits
      (z := start.toInt + (length self).toInt64.toInt) (by unfold Signed64.Fits at *; omega)
    exact ⟨c, hc, by rw [hvalue, hint]⟩
  · rw [if_neg hneg, if_neg hneg]
    exact ⟨start, rfl, rfl⟩

include hself hneedle hne in
theorem indexOf_eq (start : Option Number) :
    indexOf self needle start = some ((startArgument start).map (naiveIndexOf self needle)) := by
  have hpos : 0 < needle.length := List.length_pos_iff.mpr hne
  have hlength := length_toInt hself
  cases start with
  | none =>
    have hindex := @indexFrom_eq self needle hself hneedle hne 0 0 rfl (Nat.zero_le _)
    unfold indexOf
    rw [hindex]
    rfl
  | some n =>
    cases n with
    | mpq q => rfl
    | i64 start =>
      obtain ⟨counted, hcounted, hvalue⟩ := exists_countFromEnd hself start
      have hnaive : (startArgument (some (.i64 start))).map (naiveIndexOf self needle) =
          .ok (answer (Substring.firstFrom needle self counted.toInt)) := by
        rw [hvalue]
        rfl
      have hneg : counted < 0 ↔ counted.toInt < 0 := by
        rw [Int64.lt_iff_toInt_lt, Int64.toInt_zero]
      rw [indexOf, argonToI64]
      dsimp only
      rw [hcounted, hnaive, Option.bind_eq_bind, Option.bind_some]
      by_cases hbefore : counted.toInt < 0
      · -- A start before the beginning is the beginning.
        have hsame : Substring.firstFrom needle self counted.toInt =
            Substring.firstFrom needle self (0 : ℕ) :=
          Substring.firstFrom_skip (by omega) fun j hj hlt => by omega
        rw [if_pos (hneg.mpr hbefore), hsame]
        by_cases hempty : self.length = 0
        · have hnone : Substring.firstFrom needle self (0 : ℕ) = none := by
            rw [Substring.firstFrom_eq_none_iff]
            intro j _ hoccurs
            have hle := hoccurs.1
            omega
          rw [if_pos (by rw [ge_iff_le, Int64.le_iff_toInt_le, hlength, Int64.toInt_zero]; omega), hnone]
          rfl
        · rw [if_neg (by rw [ge_iff_le, Int64.le_iff_toInt_le, hlength, Int64.toInt_zero]; omega),
            indexFrom_eq hself hneedle hne (a := 0) rfl (Nat.zero_le _)]
          rfl
      · rw [if_neg (mt hneg.mp hbefore)]
        obtain ⟨a, ha⟩ : ∃ a : ℕ, counted.toInt = a :=
          ⟨counted.toInt.toNat, (Int.toNat_of_nonneg (not_lt.mp hbefore)).symm⟩
        rw [ha]
        by_cases hbehind : self.length ≤ a
        · have hnone : Substring.firstFrom needle self (a : ℤ) = none := by
            rw [Substring.firstFrom_eq_none_iff]
            intro j hj hoccurs
            have hle := hoccurs.1
            omega
          rw [if_pos (by rw [ge_iff_le, Int64.le_iff_toInt_le, hlength, ha]; omega), hnone]
          rfl
        · rw [if_neg (by rw [ge_iff_le, Int64.le_iff_toInt_le, hlength, ha]; omega),
            indexFrom_eq hself hneedle hne ha (by omega)]
          rfl

include hself hneedle hne in
theorem lastIndexFrom_eq {start : Int64} :
    lastIndexFrom self needle start = some (answer (Substring.lastUpTo needle self start.toInt)) := by
  have hpos : 0 < needle.length := List.length_pos_iff.mpr hne
  have hself' := length_toInt hself
  have hneedle' := length_toInt hneedle
  unfold lastIndexFrom
  rw [if_neg (length_ne_zero hneedle hne)]
  by_cases hlong : self.length < needle.length
  · have hnone : Substring.lastUpTo needle self start.toInt = none := by
      rw [Substring.lastUpTo_eq_none_iff]
      intro j _ hoccurs
      have hle := hoccurs.1
      omega
    rw [if_pos (by rwa [gt_iff_lt, UInt64.lt_iff_toNat_lt, length_toNat hself, length_toNat hneedle]),
      hnone]
    rfl
  · obtain ⟨maxStart, hmaxStart, hmaxValue⟩ := Signed64.exact_of_fits
      (z := (length self).toInt64.toInt - (length needle).toInt64.toInt) (by
        unfold Signed64.Fits
        omega)
    have hsub : Signed64.sub (length self).toInt64 (length needle).toInt64 = some maxStart := hmaxStart
    rw [if_neg (by rwa [gt_iff_lt, UInt64.lt_iff_toNat_lt, length_toNat hself, length_toNat hneedle]),
      hsub, Option.bind_eq_bind, Option.bind_some,
      if_neg (by rw [Int64.lt_iff_toInt_lt, Int64.toInt_zero]; omega)]
    dsimp only
    -- No occurrence starts behind the greatest start there can be.
    obtain ⟨first, hfirst, hle, hsame⟩ : ∃ first : Int64,
        (if start < maxStart then start else maxStart) = first ∧
        first.toInt + needle.length ≤ self.length ∧
        Substring.lastUpTo needle self start.toInt = Substring.lastUpTo needle self first.toInt := by
      by_cases hlt : start < maxStart
      · refine ⟨start, if_pos hlt, ?_, rfl⟩
        rw [Int64.lt_iff_toInt_lt] at hlt
        omega
      · refine ⟨maxStart, if_neg hlt, by omega, ?_⟩
        rw [Int64.lt_iff_toInt_lt] at hlt
        apply Substring.lastUpTo_skip (by omega)
        intro j hj _ hoccurs
        have hfits := hoccurs.1
        omega
    rw [hfirst, hsame]
    by_cases hneg : first.toInt < 0
    · have hnone : Substring.lastUpTo needle self first.toInt = none :=
        Substring.lastUpTo_eq_none_iff.mpr fun j hj => by omega
      rw [if_pos (by rwa [Int64.lt_iff_toInt_lt, Int64.toInt_zero]), hnone]
      rfl
    · obtain ⟨table, htable, hskip⟩ := skipMirrored_spec hne hneedle
      rw [if_neg (by rwa [Int64.lt_iff_toInt_lt, Int64.toInt_zero]), htable, Option.bind_eq_bind,
        Option.bind_some, searchMirrored_eq hne hneedle hself hskip (self.length + 1) first (by omega) hle,
        Option.bind_eq_bind, Option.bind_some]
      cases Substring.lastUpTo needle self first.toInt <;> rfl

include hself hneedle hne in
theorem lastIndexOf_eq (start : Option Number) :
    lastIndexOf self needle start =
      some ((startArgument start).map (naiveLastIndexOf self needle)) := by
  have hpos : 0 < needle.length := List.length_pos_iff.mpr hne
  have hlength := length_toInt hself
  have hone : (1 : Int64).toInt = 1 := by decide
  obtain ⟨last, hlast, hlastValue⟩ := Signed64.exact_of_fits
    (z := (length self).toInt64.toInt - (1 : Int64).toInt) (by unfold Signed64.Fits; omega)
  have hsub : Signed64.sub (length self).toInt64 1 = some last := hlast
  rw [hone, hlength] at hlastValue
  cases start with
  | none =>
    unfold lastIndexOf
    rw [hsub, Option.bind_eq_bind, Option.bind_some, lastIndexFrom_eq hself hneedle hne, hlastValue]
    rfl
  | some n =>
    cases n with
    | mpq q => rfl
    | i64 start =>
      obtain ⟨counted, hcounted, hvalue⟩ := exists_countFromEnd hself start
      have hnaive : (startArgument (some (.i64 start))).map (naiveLastIndexOf self needle) =
          .ok (answer (Substring.lastUpTo needle self counted.toInt)) := by
        rw [hvalue]
        rfl
      rw [lastIndexOf, argonToI64]
      dsimp only
      rw [hcounted, hnaive, Option.bind_eq_bind, Option.bind_some]
      by_cases hbefore : counted.toInt < 0
      · have hnone : Substring.lastUpTo needle self counted.toInt = none :=
          Substring.lastUpTo_eq_none_iff.mpr fun j hj => by omega
        rw [if_pos (by rwa [Int64.lt_iff_toInt_lt, Int64.toInt_zero]), hnone]
        rfl
      · rw [if_neg (by rwa [Int64.lt_iff_toInt_lt, Int64.toInt_zero]), hsub, Option.bind_some,
          lastIndexFrom_eq hself hneedle hne, Option.bind_some]
        by_cases hbehind : last.toInt < counted.toInt
        · -- A start behind the last byte is the last byte.
          have hsame : Substring.lastUpTo needle self counted.toInt =
              Substring.lastUpTo needle self last.toInt := by
            apply Substring.lastUpTo_skip (by omega)
            intro j hj _ hoccurs
            have hle := hoccurs.1
            omega
          rw [if_pos (by rwa [gt_iff_lt, Int64.lt_iff_toInt_lt]), hsame]
          rfl
        · rw [if_neg (by rwa [gt_iff_lt, Int64.lt_iff_toInt_lt])]
          rfl

end

end StringSearch

/-- The three searches read no byte outside the strings, end, and give what the naive searches give, for
every start argument; a number that is not a 64-bit integer is refused. -/
theorem substring_search (self : StringSearch.Bytes)
    (needle : {needle : StringSearch.Bytes // needle.1 ≠ []}) (start : Option Number) :
    StringSearch.contains self.1 needle.1.1 =
      some (Substring.firstFrom needle.1.1 self.1 0).isSome ∧
    StringSearch.indexOf self.1 needle.1.1 start =
      some ((StringSearch.startArgument start).map (StringSearch.naiveIndexOf self.1 needle.1.1)) ∧
    StringSearch.lastIndexOf self.1 needle.1.1 start =
      some ((StringSearch.startArgument start).map (StringSearch.naiveLastIndexOf self.1 needle.1.1)) :=
  ⟨StringSearch.contains_eq self.2 needle.1.2 needle.2,
    StringSearch.indexOf_eq self.2 needle.1.2 needle.2 start,
    StringSearch.lastIndexOf_eq self.2 needle.1.2 needle.2 start⟩

end Chloride
