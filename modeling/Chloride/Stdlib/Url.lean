import Chloride.Containers.Fields
import Chloride.Numerics.Numerals
import Chloride.Objects.StringSearch
import Chloride.Runtime.Computation

/-!
# Decoding URLs

`decode` of `stdlib/url/init.ar`. It splits the string at the percent signs and gives the two characters
behind one to `number`, with `"0x"` in front, and the number to `string.from_byte`. So what is no escape raises
an error, or it is taken for one: `"4."` is a numeral. `decodes_iff` says for which strings `decode` is the
decoding that `decoded` is.
-/

namespace Chloride

namespace Url

open Splitting Fields

/-- A string. -/
abbrev Str := List UInt8

def percent : UInt8 := byte '%'

def plus : UInt8 := byte '+'

def space : UInt8 := byte ' '

/-! ## The function -/

/-- The loop of `decode`: what it appends for each slice. -/
def decodeSlices : List Str → ExceptT ArErr Option (List Str)
  | [] => pure []
  | slice :: slices =>
    if slice.length < 2 then do
      return (percent :: slice) :: (← decodeSlices slices)
    else do
      let hex := slice.take 2
      let number ← ExceptT.mk (numberOfString (byte '0' :: byte 'x' :: hex))
      let n ← ExceptT.mk (some (StringSearch.argonToI64 number))
      let char ← ExceptT.mk (some (fromByte n))
      return char :: slice.drop 2 :: (← decodeSlices slices)

def decode (data : Str) : ExceptT ArErr Option Str := do
  let data := replaced [plus] [space] data
  let split := allPieces [percent] data
  if split.length = 1 then return data
  else
    let decoded ← decodeSlices split.tail
    let decoded := List.intercalate [] (split.headD [] :: decoded)
    if decoded.length = 0 then return data
    else return decoded

/-! ## What decoding is -/

/-- A hexadecimal digit. -/
def isHexDigit (c : UInt8) : Bool := isDigitInBase c 16

/-- The byte of two hexadecimal digits. -/
def escapedByte (a b : UInt8) : UInt8 := (16 * digitValue a + digitValue b).toUInt8

/-- Escapes are replaced by their bytes. -/
def unescape : Str → Str
  | [] => []
  | [c] => [c]
  | [c, a] => [c, a]
  | c :: a :: b :: t =>
    if c = percent ∧ isHexDigit a ∧ isHexDigit b then escapedByte a b :: unescape t
    else c :: unescape (a :: b :: t)

/-- A plus sign is a space. -/
def spaced (s : Str) : Str := s.map fun c => if c = plus then space else c

/-- A string decoded: each plus sign is a space, each escape its byte, and the rest stays. -/
def decoded (s : Str) : Str := unescape (spaced s)

/-- A percent sign with at least two characters behind it before the next one has two hexadecimal digits
behind it. -/
def WellEscaped (s : Str) : Prop :=
  ∀ a b, [percent, a, b] <:+: s → a ≠ percent → b ≠ percent → isHexDigit a ∧ isHexDigit b

/-- A slice that `decode` takes two characters of is one of those. -/
def WellFormed (slice : Str) : Prop :=
  ∀ a b t, slice = a :: b :: t → isHexDigit a ∧ isHexDigit b

/-! ## The numerals -/

set_option maxRecDepth 5000 in
theorem isHexDigit_plain {c : UInt8} (h : isHexDigit c = true) :
    c ≠ 0 ∧ c ≠ byte '.' ∧ c ≠ byte 'p' ∧ c ≠ byte 'P' ∧ c ≠ percent ∧ digitValue c < 16 := by
  revert c
  decide

theorem skipSpaces_zero (t beyond : List UInt8) :
    skipSpaces (byte '0' :: t) beyond = some (byte '0' :: t, beyond) := by
  have hzero : (byte '0' :: t).dropWhile isSpace = byte '0' :: t := List.dropWhile_cons_of_neg (by decide)
  rw [skipSpaces, hzero]

theorem takeSign_zero (t : List UInt8) : takeSign (byte '0' :: t) = (false, byte '0' :: t) := by
  have hminus : (byte '0' :: t).head? ≠ some (byte '-') := by rw [List.head?_cons]; decide
  have hplus : (byte '0' :: t).head? ≠ some (byte '+') := by rw [List.head?_cons]; decide
  rw [takeSign, if_neg hminus, if_neg hplus]

/-- Two hexadecimal digits are read. -/
theorem readBody_digits {a b : UInt8} (ha : isHexDigit a = true) (hb : isHexDigit b = true) :
    readBody .hexadecimal [a, b] = some ((16 * digitValue a + digitValue b : ℕ) : ℚ) := by
  obtain ⟨ha0, hadot, hap, haP, -, -⟩ := isHexDigit_plain ha
  obtain ⟨hb0, hbdot, hbp, hbP, -, -⟩ := isHexDigit_plain hb
  have hbuf : [a, b].takeWhile (· ≠ 0) = [a, b] := by simp [ha0, hb0]
  have hlo : NumeralBase.hexadecimal.expCharLo ∉ [a, b] := by
    simp [NumeralBase.hexadecimal, hap.symm, hbp.symm]
  have hhi : splitAtByte NumeralBase.hexadecimal.expCharHi [a, b] = ([a, b], none) :=
    if_neg (by simp [NumeralBase.hexadecimal, haP.symm, hbP.symm])
  have hpoint : splitAtByte (byte '.') [a, b] = ([a, b], none) :=
    if_neg (by simp [hadot.symm, hbdot.symm])
  have hcount : ([a, b].count (byte '.') : ℕ) = 0 :=
    List.count_eq_zero.mpr (by simp [hadot.symm, hbdot.symm])
  have hdigits : ¬∃ c ∈ [a, b], c ≠ byte '.' ∧ !isDigitInBase c NumeralBase.hexadecimal.radix := by
    rintro ⟨c, hc, -, hno⟩
    rw [List.mem_cons, List.mem_singleton] at hc
    rcases hc with rfl | rfl
    · rw [show isDigitInBase c NumeralBase.hexadecimal.radix = true from ha] at hno
      cases hno
    · rw [show isDigitInBase c NumeralBase.hexadecimal.radix = true from hb] at hno
      cases hno
  rw [readBody, hbuf, if_neg hlo]
  simp only [hhi, hpoint, hcount, hdigits, or_false]
  simp [expValue, exactValue, NumeralBase.hexadecimal, mpzSetStr]

theorem toInt_ofNat {n : ℕ} (h : n < 2^63) : (Int64.ofNat n).toInt = n := Int64.toInt_ofNat_of_lt h

theorem escaped_lt {a b : UInt8} (ha : isHexDigit a = true) (hb : isHexDigit b = true) :
    16 * digitValue a + digitValue b < 256 := by
  have ha' := (isHexDigit_plain ha).2.2.2.2.2
  have hb' := (isHexDigit_plain hb).2.2.2.2.2
  omega

theorem numberOfString_digits {a b : UInt8} (ha : isHexDigit a = true) (hb : isHexDigit b = true) :
    numberOfString [byte '0', byte 'x', a, b] =
      some (.ok (.i64 (Int64.ofNat (16 * digitValue a + digitValue b)))) := by
  have hlt := escaped_lt ha hb
  have hread : mpqSetDecimalStrExp [byte '0', byte 'x', a, b] [0] =
      some (some (Mpq.ofRat ((16 * digitValue a + digitValue b : ℕ) : ℚ))) := by
    rw [mpqSetDecimalStrExp, skipSpaces_zero, Option.bind_eq_bind, Option.bind_some]
    have hbase : detectBase ([byte '0', byte 'x', a, b] ++ [0]) = some .hexadecimal := rfl
    simp only [takeSign_zero, hbase, List.cons_ne_nil, false_and, if_false]
    change some ((readBody .hexadecimal [a, b]).map _) = _
    rw [readBody_digits ha hb]
    rfl
  have hnumber : newNumberObject (Mpq.ofRat ((16 * digitValue a + digitValue b : ℕ) : ℚ)) =
      .i64 (Int64.ofNat (16 * digitValue a + digitValue b)) := by
    apply numberOf_eq_i64.mpr
    rw [toInt_ofNat (by omega)]
    norm_cast
  rw [numberOfString, hread, Option.map_some]
  exact congrArg (fun n => some (Except.ok n)) hnumber

theorem fromByte_ofNat {n : ℕ} (h : n < 256) : fromByte (Int64.ofNat n) = .ok [n.toUInt8] := by
  have hn := toInt_ofNat (n := n) (by omega)
  have hrange : ¬(Int64.ofNat n < 0 ∨ Int64.ofNat n > 255) := by
    have hzero : (0 : Int64).toInt = 0 := rfl
    have hlast : (255 : Int64).toInt = 255 := rfl
    rw [gt_iff_lt, Int64.lt_iff_toInt_lt, Int64.lt_iff_toInt_lt, hn, hzero, hlast]
    omega
  rw [fromByte, if_neg hrange, hn, Int.toNat_natCast]

/-! ## Escapes -/

theorem unescape_of_ne {c : UInt8} (h : c ≠ percent) (t : Str) : unescape (c :: t) = c :: unescape t := by
  rcases t with - | ⟨a, - | ⟨b, t⟩⟩
  · rfl
  · rfl
  · exact if_neg fun hc => h hc.1

theorem unescape_append {x : Str} (h : percent ∉ x) (t : Str) : unescape (x ++ t) = x ++ unescape t := by
  induction x with
  | nil => rfl
  | cons c x ih =>
    have hc : c ≠ percent := fun hc => h (hc ▸ List.mem_cons_self)
    rw [List.cons_append, unescape_of_ne hc, ih fun hx => h (List.mem_cons_of_mem _ hx), List.cons_append]

theorem unescape_escape {a b : UInt8} (ha : isHexDigit a = true) (hb : isHexDigit b = true) (t : Str) :
    unescape (percent :: a :: b :: t) = escapedByte a b :: unescape t := if_pos ⟨rfl, ha, hb⟩

/-- A percent sign that begins no escape stays. -/
theorem unescape_percent {t : Str} (h : ∀ a b u, t = a :: b :: u → ¬(isHexDigit a = true ∧ isHexDigit b = true)) :
    unescape (percent :: t) = percent :: unescape t := by
  rcases t with - | ⟨a, - | ⟨b, t⟩⟩
  · rfl
  · rfl
  · exact if_neg fun hc => h a b t rfl hc.2

theorem isHexDigit_percent : isHexDigit percent = false := by decide

theorem spread_short {slices : List Str} : spread percent slices = [] ∨ ∃ t, spread percent slices = percent :: t := by
  cases slices with
  | nil => exact Or.inl rfl
  | cons slice slices => exact Or.inr ⟨slice ++ spread percent slices, spread_cons _ _⟩

/-- A slice of less than two characters begins no escape. -/
theorem unescape_short {slice : Str} (hslice : slice.length < 2) (hpercent : percent ∉ slice) (slices : List Str) :
    unescape (spread percent (slice :: slices)) = percent :: slice ++ unescape (spread percent slices) := by
  have hnone : ∀ a b u, slice ++ spread percent slices = a :: b :: u →
      ¬(isHexDigit a = true ∧ isHexDigit b = true) := by
    rintro a b u h ⟨ha, hb⟩
    have hno := isHexDigit_percent
    rcases slice with - | ⟨c, - | ⟨d, slice⟩⟩
    · rcases @spread_short slices with hnil | ⟨t, ht⟩
      · rw [hnil] at h
        cases h
      · rw [ht, List.nil_append, List.cons.injEq] at h
        rw [h.1, ha] at hno
        cases hno
    · rcases @spread_short slices with hnil | ⟨t, ht⟩
      · rw [hnil] at h
        cases h
      · rw [ht, List.singleton_append, List.cons.injEq, List.cons.injEq] at h
        rw [h.2.1, hb] at hno
        cases hno
    · simp only [List.length_cons] at hslice
      omega
  rw [spread_cons, List.cons_append, unescape_percent hnone, unescape_append hpercent, List.cons_append]

/-- A slice of two hexadecimal digits and more is an escape. -/
theorem unescape_digits {a b : UInt8} {t : Str} (ha : isHexDigit a = true) (hb : isHexDigit b = true)
    (hpercent : percent ∉ t) (slices : List Str) :
    unescape (spread percent ((a :: b :: t) :: slices)) = escapedByte a b :: t ++ unescape (spread percent slices) := by
  rw [spread_cons, List.cons_append, List.cons_append, List.cons_append, unescape_escape ha hb,
    unescape_append hpercent, List.cons_append]

/-- Any other slice is none. -/
theorem unescape_malformed {a b : UInt8} {t : Str} (h : ¬(isHexDigit a = true ∧ isHexDigit b = true))
    (hpercent : percent ∉ a :: b :: t) (slices : List Str) :
    unescape (spread percent ((a :: b :: t) :: slices)) =
      percent :: a :: b :: t ++ unescape (spread percent slices) := by
  have hnone : ∀ c d u, a :: b :: t ++ spread percent slices = c :: d :: u →
      ¬(isHexDigit c = true ∧ isHexDigit d = true) := by
    rintro c d u heq
    rw [List.cons_append, List.cons_append, List.cons.injEq, List.cons.injEq] at heq
    rw [← heq.1, ← heq.2.1]
    exact h
  rw [spread_cons, List.cons_append, unescape_percent hnone, unescape_append hpercent]
  rfl

/-! ## The loop -/

/-- What the loop gives for a slice and those behind it. -/
theorem decodeSlices_cons {slice : Str} {slices D : List Str}
    (h : (decodeSlices (slice :: slices)).run = some (.ok D)) :
    ∃ D' head, (decodeSlices slices).run = some (.ok D') ∧ D.flatten = head ++ D'.flatten ∧
      (slice.length < 2 ∧ head = percent :: slice ∨ 2 ≤ slice.length ∧ ∃ c, head = c :: slice.drop 2) := by
  rw [decodeSlices] at h
  split at h
  · rename_i hshort
    obtain ⟨D', hD', h⟩ := run_bind_eq_ok.mp h
    cases h
    exact ⟨D', percent :: slice, hD', rfl, Or.inl ⟨hshort, rfl⟩⟩
  · rename_i hlong
    obtain ⟨number, -, h⟩ := run_bind_eq_ok.mp h
    obtain ⟨n, -, h⟩ := run_bind_eq_ok.mp h
    obtain ⟨char, hchar, h⟩ := run_bind_eq_ok.mp h
    obtain ⟨D', hD', h⟩ := run_bind_eq_ok.mp h
    cases h
    obtain ⟨c, rfl⟩ : ∃ c, char = [c] := by
      have hbyte : fromByte n = .ok char := Option.some.inj hchar
      rw [fromByte] at hbyte
      split at hbyte
      · cases hbyte
      · exact ⟨_, (Except.ok.inj hbyte).symm⟩
    exact ⟨D', c :: slice.drop 2, hD', rfl, Or.inr ⟨not_lt.mp hlong, c, rfl⟩⟩

/-- Where all slices are well formed the loop gives what is to be given. -/
theorem decodeSlices_of_wellFormed {slices : List Str} (hpercent : ∀ slice ∈ slices, percent ∉ slice)
    (h : ∀ slice ∈ slices, WellFormed slice) :
    ∃ D, (decodeSlices slices).run = some (.ok D) ∧ D.flatten = unescape (spread percent slices) := by
  induction slices with
  | nil => exact ⟨[], rfl, rfl⟩
  | cons slice slices ih =>
    obtain ⟨D, hD, hflatten⟩ := ih (fun s hs => hpercent s (List.mem_cons_of_mem _ hs))
      fun s hs => h s (List.mem_cons_of_mem _ hs)
    have hno := hpercent slice List.mem_cons_self
    rw [decodeSlices]
    by_cases hshort : slice.length < 2
    · refine ⟨(percent :: slice) :: D, ?_, ?_⟩
      · rw [if_pos hshort]
        exact run_bind_eq_ok.mpr ⟨D, hD, rfl⟩
      · rw [List.flatten_cons, hflatten, unescape_short hshort hno]
    · rcases slice with - | ⟨a, - | ⟨b, t⟩⟩
      · exact absurd Nat.zero_lt_two hshort
      · exact absurd Nat.one_lt_two hshort
      · obtain ⟨ha, hb⟩ := h _ List.mem_cons_self a b t rfl
        have hchar := fromByte_ofNat (escaped_lt ha hb)
        refine ⟨[escapedByte a b] :: t :: D, ?_, ?_⟩
        · rw [if_neg hshort]
          refine run_bind_eq_ok.mpr ⟨_, numberOfString_digits ha hb, run_bind_eq_ok.mpr ⟨_, rfl, ?_⟩⟩
          exact run_bind_eq_ok.mpr ⟨_, congrArg some hchar, run_bind_eq_ok.mpr ⟨D, hD, rfl⟩⟩
        · have ht : percent ∉ t := fun ht => hno (List.mem_cons_of_mem _ (List.mem_cons_of_mem _ ht))
          rw [List.flatten_cons, List.flatten_cons, hflatten, unescape_digits ha hb ht]
          rfl

/-- Elsewhere it gives less. -/
theorem length_decodeSlices {slices D : List Str} (hpercent : ∀ slice ∈ slices, percent ∉ slice)
    (h : (decodeSlices slices).run = some (.ok D)) :
    D.flatten.length ≤ (unescape (spread percent slices)).length ∧
      (D.flatten.length = (unescape (spread percent slices)).length → ∀ slice ∈ slices, WellFormed slice) := by
  induction slices generalizing D with
  | nil =>
    cases h
    exact ⟨le_rfl, fun _ slice hslice => absurd hslice List.not_mem_nil⟩
  | cons slice slices ih =>
    obtain ⟨D', head, hD', hflatten, hhead⟩ := decodeSlices_cons h
    obtain ⟨hle, heq⟩ := ih (fun s hs => hpercent s (List.mem_cons_of_mem _ hs)) hD'
    have hno := hpercent slice List.mem_cons_self
    rw [hflatten, List.length_append]
    rcases hhead with ⟨hshort, rfl⟩ | ⟨hlong, c, rfl⟩
    · have hwell : WellFormed slice := by
        rintro a b t rfl
        simp only [List.length_cons] at hshort
        omega
      rw [unescape_short hshort hno, List.length_append]
      refine ⟨by omega, fun hsame => List.forall_mem_cons.mpr ⟨hwell, heq (by omega)⟩⟩
    · rcases slice with - | ⟨a, - | ⟨b, t⟩⟩
      · exact absurd hlong (by decide)
      · exact absurd hlong (by simp)
      · rw [List.drop_succ_cons, List.drop_succ_cons, List.drop_zero, List.length_cons]
        by_cases hdigits : isHexDigit a = true ∧ isHexDigit b = true
        · have ht : percent ∉ t := fun ht => hno (List.mem_cons_of_mem _ (List.mem_cons_of_mem _ ht))
          have hwell : WellFormed (a :: b :: t) := by
            rintro a' b' t' heq
            rw [List.cons.injEq, List.cons.injEq] at heq
            rw [← heq.1, ← heq.2.1]
            exact hdigits
          rw [unescape_digits hdigits.1 hdigits.2 ht, List.length_append, List.length_cons]
          exact ⟨by omega, fun hsame => List.forall_mem_cons.mpr ⟨hwell, heq (by omega)⟩⟩
        · rw [unescape_malformed hdigits hno, List.length_append, List.length_cons, List.length_cons,
            List.length_cons]
          exact ⟨by omega, fun hsame => by omega⟩

/-! ## The strings -/

theorem isHexDigit_spaced (c : UInt8) : isHexDigit (if c = plus then space else c) = isHexDigit c := by
  by_cases h : c = plus
  · rw [if_pos h, h]
    decide
  · rw [if_neg h]

theorem spaced_eq_percent {c : UInt8} : (if c = plus then space else c) = percent ↔ c = percent := by
  by_cases h : c = plus
  · rw [if_pos h, h]
    decide
  · rw [if_neg h]

/-- What is well escaped does not depend on the plus signs. -/
theorem wellEscaped_spaced (s : Str) : WellEscaped (spaced s) ↔ WellEscaped s := by
  have hmap : ∀ a b, [percent, a, b].map (fun c => if c = plus then space else c) =
      [percent, if a = plus then space else a, if b = plus then space else b] := fun a b => rfl
  constructor
  · intro h a b hmiddle ha hb
    have hspaced := hmiddle.map fun c => if c = plus then space else c
    rw [hmap] at hspaced
    have hdigits := h _ _ hspaced (mt spaced_eq_percent.mp ha) (mt spaced_eq_percent.mp hb)
    rw [isHexDigit_spaced, isHexDigit_spaced] at hdigits
    exact hdigits
  · intro h a b hmiddle ha hb
    obtain ⟨t, ht, heq⟩ := List.infix_map_iff.mp hmiddle
    rcases t with - | ⟨p, - | ⟨a', - | ⟨b', - | ⟨x, t⟩⟩⟩⟩
    · simp at heq
    · simp at heq
    · simp at heq
    · rw [List.map_cons, List.map_cons, List.map_singleton, List.cons.injEq, List.cons.injEq,
        List.cons.injEq] at heq
      obtain ⟨hp, rfl, rfl, -⟩ := heq
      rw [spaced_eq_percent.mp hp.symm] at ht
      rw [isHexDigit_spaced, isHexDigit_spaced]
      exact h a' b' ht (mt spaced_eq_percent.mpr ha) (mt spaced_eq_percent.mpr hb)
    · simp at heq

/-- A string is well escaped exactly if all its slices are well formed. -/
theorem wellEscaped_iff {s first : Str} {slices : List Str} (h : allPieces [percent] s = first :: slices) :
    WellEscaped s ↔ ∀ slice ∈ slices, WellFormed slice := by
  have hpercent : ∀ slice ∈ slices, percent ∉ slice := fun slice hslice =>
    not_mem_of_mem_allPieces slice (h ▸ List.mem_cons_of_mem _ hslice)
  constructor
  · rintro hs slice hslice a b t rfl
    have hno := hpercent _ hslice
    have hmiddle : [percent, a, b] <:+: s := by
      obtain ⟨L, M, rfl⟩ := List.append_of_mem hslice
      rw [eq_append_spread h, spread, List.map_append, List.map_cons, List.flatten_append, List.flatten_cons]
      exact ⟨first ++ (L.map (percent :: ·)).flatten, t ++ (M.map (percent :: ·)).flatten, by simp⟩
    exact hs a b hmiddle (fun ha => hno (ha ▸ List.mem_cons_self))
      fun hb => hno (hb ▸ List.mem_cons_of_mem _ List.mem_cons_self)
  · rintro hall a b ⟨u, v, rfl⟩ ha hb
    have hpieces : allPieces [percent] (u ++ [percent, a, b] ++ v) =
        allPieces [percent] u ++ allPieces [percent] (a :: b :: v) := by
      rw [List.append_assoc]
      exact allPieces_append u (a :: b :: v)
    obtain ⟨f, L, hu⟩ := List.exists_cons_of_ne_nil (allPieces_ne_nil [percent] u)
    obtain ⟨g, M, hv⟩ := List.exists_cons_of_ne_nil (allPieces_ne_nil [percent] v)
    have hkeep : ∀ c t, c ≠ percent → ¬[percent] <+: c :: t := fun c t hc hp =>
      hc (List.cons_prefix_cons.mp hp).1.symm
    have hab : allPieces [percent] (a :: b :: v) = (a :: b :: g) :: M := by
      rw [allPieces_keep (hkeep a _ ha), allPieces_keep (hkeep b _ hb), hv]
      rfl
    rw [hpieces, hu, hab, List.cons_append, List.cons.injEq] at h
    exact hall (a :: b :: g) (h.2 ▸ List.mem_append_right _ List.mem_cons_self) a b g rfl

/-- What `decode` does, by the slices of the string. -/
theorem decode_eq {s first : Str} {slices : List Str} (h : allPieces [percent] (spaced s) = first :: slices) :
    decode s = if slices = [] then pure first else decodeSlices slices >>= fun D =>
      if (first ++ D.flatten).length = 0 then pure (spaced s) else pure (first ++ D.flatten) := by
  have hdata : replaced [plus] [space] s = spaced s := replaced_singleton plus space s
  have hone : (first :: slices).length = 1 ↔ slices = [] := by
    rw [List.length_cons, Nat.add_eq_right, List.length_eq_zero_iff]
  rw [decode, hdata, h]
  simp only [hone, nil_intercalate, List.headD_cons, List.flatten_cons, List.tail_cons]
  split
  · rename_i hnil
    have hall := eq_append_spread h
    rw [hnil, spread, List.map_nil, List.flatten_nil, List.append_nil] at hall
    rw [hall]
  · rfl

theorem decoded_eq {s first : Str} {slices : List Str} (h : allPieces [percent] (spaced s) = first :: slices) :
    decoded s = first ++ unescape (spread percent slices) := by
  have hfirst : percent ∉ first := not_mem_of_mem_allPieces first (h ▸ List.mem_cons_self)
  rw [decoded, eq_append_spread h, unescape_append hfirst]

theorem unescape_ne_nil (slice : Str) (slices : List Str) : unescape (spread percent (slice :: slices)) ≠ [] := by
  rw [spread_cons, List.cons_append]
  generalize slice ++ spread percent slices = t
  rcases t with - | ⟨a, - | ⟨b, t⟩⟩
  · exact List.cons_ne_nil _ _
  · exact List.cons_ne_nil _ _
  · rw [unescape]
    split
    · exact List.cons_ne_nil _ _
    · exact List.cons_ne_nil _ _

/-- Something is appended for each slice. -/
theorem flatten_ne_nil_of_decodeSlices {slice : Str} {slices D : List Str}
    (h : (decodeSlices (slice :: slices)).run = some (.ok D)) : D.flatten ≠ [] := by
  obtain ⟨D', head, -, hflatten, hhead⟩ := decodeSlices_cons h
  have hne : head ≠ [] := by
    rcases hhead with ⟨-, rfl⟩ | ⟨-, c, rfl⟩
    · exact List.cons_ne_nil _ _
    · exact List.cons_ne_nil _ _
  rw [hflatten]
  exact List.append_ne_nil_of_left_ne_nil hne _

theorem decode_of_wellEscaped {s : Str} (hs : WellEscaped s) : (decode s).run = some (.ok (decoded s)) := by
  obtain ⟨first, slices, h⟩ := List.exists_cons_of_ne_nil (allPieces_ne_nil [percent] (spaced s))
  have hpercent : ∀ slice ∈ slices, percent ∉ slice := fun slice hslice =>
    not_mem_of_mem_allPieces slice (h ▸ List.mem_cons_of_mem _ hslice)
  have hwell := (wellEscaped_iff h).mp ((wellEscaped_spaced s).mpr hs)
  rw [decode_eq h, decoded_eq h]
  cases slices with
  | nil =>
    rw [if_pos rfl, spread, List.map_nil, List.flatten_nil, unescape, List.append_nil]
    rfl
  | cons slice slices =>
    obtain ⟨D, hD, hflatten⟩ := decodeSlices_of_wellFormed hpercent hwell
    have hne : (first ++ unescape (spread percent (slice :: slices))).length ≠ 0 :=
      mt List.length_eq_zero_iff.mp (List.append_ne_nil_of_right_ne_nil _ (unescape_ne_nil slice slices))
    rw [if_neg (List.cons_ne_nil _ _)]
    refine run_bind_eq_ok.mpr ⟨D, hD, ?_⟩
    rw [hflatten, if_neg hne]
    rfl

theorem wellEscaped_of_decode {s : Str} (hs : (decode s).run = some (.ok (decoded s))) : WellEscaped s := by
  obtain ⟨first, slices, h⟩ := List.exists_cons_of_ne_nil (allPieces_ne_nil [percent] (spaced s))
  have hpercent : ∀ slice ∈ slices, percent ∉ slice := fun slice hslice =>
    not_mem_of_mem_allPieces slice (h ▸ List.mem_cons_of_mem _ hslice)
  rw [← wellEscaped_spaced, wellEscaped_iff h]
  rw [decode_eq h, decoded_eq h] at hs
  cases slices with
  | nil => exact fun slice hslice => absurd hslice List.not_mem_nil
  | cons slice slices =>
    rw [if_neg (List.cons_ne_nil _ _)] at hs
    obtain ⟨D, hD, hresult⟩ := run_bind_eq_ok.mp hs
    have hne : (first ++ D.flatten).length ≠ 0 :=
      mt List.length_eq_zero_iff.mp (List.append_ne_nil_of_right_ne_nil _ (flatten_ne_nil_of_decodeSlices hD))
    rw [if_neg hne] at hresult
    have hsame : first ++ D.flatten = first ++ unescape (spread percent (slice :: slices)) :=
      Except.ok.inj (Option.some.inj hresult)
    exact (length_decodeSlices hpercent hD).2 (congrArg List.length (List.append_cancel_left hsame))

/-- `decode` gives the decoded string exactly if the string is well escaped. -/
theorem decodes_iff (s : Str) : (decode s).run = some (.ok (decoded s)) ↔ WellEscaped s :=
  ⟨wellEscaped_of_decode, decode_of_wellEscaped⟩

/-- `"%zz"` raises an error. -/
theorem not_forall_decodes : ¬∀ s, (decode s).run = some (.ok (decoded s)) := by
  intro h
  have hwell : WellEscaped [percent, byte 'z', byte 'z'] := wellEscaped_of_decode (h _)
  exact absurd (hwell _ _ (List.infix_refl _) (by decide) (by decide)) (by decide)

end Url

end Chloride
