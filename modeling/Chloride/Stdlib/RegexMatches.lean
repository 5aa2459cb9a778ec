import Chloride.Containers.Scanning

/-!
# `find_all` and `split` of regular expressions

The two loops of `stdlib/regex/native/main.c` over the matches that PCRE2 finds, which is a parameter. Behind an empty
match both go on one byte later. In `find_all` that is an error inside a character of more bytes, which ends the loop;
in `split` the next piece starts there, so that the byte is in none, and behind an empty match at the end the length of
the last piece wraps. They are right exactly when no match is empty.
-/

namespace Chloride

namespace Regex

open Scanning

/-! ## The matches of PCRE2 -/

/-- A subject in UTF-8. -/
abbrev Subject := {s : List Char // (s.flatMap String.utf8EncodeChar).length < 2^63}

def Subject.bytes (s : Subject) : List UInt8 := s.1.flatMap String.utf8EncodeChar

/-- A place between two characters, or at one of the ends. -/
def Subject.Boundary (s : Subject) (p : ℕ) : Prop := ∃ k, p = ((s.1.take k).flatMap String.utf8EncodeChar).length

/-- The ovector of a match: the first pair, and the pairs of the groups, `none` for `PCRE2_UNSET`. -/
structure Match where
  start : ℕ
  stop : ℕ
  groups : List (Option (ℕ × ℕ))
  deriving DecidableEq

/-- What `pcre2_match` finds from an offset: nothing from one that is no place of the subject, else a match at the
offset or behind it. -/
structure Oracle (s : Subject) where
  find : ℕ → Option Match
  boundary : ∀ o m, find o = some m → s.Boundary o
  range : ∀ o m, find o = some m → o ≤ m.start ∧ m.start ≤ m.stop ∧ m.stop ≤ s.bytes.length
  groups : ∀ o m, find o = some m → ∀ c d, some (c, d) ∈ m.groups → c ≤ d ∧ d ≤ s.bytes.length

/-- A subject with what is found in it. -/
def Oracle.scanner {s : Subject} (oracle : Oracle s) : Scanner Match where
  length := s.bytes.length
  Boundary := s.Boundary
  start := Match.start
  stop := Match.stop
  find := oracle.find
  boundary_length := ⟨s.1.length, by rw [List.take_length]; rfl⟩
  boundary_find := oracle.boundary
  range := oracle.range

/-! ## The loops -/

/-- `make_string(api, data + c, d - c)`: the difference of the offsets has 64 bits. It is `none` where a byte outside of
the data is read. -/
def makeString (data : List UInt8) (c d : ℕ) : Option (List UInt8) :=
  let len := (d + 2^64 - c) % 2^64
  if c + len ≤ data.length then some ((data.drop c).take len) else none

/-- The string of a group, or null. -/
def capture (data : List UInt8) : Option (ℕ × ℕ) → Option (Option (List UInt8))
  | none => some none
  | some (c, d) => (makeString data c d).map some

/-- The offset after a match. -/
def Match.offset (m : Match) : ℕ :=
  let offset := m.stop
  if m.start = m.stop then offset + 1 else offset

section

variable {s : Subject} (oracle : Oracle s)

/-- The loop of `find_all`. -/
def findAllLoop : ℕ → ℕ → List (List (Option (List UInt8))) → Option (List (List (Option (List UInt8))))
  | 0, _, _ => none
  | fuel + 1, offset, outerList =>
    match oracle.find offset with
    | none => some outerList
    | some m => do
      let innerList ← (some (m.start, m.stop) :: m.groups).mapM (capture s.bytes)
      findAllLoop fuel m.offset (outerList ++ [innerList])

/-- `find_all`. The offset grows in every round, so there are at most two more rounds than bytes. -/
def findAll : Option (List (List (Option (List UInt8)))) := findAllLoop oracle (s.bytes.length + 2) 0 []

/-- The loop of `split`, with the matches that it has used. -/
def splitLoop : ℕ → ℕ → List (List UInt8) → List Match → Option (List (List UInt8) × List Match)
  | 0, _, _, _ => none
  | fuel + 1, offset, list, used =>
    match oracle.find offset with
    | none => do
      let tail ← makeString s.bytes offset s.bytes.length
      return (list ++ [tail], used)
    | some m => do
      let piece ← makeString s.bytes offset m.start
      splitLoop fuel m.offset (list ++ [piece]) (used ++ [m])

/-- `split`. -/
def split : Option (List (List UInt8) × List Match) := splitLoop oracle (s.bytes.length + 2) 0 [] []

/-! ## What they should do -/

/-- The text between two places. -/
def text (s : Subject) (c d : ℕ) : List UInt8 := (s.bytes.drop c).take (d - c)

/-- The texts of a match and of its groups. -/
def captures (s : Subject) (m : Match) : List (Option (List UInt8)) :=
  (some (m.start, m.stop) :: m.groups).map fun g => g.map fun r => text s r.1 r.2

/-- Pieces with texts between them. -/
def interleave : List (List UInt8) → List (List UInt8) → List UInt8
  | piece :: pieces, t :: texts => piece ++ t ++ interleave pieces texts
  | pieces, texts => pieces.flatten ++ texts.flatten

/-- `find_all` should report the successive matches. -/
def FindsAll : Prop := ∃ ms, oracle.scanner.Successive 0 ms ∧ findAll oracle = some (ms.map (captures s))

/-- The pieces of `split` and the texts of the matches between them should be the subject. -/
def SplitsExactly : Prop := ∃ pieces used, split oracle = some (pieces, used) ∧
  pieces.length = used.length + 1 ∧ interleave pieces (used.map fun m => text s m.start m.stop) = s.bytes

/-- None of the successive matches is empty. -/
def NoneEmpty : Prop := ∀ ms, oracle.scanner.Successive 0 ms → ∀ m ∈ ms, m.start < m.stop

end

/-! ## Strings of the subject -/

variable {s : Subject} {oracle : Oracle s}

theorem length_bytes (s : Subject) : s.bytes.length < 2^63 := s.2

/-- A string within the subject. -/
theorem makeString_of_le {c d : ℕ} (hcd : c ≤ d) (hd : d ≤ s.bytes.length) :
    makeString s.bytes c d = some (text s c d) := by
  have hlength := length_bytes s
  have hlen : (d + 2^64 - c) % 2^64 = d - c := by omega
  unfold makeString text
  dsimp only
  rw [hlen, if_pos (by omega)]

/-- A difference that wraps reaches out of the subject. -/
theorem makeString_wrapped {c d : ℕ} (hcd : d < c) (hc : c ≤ s.bytes.length + 1) : makeString s.bytes c d = none := by
  have hlength := length_bytes s
  have hlen : (d + 2^64 - c) % 2^64 = d + 2^64 - c := by omega
  unfold makeString
  dsimp only
  rw [hlen, if_neg (by omega)]

theorem length_text {c d : ℕ} (hcd : c ≤ d) (hd : d ≤ s.bytes.length) : (text s c d).length = d - c := by
  unfold text
  rw [List.length_take, List.length_drop]
  omega

/-- Two texts that meet. -/
theorem text_append {c d e : ℕ} (hcd : c ≤ d) (hde : d ≤ e) : text s c d ++ text s d e = text s c e := by
  have hsum : e - c = (d - c) + (e - d) := by omega
  have hdrop : c + (d - c) = d := by omega
  unfold text
  rw [hsum, List.take_add, List.drop_drop, hdrop]

theorem mapM_eq_some_map {α β : Type} {f : α → Option β} {g : α → β} {l : List α} (h : ∀ a ∈ l, f a = some (g a)) :
    l.mapM f = some (l.map g) := by
  induction l with
  | nil => rfl
  | cons a l ih =>
    obtain ⟨ha, hl⟩ := List.forall_mem_cons.mp h
    rw [List.mapM_cons, ha, ih hl]
    rfl

/-- The strings of a match and its groups are read. -/
theorem mapM_capture {o : ℕ} {m : Match} (h : oracle.find o = some m) :
    (some (m.start, m.stop) :: m.groups).mapM (capture s.bytes) = some (captures s m) := by
  obtain ⟨-, hle, hlength⟩ := oracle.range o m h
  apply mapM_eq_some_map
  intro g hg
  cases g with
  | none => rfl
  | some r =>
    obtain ⟨c, d⟩ := r
    rcases List.mem_cons.mp hg with heq | hmem
    · cases heq
      rw [capture, makeString_of_le hle hlength]
      rfl
    · obtain ⟨hcd, hd⟩ := oracle.groups o m h c d hmem
      rw [capture, makeString_of_le hcd hd]
      rfl

/-! ## The loops on matches that are not empty -/

theorem Match.offset_of_lt {m : Match} (h : m.start < m.stop) : m.offset = m.stop := if_neg h.ne

/-- `find_all` follows the successive matches. -/
theorem findAllLoop_of_nonempty {o : ℕ} {ms : List Match} (h : oracle.scanner.Successive o ms)
    (hne : ∀ m ∈ ms, m.start < m.stop) {fuel : ℕ} (hfuel : ms.length < fuel)
    (outerList : List (List (Option (List UInt8)))) :
    findAllLoop oracle fuel o outerList = some (outerList ++ ms.map (captures s)) := by
  induction h generalizing fuel outerList with
  | @done o hfind =>
    obtain ⟨fuel, rfl⟩ : ∃ f, fuel = f + 1 := ⟨fuel - 1, by omega⟩
    have hnone : oracle.find o = none := hfind
    rw [findAllLoop, hnone, List.map_nil, List.append_nil]
  | @nonempty o m ms hfind hlt _ ih =>
    obtain ⟨fuel, rfl⟩ : ∃ f, fuel = f + 1 := ⟨fuel - 1, by omega⟩
    have hsome : oracle.find o = some m := hfind
    have hrest := ih (fun m' hm' => hne m' (List.mem_cons_of_mem _ hm'))
      (show ms.length < fuel by rw [List.length_cons] at hfuel; omega) (outerList ++ [captures s m])
    rw [findAllLoop, hsome]
    dsimp only
    rw [mapM_capture hsome, Match.offset_of_lt (hne m List.mem_cons_self), Option.bind_eq_bind, Option.bind_some]
    exact hrest.trans (by rw [List.map_cons, List.append_assoc, List.singleton_append])
  | @empty o q m ms hfind heq => exact absurd heq (hne m List.mem_cons_self).ne
  | @last o m hfind heq => exact absurd heq (hne m List.mem_cons_self).ne

/-- The text of a match. -/
def matched (s : Subject) (m : Match) : List UInt8 := text s m.start m.stop

/-- `split` follows the successive matches, and its pieces are what is between them. -/
theorem splitLoop_of_nonempty {o : ℕ} {ms : List Match} (h : oracle.scanner.Successive o ms)
    (hne : ∀ m ∈ ms, m.start < m.stop) {fuel : ℕ} (hfuel : ms.length < fuel) (ho : o ≤ s.bytes.length)
    (list : List (List UInt8)) (used : List Match) :
    ∃ pieces, splitLoop oracle fuel o list used = some (list ++ pieces, used ++ ms) ∧
      pieces.length = ms.length + 1 ∧ interleave pieces (ms.map (matched s)) = text s o s.bytes.length := by
  induction h generalizing fuel list used with
  | @done o hfind =>
    obtain ⟨fuel, rfl⟩ : ∃ f, fuel = f + 1 := ⟨fuel - 1, by omega⟩
    have hnone : oracle.find o = none := hfind
    refine ⟨[text s o s.bytes.length], ?_, rfl, by simp [interleave]⟩
    rw [splitLoop, hnone, List.append_nil]
    dsimp only
    rw [makeString_of_le ho le_rfl]
    rfl
  | @nonempty o m ms hfind hlt _ ih =>
    obtain ⟨fuel, rfl⟩ : ∃ f, fuel = f + 1 := ⟨fuel - 1, by omega⟩
    have hsome : oracle.find o = some m := hfind
    obtain ⟨hle, hle', hlength⟩ := oracle.range o m hsome
    obtain ⟨pieces, hloop, hpieces, htext⟩ := ih (fun m' hm' => hne m' (List.mem_cons_of_mem _ hm'))
      (show ms.length < fuel by rw [List.length_cons] at hfuel; omega) hlength (list ++ [text s o m.start])
      (used ++ [m])
    refine ⟨text s o m.start :: pieces, ?_, ?_, ?_⟩
    · rw [splitLoop, hsome]
      dsimp only
      rw [makeString_of_le hle (hle'.trans hlength), Match.offset_of_lt (hne m List.mem_cons_self),
        Option.bind_eq_bind, Option.bind_some]
      exact hloop.trans (by simp)
    · rw [List.length_cons, List.length_cons, hpieces]
    · rw [List.map_cons, interleave, htext, matched, text_append hle hle']
      exact text_append (hle.trans hle') hlength
  | @empty o q m ms hfind heq => exact absurd heq (hne m List.mem_cons_self).ne
  | @last o m hfind heq => exact absurd heq (hne m List.mem_cons_self).ne

/-! ## What an empty match costs -/

/-- The pieces of `split` and the matches between them leave out a byte for every empty match. -/
theorem splitLoop_length {fuel o : ℕ} {list list' : List (List UInt8)} {used used' : List Match}
    (h : splitLoop oracle fuel o list used = some (list', used')) (ho : o ≤ s.bytes.length + 1) :
    ∃ pieces ms, list' = list ++ pieces ∧ used' = used ++ ms ∧ pieces.length = ms.length + 1 ∧
      o + (interleave pieces (ms.map (matched s))).length + (ms.countP fun m => m.start = m.stop) =
        s.bytes.length ∧
      ((∀ m ∈ ms, m.start ≠ m.stop) → oracle.scanner.Successive o ms) := by
  induction fuel generalizing o list used with
  | zero => cases h
  | succ fuel ih =>
    rw [splitLoop] at h
    cases hfind : oracle.find o with
    | none =>
      rw [hfind] at h
      obtain ⟨tail, htail, heq⟩ := Option.bind_eq_some_iff.mp h
      obtain ⟨rfl, rfl⟩ := Prod.mk.inj (Option.some.inj heq)
      have hle : o ≤ s.bytes.length := by
        by_contra hlt
        rw [makeString_wrapped (not_le.mp hlt) ho] at htail
        cases htail
      rw [makeString_of_le hle le_rfl] at htail
      obtain rfl := Option.some.inj htail
      have hlength := length_text hle le_rfl
      refine ⟨[text s o s.bytes.length], [], rfl, (List.append_nil _).symm, rfl, ?_, fun _ => .done hfind⟩
      simp only [interleave, List.map_nil, List.flatten_nil, List.append_nil, List.flatten_cons, List.countP_nil,
        hlength]
      omega
    | some m =>
      rw [hfind] at h
      obtain ⟨hle, hle', hlength⟩ := oracle.range o m hfind
      obtain ⟨piece, hpiece, hloop⟩ := Option.bind_eq_some_iff.mp h
      rw [makeString_of_le hle (hle'.trans hlength)] at hpiece
      obtain rfl := Option.some.inj hpiece
      have hoffset : m.offset = m.stop + if m.start = m.stop then 1 else 0 := by
        unfold Match.offset
        dsimp only
        split <;> rfl
      obtain ⟨pieces, ms, rfl, rfl, hpieces, hsum, hsucc⟩ := ih hloop (by rw [hoffset]; split <;> omega)
      refine ⟨text s o m.start :: pieces, m :: ms, by simp, by simp, by simp [hpieces], ?_, fun hne => ?_⟩
      · have hpiece := length_text hle (hle'.trans hlength)
        have hmatched : (matched s m).length = m.stop - m.start := length_text hle' hlength
        rw [List.map_cons, interleave, List.length_append, List.length_append, hpiece, hmatched, List.countP_cons]
        rw [hoffset] at hsum
        simp only [decide_eq_true_eq]
        split at hsum <;> simp_all <;> omega
      · obtain ⟨hm, hms⟩ := List.forall_mem_cons.mp hne
        rw [Match.offset, if_neg hm] at hsucc
        exact .nonempty hfind (lt_of_le_of_ne hle' hm) (hsucc hms)

/-- The offset after a match is behind the one before it, and not more than one behind the subject. -/
theorem lt_offset {o : ℕ} {m : Match} (h : oracle.find o = some m) : o < m.offset ∧ m.offset ≤ s.bytes.length + 1 := by
  obtain ⟨hle, hle', hlength⟩ := oracle.range o m h
  unfold Match.offset
  dsimp only
  split <;> omega

/-- `find_all` ends, whatever is matched. -/
theorem findAllLoop_isSome {fuel o : ℕ} (hfuel : s.bytes.length + 2 ≤ fuel + o) (ho : o ≤ s.bytes.length + 1)
    (outerList : List (List (Option (List UInt8)))) : (findAllLoop oracle fuel o outerList).isSome := by
  induction fuel generalizing o outerList with
  | zero => omega
  | succ fuel ih =>
    rw [findAllLoop]
    cases hfind : oracle.find o with
    | none => rfl
    | some m =>
      obtain ⟨hlt, hle⟩ := lt_offset hfind
      dsimp only
      rw [mapM_capture hfind, Option.bind_eq_bind, Option.bind_some]
      exact ih (by omega) hle _

theorem findAll_isSome (oracle : Oracle s) : (findAll oracle).isSome :=
  findAllLoop_isSome (show s.bytes.length + 2 ≤ s.bytes.length + 2 + 0 by omega) (Nat.zero_le _) []

/-! ## The theorem -/

/-- `find_all` reports the successive matches, and the pieces of `split` with the matches between them are the subject,
exactly when none of the successive matches is empty. -/
theorem find_all_split_iff {s : Subject} (oracle : Oracle s) : FindsAll oracle ∧ SplitsExactly oracle ↔
    NoneEmpty oracle := by
  obtain ⟨ms, hms⟩ := oracle.scanner.exists_successive 0
  constructor
  · rintro ⟨-, pieces, used, hsplit, -, hwhole⟩ ms' hms' m hm
    obtain ⟨pieces', used', hpieces, hused, -, hsum, hsucc⟩ := splitLoop_length hsplit (Nat.zero_le _)
    rw [List.nil_append] at hpieces hused
    subst hpieces hused
    -- the whole subject is there, so no byte is left out
    have hcount : used.countP (fun m => m.start = m.stop) = 0 := by
      have hlength : (interleave pieces (used.map (matched s))).length = s.bytes.length :=
        congrArg List.length hwhole
      omega
    rw [List.countP_eq_zero] at hcount
    have hne : ∀ m ∈ used, m.start ≠ m.stop := fun m hm => by simpa using hcount m hm
    obtain rfl := hms'.unique (hsucc hne)
    have hle : m.start ≤ m.stop := hms'.start_le_stop m hm
    exact lt_of_le_of_ne hle (hne m hm)
  · intro hne
    have hlt := hne ms hms
    have hlength : 0 + ms.length ≤ s.bytes.length := hms.length_le hlt (Nat.zero_le _)
    obtain ⟨pieces, hloop, hpieces, hwhole⟩ :=
      splitLoop_of_nonempty hms hlt (show ms.length < s.bytes.length + 2 by omega) (Nat.zero_le _) [] []
    constructor
    · exact ⟨ms, hms, findAllLoop_of_nonempty hms hlt (by omega) []⟩
    · refine ⟨pieces, ms, hloop, hpieces, hwhole.trans ?_⟩
      rw [text, List.drop_zero, Nat.sub_zero, List.take_length]

/-- The empty pattern on the subject `a`: an empty match at either end. -/
def emptyPattern : Oracle ⟨['a'], by decide⟩ where
  find o := if o ≤ 1 then some ⟨o, o, []⟩ else none
  boundary := by
    intro o m h
    split at h
    · exact ⟨o, by interval_cases o <;> decide⟩
    · cases h
  range := by
    intro o m h
    split at h
    next ho =>
      obtain rfl := Option.some.inj h
      exact ⟨le_rfl, le_rfl, ho⟩
    next => cases h
  groups := by
    intro o m h c d hmem
    split at h
    · obtain rfl := Option.some.inj h
      cases hmem
    · cases h

/-- `split` of `a` at the empty pattern reads behind its end. -/
theorem not_forall_find_all_split : ¬∀ (s : Subject) (oracle : Oracle s), FindsAll oracle ∧ SplitsExactly oracle := by
  intro h
  obtain ⟨-, pieces, used, hsplit, -⟩ := h _ emptyPattern
  have hnone : split emptyPattern = none := by decide
  cases hnone.symm.trans hsplit

end Regex

end Chloride
