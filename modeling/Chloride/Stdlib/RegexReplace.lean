import Chloride.Stdlib.RegexMatches

/-!
# `replace` and `replace_all` of regular expressions

The buffer of `stdlib/regex/native/main.c` for the text that `pcre2_substitute` puts together from the subject, the
matches and the replacement. Its size is twice the subject and once the replacement, while the text is the subject
without the matched bytes and with an insertion for each match (`length_substituted`), which has no bound. So a text
is there exactly when the insertions leave room for it, and otherwise the result is null, as without a substitution.
One match and a replacement without references always fit (`fits_of_literal`).
-/

namespace Chloride

namespace Regex

/-! ## The substitution of PCRE2 -/

/-- A part of a replacement: text that stands for itself, or a reference (`$1`, `${name}`, `$*MARK`) with what it
stands for in a match, `none` for a group that is not set. -/
inductive Piece where
  | literal (text : List UInt8)
  | reference (value : Match → Option (List UInt8))

/-- The text of a part in a match. -/
def Piece.expand (m : Match) : Piece → Option (List UInt8)
  | .literal text => some text
  | .reference value => value m

/-- What a part has of the source of the replacement at least. -/
def Piece.sourceLength : Piece → ℕ
  | .literal text => text.length
  | .reference _ => 2

/-- Matches behind each other from a place on. -/
def Ordered (s : Subject) : ℕ → List Match → Prop
  | o, [] => o ≤ s.bytes.length
  | o, m :: ms => o ≤ m.start ∧ m.start ≤ m.stop ∧ Ordered s m.stop ms

/-- A replacement with its parts, and the matches of a pattern that it is for. -/
structure Substitution (s : Subject) where
  replacement : List UInt8
  pieces : List Piece
  found : List Match
  source : (pieces.map Piece.sourceLength).sum ≤ replacement.length
  ordered : Ordered s 0 found

section

variable {s : Subject} (sub : Substitution s)

/-- All matches with `PCRE2_SUBSTITUTE_GLOBAL`, else the first one. -/
def Substitution.replaced (isGlobal : Bool) : List Match := if isGlobal then sub.found else sub.found.take 1

/-- What is inserted for a match. -/
def Substitution.insertion (m : Match) : Option (List UInt8) := (sub.pieces.mapM (Piece.expand m)).map List.flatten

/-- The subject from a place on, with insertions for matches. -/
def Substitution.textFrom : ℕ → List Match → Option (List UInt8)
  | o, [] => some (text s o s.bytes.length)
  | o, m :: ms => do
    let inserted ← sub.insertion m
    let rest ← textFrom m.stop ms
    return text s o m.start ++ inserted ++ rest

/-- The substituted text; `none` where the substitution is not defined. -/
def Substitution.substituted (isGlobal : Bool) : Option (List UInt8) := sub.textFrom 0 (sub.replaced isGlobal)

/-- `pcre2_substitute` fails when the text and the zero behind it do not fit. -/
def pcre2Substitute (isGlobal : Bool) (outlen : ℕ) : Option (List UInt8) :=
  (sub.substituted isGlobal).filter fun t => t.length + 1 ≤ outlen

/-! ## The functions -/

/-- `PCRE2_SIZE outlen = subject.length * 2 + replacement.length + 1`. -/
def outlen (subject replacement : List UInt8) : ℕ := (subject.length * 2 + replacement.length + 1) % 2^64

/-- `replace`, `none` for null. -/
def replace : Option (List UInt8) := pcre2Substitute sub false (outlen s.bytes sub.replacement)

/-- `replace_all`, `none` for null. -/
def replaceAll : Option (List UInt8) := pcre2Substitute sub true (outlen s.bytes sub.replacement)

/-! ## What they should do -/

/-- Both should return the text of every substitution that is defined, with a size of the buffer that does not wrap
below `2^62`. -/
structure Replaces : Prop where
  replace : ∀ t, sub.substituted false = some t → Regex.replace sub = some t
  replace_all : ∀ t, sub.substituted true = some t → replaceAll sub = some t
  outlen : s.bytes.length < 2^62 → sub.replacement.length < 2^62 →
    Regex.outlen s.bytes sub.replacement = s.bytes.length * 2 + sub.replacement.length + 1

/-- The bytes of the subject that matches take. -/
def matchedLength (ms : List Match) : ℕ := (ms.map fun m => m.stop - m.start).sum

/-- The insertions, where they are defined, leave room: with the subject and the zero they are not longer than the
buffer and the matched bytes. -/
def Substitution.Fits (isGlobal : Bool) : Prop := ∀ inserted, (sub.replaced isGlobal).mapM sub.insertion = some inserted →
  s.bytes.length + inserted.flatten.length + 1 ≤ outlen s.bytes sub.replacement + matchedLength (sub.replaced isGlobal)

end

variable {s : Subject} {sub : Substitution s}

/-! ## The length of the text -/

theorem Ordered.le_length {o : ℕ} {ms : List Match} (h : Ordered s o ms) : o ≤ s.bytes.length := by
  induction ms generalizing o with
  | nil => exact h
  | cons m ms ih => exact (h.1.trans h.2.1).trans (ih h.2.2)

/-- The matches that are replaced are behind each other. -/
theorem ordered_replaced (sub : Substitution s) (isGlobal : Bool) : Ordered s 0 (sub.replaced isGlobal) := by
  have hordered := sub.ordered
  unfold Substitution.replaced
  split
  · exact hordered
  · cases hfound : sub.found with
    | nil => exact Nat.zero_le _
    | cons m ms =>
      rw [hfound] at hordered
      exact ⟨hordered.1, hordered.2.1, hordered.2.2.le_length⟩

/-- A text has an insertion for each match. -/
theorem exists_inserted {o : ℕ} {ms : List Match} {t : List UInt8} (h : sub.textFrom o ms = some t) :
    ∃ inserted, ms.mapM sub.insertion = some inserted := by
  induction ms generalizing o t with
  | nil => exact ⟨[], rfl⟩
  | cons m ms ih =>
    obtain ⟨ins, hins, h⟩ := Option.bind_eq_some_iff.mp h
    obtain ⟨rest, hrest, -⟩ := Option.bind_eq_some_iff.mp h
    obtain ⟨inserted, hinserted⟩ := ih hrest
    exact ⟨ins :: inserted, by simp [hins, hinserted]⟩

/-- With an insertion for each match there is a text: the subject with what is inserted for what is matched. -/
theorem exists_text {o : ℕ} {ms : List Match} (hordered : Ordered s o ms) {inserted : List (List UInt8)}
    (h : ms.mapM sub.insertion = some inserted) :
    ∃ t, sub.textFrom o ms = some t ∧
      o + t.length + matchedLength ms = s.bytes.length + inserted.flatten.length := by
  induction ms generalizing o inserted with
  | nil =>
    obtain rfl : [] = inserted := Option.some.inj h
    refine ⟨_, rfl, ?_⟩
    have hle : o ≤ s.bytes.length := hordered
    have hlength := length_text hle le_rfl
    simp only [matchedLength, List.map_nil, List.sum_nil, List.flatten_nil, List.length_nil]
    omega
  | cons m ms ih =>
    obtain ⟨hle, hle', hrest⟩ := hordered
    rw [List.mapM_cons] at h
    obtain ⟨ins, hins, h⟩ := Option.bind_eq_some_iff.mp h
    obtain ⟨others, hothers, h⟩ := Option.bind_eq_some_iff.mp h
    obtain rfl := Option.some.inj h
    obtain ⟨rest, htext, hsum⟩ := ih hrest hothers
    refine ⟨text s o m.start ++ ins ++ rest, by simp [Substitution.textFrom, hins, htext], ?_⟩
    have hlength := length_text hle (hle'.trans hrest.le_length)
    simp only [matchedLength, List.map_cons, List.sum_cons, List.flatten_cons, List.length_append] at hsum ⊢
    omega

/-- The length of a substituted text. -/
theorem length_substituted {isGlobal : Bool} {t : List UInt8} {inserted : List (List UInt8)}
    (ht : sub.substituted isGlobal = some t) (h : (sub.replaced isGlobal).mapM sub.insertion = some inserted) :
    t.length + matchedLength (sub.replaced isGlobal) = s.bytes.length + inserted.flatten.length := by
  obtain ⟨t', ht', hsum⟩ := exists_text (ordered_replaced sub isGlobal) h
  obtain rfl := Option.some.inj (ht.symm.trans ht')
  rwa [Nat.zero_add] at hsum

/-! ## The size of the buffer -/

theorem outlen_of_lt {subject replacement : List UInt8} (hsubject : subject.length < 2^62)
    (hreplacement : replacement.length < 2^62) :
    outlen subject replacement = subject.length * 2 + replacement.length + 1 :=
  Nat.mod_eq_of_lt (by omega)

/-- A text is returned exactly when there is room for it. -/
theorem pcre2Substitute_eq_iff {isGlobal : Bool} {n : ℕ} {t : List UInt8} (ht : sub.substituted isGlobal = some t) :
    pcre2Substitute sub isGlobal n = some t ↔ t.length + 1 ≤ n := by
  unfold pcre2Substitute
  rw [ht, Option.filter_some]
  simp

/-- Every text is returned exactly when the insertions leave room. -/
theorem fits_iff (isGlobal : Bool) : sub.Fits isGlobal ↔ ∀ t, sub.substituted isGlobal = some t →
    pcre2Substitute sub isGlobal (outlen s.bytes sub.replacement) = some t := by
  constructor
  · intro hfits t ht
    obtain ⟨inserted, hinserted⟩ := exists_inserted ht
    have hlength := length_substituted ht hinserted
    have hroom := hfits inserted hinserted
    rw [pcre2Substitute_eq_iff ht]
    omega
  · intro hreturned inserted hinserted
    obtain ⟨t, ht, -⟩ := exists_text (ordered_replaced sub isGlobal) hinserted
    have hlength := length_substituted ht hinserted
    have hroom := (pcre2Substitute_eq_iff ht).mp (hreturned t ht)
    omega

/-- The parts that stand for themselves are in the source of the replacement. -/
theorem length_expand_of_literal {m : Match} {ps : List Piece} (hliteral : ∀ p ∈ ps, ∃ t, p = .literal t)
    {expanded : List (List UInt8)} (h : ps.mapM (Piece.expand m) = some expanded) :
    expanded.flatten.length = (ps.map Piece.sourceLength).sum := by
  induction ps generalizing expanded with
  | nil =>
    obtain rfl : [] = expanded := Option.some.inj h
    rfl
  | cons p ps ih =>
    obtain ⟨⟨t, rfl⟩, hrest⟩ := List.forall_mem_cons.mp hliteral
    rw [List.mapM_cons] at h
    obtain ⟨t', ht', h⟩ := Option.bind_eq_some_iff.mp h
    obtain ⟨others, hothers, h⟩ := Option.bind_eq_some_iff.mp h
    obtain rfl := Option.some.inj h
    obtain rfl : t = t' := Option.some.inj ht'
    rw [List.flatten_cons, List.length_append, ih hrest hothers]
    rfl

/-- `replace` has room for a replacement without references. -/
theorem fits_of_literal (hliteral : ∀ p ∈ sub.pieces, ∃ t, p = .literal t) (hsubject : s.bytes.length < 2^62)
    (hreplacement : sub.replacement.length < 2^62) : sub.Fits false := by
  intro inserted h
  rw [outlen_of_lt hsubject hreplacement]
  have hsource := sub.source
  -- there is at most one match
  obtain hnil | ⟨m, hone⟩ : sub.replaced false = [] ∨ ∃ m, sub.replaced false = [m] := by
    unfold Substitution.replaced
    cases sub.found with
    | nil => exact .inl rfl
    | cons m ms => exact .inr ⟨m, rfl⟩
  · rw [hnil] at h
    obtain rfl : [] = inserted := Option.some.inj h
    simp only [List.flatten_nil, List.length_nil]
    omega
  · rw [hone, List.mapM_cons] at h
    obtain ⟨ins, hins, h⟩ := Option.bind_eq_some_iff.mp h
    obtain rfl : [ins] = inserted := Option.some.inj h
    obtain ⟨expanded, hexpanded, rfl⟩ := Option.map_eq_some_iff.mp hins
    have hlength := length_expand_of_literal hliteral hexpanded
    simp only [List.flatten_cons, List.flatten_nil, List.append_nil]
    omega

/-! ## The theorem -/

/-- `replace` and `replace_all` return the text of every substitution that is defined exactly when its insertions leave
room for it in the buffer. -/
theorem replaces_iff {s : Subject} (sub : Substitution s) : Replaces sub ↔ sub.Fits false ∧ sub.Fits true := by
  rw [fits_iff, fits_iff]
  constructor
  · rintro ⟨hreplace, hall, -⟩
    exact ⟨hreplace, hall⟩
  · rintro ⟨hreplace, hall⟩
    exact ⟨hreplace, hall, outlen_of_lt⟩

/-- Each of the two letters of `aa` for eight letters `x`. -/
def eightForOne : Substitution ⟨['a', 'a'], by decide⟩ where
  replacement := List.replicate 8 120
  pieces := [.literal (List.replicate 8 120)]
  found := [⟨0, 1, []⟩, ⟨1, 2, []⟩]
  source := by decide
  ordered := by simp [Ordered, Subject.bytes]; decide

/-- The text of sixteen bytes has no room in the buffer of thirteen. -/
theorem not_forall_replaces : ¬∀ (s : Subject) (sub : Substitution s), Replaces sub := by
  intro h
  have hreplaced := (h _ eightForOne).replace_all (List.replicate 16 120) (by decide)
  have hnull : replaceAll eightForOne = none := by decide
  cases hnull.symm.trans hreplaced

end Regex

end Chloride
