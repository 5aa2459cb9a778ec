import Chloride.Containers.Fields
import Chloride.Containers.OrderedMap
import Chloride.Numerics.Formatting
import Chloride.Objects.Buffers
import Chloride.Objects.StringCuts
import Chloride.Objects.StringSplit
import Chloride.Runtime.Computation

/-!
# The lines of an HTTP header

`__http_parse_header_block__` of `stdlib/network/init.ar`. Of the status line it makes a list of two parts and asks for
a third one, so that the reason phrase is always empty. A line is cut at its first `: `, which may be in the value, and
only without one at its first colon; and what is behind a `: ` keeps its blanks. `header_block_iff` says for which
blocks the result is right.
-/

namespace Chloride

namespace HttpHeaderBlock

open StringCuts Substring Splitting
open Buffers (partition foundAt_eq)

/-- The bytes of a buffer or a string. -/
abbrev Buffer := List UInt8

def blank : UInt8 := byte ' '

def colon : UInt8 := byte ':'

/-- `__CRLF__` -/
def crlf : Buffer := [13, 10]

/-- `__COLON_SPACE__` -/
def colonSpace : Buffer := [colon, blank]

/-! ## The function -/

/-- `s.split(d)` of a buffer. No buffer is longer than its size can say. -/
def splitBuffer (s d : Buffer) : ExceptT ArErr Option (List Buffer) :=
  if h : s.length < 2^63 ∧ d.length < 2^63 then ExceptT.mk (StringSplit.bufferSplit ⟨s, h.1⟩ ⟨d, h.2⟩)
  else ExceptT.mk none

/-- `s.split(d)` of a string. -/
def splitString (s d : Buffer) : ExceptT ArErr Option (List Buffer) :=
  if h : s.length < 2^63 ∧ d.length < 2^63 then ExceptT.mk (StringSplit.split ⟨s, h.1⟩ ⟨d, h.2⟩ none)
  else ExceptT.mk none

/-- `list[i]` -/
def item (list : List Buffer) (i : ℕ) : ExceptT ArErr Option Buffer :=
  ExceptT.mk (some (list[i]?.elim (.error ⟨"IndexError", "index out of range"⟩) .ok))

/-- The key and the value of a line, `none` where the loop continues. -/
def parseLine (line : Buffer) : Option (Buffer × Buffer) :=
  if line.length = 0 then none
  else
    let parts := partition line colonSpace
    if parts.2.1.length > 0 then some (parts.1, parts.2.2)
    else
      let alt := partition line [colon]
      if alt.2.1.length = 0 then none
      else some (alt.1, stripBytes alt.2.2 [blank])

/-- The loop over the lines. -/
def parseLines (lines : List Buffer) (headers : OrderedMap Buffer Buffer) : OrderedMap Buffer Buffer :=
  lines.foldl (fun headers line => (parseLine line).elim headers fun e => headers.insert e.1 e.2) headers

/-- The dictionary that is returned. -/
structure ParsedHeader where
  status : Number
  statusText : Buffer
  headers : OrderedMap Buffer Buffer

def httpParseHeaderBlock (headerBlock : Buffer) : ExceptT ArErr Option ParsedHeader := do
  let headerLines ← splitBuffer headerBlock crlf
  let statusLine ← item headerLines 0
  let spacing ← indexOf statusLine [blank]
  let statusParts := [← slice statusLine none (some spacing), ← slice statusLine (some (spacing + 1)) none]
  let words ← splitString (← item statusParts 1) [blank]
  let status ← ExceptT.mk (numberOfString (← item words 0))
  let statusText ← if statusParts.length > 2 then item statusParts 2 else pure []
  return { status, statusText, headers := parseLines headerLines.tail .empty }

/-! ## What it should do -/

/-- A line behind the status line: a name and a value, or no colon. -/
inductive Line where
  | field (name value : Buffer) (name_ne : name ≠ []) (name_plain : colon ∉ name)
  | other (text : Buffer) (plain : colon ∉ text)

def Line.text : Line → Buffer
  | .field name value _ _ => name ++ colon :: value
  | .other text _ => text

/-- A header block in memory. -/
structure Block where
  version : Buffer
  code : Buffer
  reason : Buffer
  lines : List Line
  version_plain : blank ∉ version
  code_ne : code ≠ []
  code_digits : ∀ c ∈ code, isDigit c = true

namespace Block

variable (b : Block)

def statusLine : Buffer := b.version ++ blank :: (b.code ++ blank :: b.reason)

/-- The lines as they are written. -/
def texts : List Buffer := b.statusLine :: b.lines.map Line.text

def text : Buffer := crlf.intercalate b.texts

/-- The block has room in memory, and its lines end where they should. -/
structure Proper : Prop where
  short : Short b.text
  lines : ∀ l ∈ b.texts, ¬crlf <:+: l

end Block

/-- A value without the blanks around it. -/
def trimmed (value : Buffer) : Buffer := (value.dropWhile (· = blank)).rdropWhile (· = blank)

/-- The value of a line under a name. -/
def Line.valueOf (name : Buffer) : Line → Option Buffer
  | .field n value _ _ => if n = name then some value else none
  | .other _ _ => none

/-- The value of the last line with a name. -/
def lastValue (lines : List Line) (name : Buffer) : Option Buffer := lines.reverse.findSome? (Line.valueOf name)

/-- The function should return the code, the reason phrase, and for each name its last value without blanks. -/
def Parses (b : Block) : Prop := ∃ r, (httpParseHeaderBlock b.text).run = some (.ok r) ∧
  r.status = numberOf (mpzSetStr b.code 10) ∧ r.statusText = b.reason ∧
    ∀ name, r.headers.lookup name = (lastValue b.lines name).map trimmed

/-- A value that is cut: no blank is behind the colon before it, and a colon and a blank are in it. -/
def Cut (value : Buffer) : Prop := value.head? ≠ some blank ∧ colonSpace <:+: value

/-- A value whose blanks are taken off: behind a first one there is no other one, and none at the end. -/
def Clean (value : Buffer) : Prop := ∀ rest, value = blank :: rest → rest.head? ≠ some blank ∧ rest.getLast? ≠ some blank

/-- There is no reason phrase, no line has a value that is cut, and the last value of each name is clean. -/
structure Plain (b : Block) : Prop where
  reason : b.reason = []
  cut : ∀ name value hne hplain, .field name value hne hplain ∈ b.lines → ¬Cut value
  clean : ∀ name value, lastValue b.lines name = some value → Clean value

/-! ## One line -/

variable {name value : Buffer}

/-- `partition` cuts at the first occurrence. -/
theorem partition_eq (self part : Buffer) :
    partition self part = (cutAt part self).elim (self, [], []) fun parts => (parts.1, part, parts.2) := by
  unfold partition cutAt
  rw [foundAt_eq]
  cases firstFrom part self 0 <;> rfl

theorem stripBytes_eq (value : Buffer) : stripBytes value [blank] = trimmed value := by
  have hmem : (fun c => decide (c ∈ [blank])) = fun c => decide (c = blank) := by simp
  unfold stripBytes trimmed
  rw [hmem]
  split
  next h =>
    rcases h with rfl | h
    · rfl
    · cases h
  next => rfl

/-- The first colon of a line is behind its name. -/
theorem colonSpace_cases (hname : colon ∉ name) {x y : Buffer} (h : name ++ colon :: value = x ++ (colonSpace ++ y)) :
    x = name ∧ value = blank :: y ∨ ∃ w, x = name ++ colon :: w ∧ value = w ++ (colonSpace ++ y) := by
  rcases List.append_eq_append_iff.mp h with ⟨w, hx, hw⟩ | ⟨w, hx, hw⟩
  · cases w with
    | nil => exact .inl ⟨by rw [hx, List.append_nil], List.tail_eq_of_cons_eq hw⟩
    | cons c w =>
      obtain rfl := List.head_eq_of_cons_eq hw
      exact .inr ⟨w, hx, List.tail_eq_of_cons_eq hw⟩
  · cases w with
    | nil => exact .inl ⟨by rw [hx, List.append_nil], (List.tail_eq_of_cons_eq hw).symm⟩
    | cons c w =>
      obtain rfl := List.head_eq_of_cons_eq hw
      exact absurd (hx ▸ List.mem_append_right _ List.mem_cons_self) hname

/-- A line without a colon is ignored. -/
theorem parseLine_of_not_mem {line : Buffer} (h : colon ∉ line) : parseLine line = none := by
  have hspace : cutAt colonSpace line = none :=
    cutAt_eq_none_iff.mpr fun hwithin => h (hwithin.subset List.mem_cons_self)
  have hcolon : cutAt [colon] line = none :=
    cutAt_eq_none_iff.mpr fun hwithin => h (hwithin.subset List.mem_cons_self)
  unfold parseLine
  rw [partition_eq, partition_eq, hspace, hcolon]
  exact ite_self _

theorem parseLine_of_cutAt {x y : Buffer} {line : Buffer} (hne : line ≠ []) (h : cutAt colonSpace line = some (x, y)) :
    parseLine line = some (x, y) := by
  unfold parseLine
  rw [if_neg (mt List.length_eq_zero_iff.mp hne), partition_eq, h]
  rfl

/-- The value behind a colon and a blank. -/
theorem parseLine_of_blank (hname : colon ∉ name) (rest : Buffer) :
    parseLine (name ++ colon :: blank :: rest) = some (name, rest) :=
  parseLine_of_cutAt (by simp) (cutAt_append hname rest)

/-- The value behind a colon. -/
theorem parseLine_of_not_cut (hname : colon ∉ name) (hhead : value.head? ≠ some blank) (hcut : ¬Cut value) :
    parseLine (name ++ colon :: value) = some (name, trimmed value) := by
  have hspace : cutAt colonSpace (name ++ colon :: value) = none := by
    rw [cutAt_eq_none_iff]
    rintro ⟨x, y, hxy⟩
    rw [List.append_assoc] at hxy
    rcases colonSpace_cases hname hxy.symm with ⟨-, rfl⟩ | ⟨w, -, rfl⟩
    · exact hhead rfl
    · exact hcut ⟨hhead, w, y, List.append_assoc ..⟩
  have hcolon : cutAt [colon] (name ++ colon :: value) = some (name, value) := cutAt_append hname value
  unfold parseLine
  rw [if_neg (by simp), partition_eq, partition_eq, hspace, hcolon]
  exact congrArg (fun v => some (name, v)) (stripBytes_eq value)

/-- A value that is cut gives a part of itself to the key. -/
theorem parseLine_of_cut (hname : colon ∉ name) (hcut : Cut value) :
    ∃ key v, parseLine (name ++ colon :: value) = some (key, v) ∧ colon ∈ key := by
  obtain ⟨hhead, hwithin⟩ := hcut
  have hline : colonSpace <:+: name ++ colon :: value :=
    hwithin.trans ((List.suffix_cons colon value).trans (List.suffix_append name _)).isInfix
  cases h : cutAt colonSpace (name ++ colon :: value) with
  | none => exact absurd hline (cutAt_eq_none_iff.mp h)
  | some p =>
    obtain ⟨x, y⟩ := p
    refine ⟨x, y, parseLine_of_cutAt (by simp) h, ?_⟩
    rcases colonSpace_cases hname (eq_append_of_cutAt h) with ⟨-, rfl⟩ | ⟨w, rfl, -⟩
    · exact absurd rfl hhead
    · exact List.mem_append_right _ List.mem_cons_self

/-- What is read of a value that is not cut. -/
def readValue (value : Buffer) : Buffer := if value.head? = some blank then value.tail else trimmed value

/-- The entry of a line whose value is not cut. -/
def Line.entry : Line → Option (Buffer × Buffer)
  | .field name value _ _ => some (name, readValue value)
  | .other _ _ => none

/-- No value of the lines is cut. -/
def Uncut (lines : List Line) : Prop := ∀ name value hne hplain, .field name value hne hplain ∈ lines → ¬Cut value

theorem parseLine_text {lines : List Line} (huncut : Uncut lines) {l : Line} (hl : l ∈ lines) :
    parseLine l.text = l.entry := by
  cases l with
  | field name value hne hplain =>
    show parseLine (name ++ colon :: value) = some (name, readValue value)
    unfold readValue
    split
    next hhead =>
      obtain ⟨rest, rfl⟩ := List.head?_eq_some_iff.mp hhead
      exact parseLine_of_blank hplain rest
    next hhead => exact parseLine_of_not_cut hplain hhead (huncut _ _ hne hplain hl)
  | other text hplain => exact parseLine_of_not_mem hplain

/-! ## The dictionary -/

/-- The value that a line gives to a name. -/
def given (name line : Buffer) : Option Buffer := (parseLine line).bind fun e => if e.1 = name then some e.2 else none

/-- The last line that gives a value to a name decides. -/
theorem lookup_parseLines (lines : List Buffer) (headers : OrderedMap Buffer Buffer) (name : Buffer) :
    (parseLines lines headers).lookup name = (lines.reverse.findSome? (given name)).or (headers.lookup name) := by
  induction lines generalizing headers with
  | nil => rfl
  | cons line lines ih =>
    have hstep : ((parseLine line).elim headers fun e => headers.insert e.1 e.2).lookup name =
        (given name line).or (headers.lookup name) := by
      unfold given
      cases parseLine line with
      | none => rfl
      | some e =>
        obtain ⟨key, v⟩ := e
        by_cases hkey : key = name
        · subst hkey
          simp [OrderedMap.lookup_insert_self]
        · simp [hkey, OrderedMap.lookup_insert_of_ne _ (Ne.symm hkey)]
    have hrest := ih ((parseLine line).elim headers fun e => headers.insert e.1 e.2)
    rw [hstep, ← Option.or_assoc] at hrest
    rw [List.reverse_cons, List.findSome?_append, List.findSome?_singleton]
    exact hrest

/-- Where no value is cut, the last value of each name is read. -/
theorem lookup_of_uncut {lines : List Line} (huncut : Uncut lines) (name : Buffer) :
    (parseLines (lines.map Line.text) .empty).lookup name = (lastValue lines name).map readValue := by
  have hgiven : ∀ l ∈ lines, given name l.text = (l.valueOf name).map readValue := by
    intro l hl
    unfold given
    rw [parseLine_text huncut hl]
    cases l with
    | field n value =>
      show (if n = name then some (readValue value) else none) = Option.map readValue (if n = name then some value else none)
      split <;> rfl
    | other => rfl
  rw [lookup_parseLines, OrderedMap.lookup_empty, Option.or_none, lastValue]
  clear huncut
  induction lines using List.reverseRecOn with
  | nil => rfl
  | append_singleton lines l ih =>
    have hrest := ih fun l' hl' => hgiven l' (List.mem_append_left _ hl')
    have hlast := hgiven l (List.mem_append_right _ List.mem_cons_self)
    simp only [List.map_append, List.map_cons, List.map_nil, List.reverse_append, List.reverse_cons, List.reverse_nil,
      List.nil_append, List.singleton_append, List.findSome?_cons, hlast] at hrest ⊢
    cases l.valueOf name with
    | none => exact hrest
    | some v => rfl

/-- A name has no colon. -/
theorem lastValue_of_mem (lines : List Line) (hname : colon ∈ name) : lastValue lines name = none := by
  rw [lastValue, List.findSome?_eq_none_iff]
  intro l _
  cases l with
  | field n value hne hplain =>
    refine if_neg ?_
    rintro rfl
    exact hplain hname
  | other => rfl

/-- A value that is cut makes a key with a colon. -/
theorem uncut_of_lookup {lines : List Line}
    (h : ∀ name, (parseLines (lines.map Line.text) .empty).lookup name = (lastValue lines name).map trimmed) :
    Uncut lines := by
  intro name value hne hplain hmem hcut
  obtain ⟨key, v, hparse, hkey⟩ := parseLine_of_cut hplain hcut
  have hnone := h key
  rw [lastValue_of_mem lines hkey, lookup_parseLines, OrderedMap.lookup_empty, Option.or_none, Option.map_none,
    List.findSome?_eq_none_iff] at hnone
  have hline := hnone (name ++ colon :: value) (List.mem_reverse.mpr (List.mem_map_of_mem hmem))
  rw [given, hparse, Option.bind_some, if_pos rfl] at hline
  cases hline

/-! ## Blanks -/

theorem dropWhile_blank_iff {w : Buffer} : w.dropWhile (· = blank) = w ↔ w.head? ≠ some blank := by
  cases w with
  | nil => simp
  | cons c w =>
    rw [List.dropWhile_eq_self_iff]
    simp

theorem rdropWhile_blank_iff {w : Buffer} : w.rdropWhile (· = blank) = w ↔ w.getLast? ≠ some blank := by
  rw [List.rdropWhile_eq_self_iff]
  constructor
  · intro h hlast
    have hne : w ≠ [] := by
      rintro rfl
      cases hlast
    rw [List.getLast?_eq_some_getLast hne] at hlast
    exact h hne (by simpa using Option.some.inj hlast)
  · intro h hne hlast
    exact h (by rw [List.getLast?_eq_some_getLast hne, of_decide_eq_true hlast])

/-- Nothing is taken off exactly when there is no blank at either end. -/
theorem trimmed_eq_self_iff {w : Buffer} : trimmed w = w ↔ w.head? ≠ some blank ∧ w.getLast? ≠ some blank := by
  rw [← dropWhile_blank_iff, ← rdropWhile_blank_iff]
  unfold trimmed
  constructor
  · intro h
    have hprefix : trimmed w <+: w.dropWhile (· = blank) := List.rdropWhile_prefix ..
    have hsuffix := List.dropWhile_suffix (· = blank) (l := w)
    have hdrop : w.dropWhile (· = blank) = w := by
      apply hsuffix.eq_of_length_le
      rw [trimmed, h] at hprefix
      exact hprefix.length_le
    rw [hdrop] at h
    exact ⟨hdrop, h⟩
  · rintro ⟨hdrop, hlast⟩
    rw [hdrop, hlast]

/-- A value is read without its blanks exactly when it is clean. -/
theorem readValue_eq_iff : trimmed value = readValue value ↔ Clean value := by
  unfold readValue Clean
  split
  next hhead =>
    obtain ⟨rest, rfl⟩ := List.head?_eq_some_iff.mp hhead
    have htrimmed : trimmed (blank :: rest) = trimmed rest := by
      unfold trimmed
      rw [List.dropWhile_cons_of_pos (by simp)]
    rw [htrimmed, List.tail_cons, trimmed_eq_self_iff]
    constructor
    · rintro h rest' heq
      cases heq
      exact h
    · exact fun h => h rest rfl
  next hhead =>
    refine iff_of_true rfl ?_
    rintro rest rfl
    exact absurd rfl hhead

/-! ## The status line -/

theorem not_infix_append_cr {l : Buffer} (h : ¬crlf <:+: l) : ¬crlf <:+: l ++ [13] := by
  rintro ⟨x, y, hxy⟩
  rcases List.eq_nil_or_concat y with rfl | ⟨y, c, rfl⟩
  · have hlast := congrArg List.getLast? hxy
    simp [crlf] at hlast
  · rw [List.concat_eq_append, ← List.append_assoc] at hxy
    exact h ⟨x, y, (List.append_inj' hxy rfl).1⟩

namespace Block

variable {b : Block}

/-- The lines are split where they end. -/
theorem splitBuffer_text (hb : b.Proper) : (splitBuffer b.text crlf).run = some (.ok b.texts) := by
  have hlength : b.text.length < 2^63 ∧ crlf.length < 2^63 := by
    have hshort := hb.short
    unfold Short at hshort
    exact ⟨by omega, by decide⟩
  have hpieces : allPieces crlf b.text = b.texts :=
    allPieces_intercalate_of_not_infix (by decide) (List.cons_ne_nil _ _) fun l hl => not_infix_append_cr (hb.lines l hl)
  have hsplit := StringSplit.bufferSplit_spec ⟨b.text, hlength.1⟩ (d := ⟨crlf, hlength.2⟩) (List.cons_ne_nil _ _)
  rw [hpieces] at hsplit
  unfold splitBuffer
  rw [dif_pos hlength]
  exact hsplit

theorem short_statusLine (hb : b.Proper) : Short b.statusLine := by
  have htext : ∃ z, b.text = b.statusLine ++ z := by
    unfold text texts
    rcases eq_or_ne (b.lines.map Line.text) [] with hnil | hne
    · rw [hnil, List.intercalate_singleton]
      exact ⟨[], (List.append_nil _).symm⟩
    · rw [intercalate_cons hne, List.append_assoc]
      exact ⟨_, rfl⟩
  obtain ⟨z, hz⟩ := htext
  have hshort := hb.short
  rw [hz] at hshort
  exact (Short.of_append hshort).1

/-- The first word behind the version is the code. -/
theorem splitString_code (hshort : Short (b.code ++ blank :: b.reason)) :
    ∃ words, (splitString (b.code ++ blank :: b.reason) [blank]).run = some (.ok (b.code :: words)) := by
  have hlength : (b.code ++ blank :: b.reason).length < 2^63 ∧ [blank].length < 2^63 := by
    unfold Short at hshort
    exact ⟨by omega, by decide⟩
  have hcode : blank ∉ b.code := fun hmem => Bool.false_ne_true (b.code_digits blank hmem)
  have hsplit : StringSplit.split ⟨_, hlength.1⟩ ⟨[blank], hlength.2⟩ none = _ :=
    StringSplit.split_spec _ (List.cons_ne_nil _ _) nofun
  have hlimit : (b.code ++ blank :: b.reason).length ≤ StringSplit.limit none := by
    show _ ≤ 2^64 - 1
    omega
  rw [pieces_of_length_le hlimit, Fields.allPieces_append, Fields.allPieces_of_not_mem hcode] at hsplit
  refine ⟨allPieces [blank] b.reason, ?_⟩
  unfold splitString
  rw [dif_pos hlength]
  exact hsplit

/-- What the function returns. -/
theorem run_httpParseHeaderBlock (hb : b.Proper) : (httpParseHeaderBlock b.text).run =
    some (.ok ⟨numberOf (mpzSetStr b.code 10), [], parseLines (b.lines.map Line.text) .empty⟩) := by
  have hshort := short_statusLine hb
  have hcut : cutAt [blank] b.statusLine = some (b.version, b.code ++ blank :: b.reason) :=
    cutAt_append b.version_plain _
  obtain ⟨hindex, -, hto, -, hfrom⟩ := indexOf_of_cutAt hshort (by decide) hcut
  have hadd : Int64.ofNat b.version.length + 1 = Int64.ofNat (b.version.length + [blank].length) := by
    rw [Int64.ofNat_add]
    rfl
  have hrest : Short (b.code ++ blank :: b.reason) := by
    apply hshort.of_length_le
    unfold statusLine
    simp only [List.length_append, List.length_cons]
    omega
  obtain ⟨words, hwords⟩ := splitString_code hrest
  refine run_bind_eq_ok.mpr ⟨_, splitBuffer_text hb, run_bind_eq_ok.mpr ⟨b.statusLine, rfl, ?_⟩⟩
  refine run_bind_eq_ok.mpr ⟨_, hindex, run_bind_eq_ok.mpr ⟨_, hto, ?_⟩⟩
  rw [hadd]
  refine run_bind_eq_ok.mpr ⟨_, hfrom, run_bind_eq_ok.mpr ⟨_, rfl, ?_⟩⟩
  refine run_bind_eq_ok.mpr ⟨_, hwords, run_bind_eq_ok.mpr ⟨_, rfl, ?_⟩⟩
  exact run_bind_eq_ok.mpr ⟨_, numberOfString_decimal b.code_ne b.code_digits, rfl⟩

end Block

/-! ## The theorem -/

/-- The result is right exactly when the reason phrase is empty, no line has a value that is cut, and the last value of
each name is clean. -/
theorem header_block_iff (b : {b : Block // b.Proper}) : Parses b.1 ↔ Plain b.1 := by
  obtain ⟨b, hb⟩ := b
  have hrun := Block.run_httpParseHeaderBlock hb
  constructor
  · rintro ⟨r, hr, -, hreason, hlookup⟩
    obtain rfl := Except.ok.inj (Option.some.inj (hrun.symm.trans hr))
    have huncut : Uncut b.lines := uncut_of_lookup hlookup
    refine ⟨hreason.symm, huncut, fun name value hvalue => ?_⟩
    have hname := hlookup name
    dsimp only at hname
    rw [lookup_of_uncut huncut, hvalue] at hname
    exact readValue_eq_iff.mp (Option.some.inj hname).symm
  · rintro ⟨hreason, huncut, hclean⟩
    refine ⟨_, hrun, rfl, hreason.symm, fun name => ?_⟩
    dsimp only
    rw [lookup_of_uncut huncut]
    cases hvalue : lastValue b.lines name with
    | none => rfl
    | some value => exact congrArg some (readValue_eq_iff.mpr (hclean name value hvalue)).symm

/-- `V 2 OK` -/
def okBlock : Block where
  version := [86]
  code := [50]
  reason := [79, 75]
  lines := []
  version_plain := by decide
  code_ne := by decide
  code_digits := List.forall_mem_singleton.mpr rfl

/-- The reason phrase is not found. -/
theorem not_forall_parses : ¬∀ b : {b : Block // b.Proper}, Parses b.1 := by
  intro h
  have htexts : okBlock.texts = [okBlock.statusLine] := rfl
  have hproper : okBlock.Proper := by
    constructor
    · decide
    · rw [htexts, List.forall_mem_singleton]
      decide
  obtain ⟨r, hr, -, hreason, -⟩ := h ⟨okBlock, hproper⟩
  obtain rfl := Except.ok.inj (Option.some.inj ((Block.run_httpParseHeaderBlock hproper).symm.trans hr))
  cases hreason

end HttpHeaderBlock

end Chloride
