import Chloride.Numerics.Formatting
import Chloride.Objects.StringCuts
import Chloride.Runtime.Computation

/-!
# The parts of a URL

`__http_parse_url__` of `stdlib/network/init.ar`, which cuts a URL at the first `://`, what is behind that at the first
`/`, and what is before that at the first `:`. It finds the parts again exactly when a query has a path before it, whose
slash ends the host, and a URL without a scheme has no `://` in its path or its query (`url_parts_iff`).
-/

namespace Chloride

namespace HttpUrl

open StringCuts
open Substring (cutAt cutAt_append cutAt_eq_none_iff eq_append_of_cutAt)

/-- A string. -/
abbrev Str := List UInt8

def colon : UInt8 := byte ':'

def slash : UInt8 := byte '/'

/-- The end of a scheme. -/
def schemeEnd : Str := [colon, slash, slash]

def schemeHttp : Str := [byte 'h', byte 't', byte 't', byte 'p']

def schemeHttps : Str := [byte 'h', byte 't', byte 't', byte 'p', byte 's']

/-! ## The function -/

/-- The scheme, and what is behind it. -/
def splitScheme (url : Str) : ExceptT ArErr Option (Str × Str) := do
  let partPos ← indexOf url schemeEnd
  if partPos ≥ 0 then return (← slice url none (some partPos), ← slice url (some (partPos + 3)) none)
  else return (schemeHttp, url)

/-- The path, and what is before it. -/
def splitPath (rest : Str) : ExceptT ArErr Option (Str × Str) := do
  let idx ← indexOf rest [slash]
  if idx ≥ 0 then return (← slice rest (some idx) none, ← slice rest none (some idx))
  else return ([slash], rest)

/-- The host and the port. -/
def splitPort (scheme rest : Str) : ExceptT ArErr Option (Str × Number) := do
  let port : Number := if scheme = schemeHttps then .i64 443 else .i64 80
  let colonPart ← indexOf rest [colon]
  if colonPart ≥ 0 then
    let host ← slice rest none (some colonPart)
    let text ← slice rest (some (colonPart + 1)) none
    return (host, ← ExceptT.mk (numberOfString text))
  else return (rest, port)

/-- The dictionary that is returned. -/
structure ParsedUrl where
  scheme : Str
  host : Str
  port : Number
  path : Str

def httpParseUrl (url : Str) : ExceptT ArErr Option ParsedUrl := do
  let (scheme, rest) ← splitScheme url
  let (path, rest) ← splitPath rest
  let (host, port) ← splitPort scheme rest
  return { scheme, host, port, path }

/-! ## What it should do -/

/-- The parts of a URL, which has room in memory. -/
structure Parts where
  scheme : Option Str
  host : Str
  port : Option Str
  path : Str
  query : Option Str
  scheme_letters : ∀ s ∈ scheme, ∀ c ∈ s, (byte 'a' ≤ c ∧ c ≤ byte 'z') ∨ (byte 'A' ≤ c ∧ c ≤ byte 'Z')
  host_ne : host ≠ []
  host_plain : colon ∉ host ∧ slash ∉ host ∧ byte '?' ∉ host
  port_digits : ∀ d ∈ port, d ≠ [] ∧ ∀ c ∈ d, isDigit c = true
  path_slash : path = [] ∨ ∃ p, path = slash :: p

namespace Parts

variable (u : Parts)

/-- The scheme as it is written. -/
def schemeText : Str := u.scheme.elim [] (· ++ schemeEnd)

/-- The host and the port as they are written. -/
def hostText : Str := u.host ++ u.port.elim [] (colon :: ·)

/-- The query as it is written. -/
def queryText : Str := u.query.elim [] (byte '?' :: ·)

/-- The path and the query as they are written. -/
def target : Str := u.path ++ u.queryText

/-- The URL. -/
def text : Str := u.schemeText ++ (u.hostText ++ u.target)

/-- What should be found. -/
def parsed : ParsedUrl where
  scheme := u.scheme.getD schemeHttp
  host := u.host
  port := match u.port with
    | some d => numberOf (mpzSetStr d 10)
    | none => if u.scheme.getD schemeHttp = schemeHttps then .i64 443 else .i64 80
  path := (if u.path = [] then [slash] else u.path) ++ u.queryText

/-- A query has a path before it, and without a scheme there is no `://` in the path and the query. -/
def Plain : Prop := (u.path = [] → u.query = none) ∧ (u.scheme = none → ¬schemeEnd <:+: u.target)

end Parts

/-! ## What the function does -/

variable {x y : Str}

/-- The scheme is what is before the first `://`. -/
def schemeParts (url : Str) : Str × Str := (cutAt schemeEnd url).getD (schemeHttp, url)

/-- The path starts with the first `/`. -/
def pathParts (rest : Str) : Str × Str := ((cutAt [slash] rest).map fun p => (slash :: p.2, p.1)).getD ([slash], rest)

theorem splitScheme_eq {url : Str} (hs : Short url) : (splitScheme url).run = some (.ok (schemeParts url)) := by
  have hend : Short schemeEnd := by decide
  unfold splitScheme schemeParts
  cases h : cutAt schemeEnd url with
  | none =>
    refine run_bind_eq_ok.mpr ⟨_, indexOf_of_cutAt_eq_none hs hend h, ?_⟩
    rw [if_neg (by decide)]
    rfl
  | some p =>
    obtain ⟨x, y⟩ := p
    obtain ⟨hindex, hpos, hto, -, hfrom⟩ := indexOf_of_cutAt hs hend h
    have hadd : Int64.ofNat x.length + 3 = Int64.ofNat (x.length + schemeEnd.length) := by
      rw [Int64.ofNat_add]
      rfl
    refine run_bind_eq_ok.mpr ⟨_, hindex, ?_⟩
    rw [if_pos hpos, hadd]
    exact run_bind_eq_ok.mpr ⟨_, hto, run_bind_eq_ok.mpr ⟨_, hfrom, rfl⟩⟩

theorem splitPath_eq {rest : Str} (hs : Short rest) : (splitPath rest).run = some (.ok (pathParts rest)) := by
  have hslash : Short [slash] := by decide
  unfold splitPath pathParts
  cases h : cutAt [slash] rest with
  | none =>
    refine run_bind_eq_ok.mpr ⟨_, indexOf_of_cutAt_eq_none hs hslash h, ?_⟩
    rw [if_neg (by decide)]
    rfl
  | some p =>
    obtain ⟨x, y⟩ := p
    obtain ⟨hindex, hpos, hto, hfrom, -⟩ := indexOf_of_cutAt hs hslash h
    refine run_bind_eq_ok.mpr ⟨_, hindex, ?_⟩
    rw [if_pos hpos]
    exact run_bind_eq_ok.mpr ⟨_, hfrom, run_bind_eq_ok.mpr ⟨_, hto, rfl⟩⟩

theorem short_schemeParts {url : Str} (hs : Short url) : Short (schemeParts url).2 := by
  unfold schemeParts
  cases h : cutAt schemeEnd url with
  | none => exact hs
  | some p =>
    obtain rfl := eq_append_of_cutAt h
    rw [← List.append_assoc] at hs
    exact (Short.of_append hs).2

/-- What the function returns. -/
theorem httpParseUrl_eq_ok {url : Str} (hs : Short url) {r : ParsedUrl} : (httpParseUrl url).run = some (.ok r) ↔
    r.scheme = (schemeParts url).1 ∧ r.path = (pathParts (schemeParts url).2).1 ∧
      (splitPort (schemeParts url).1 (pathParts (schemeParts url).2).2).run = some (.ok (r.host, r.port)) := by
  obtain ⟨scheme, host, port, path⟩ := r
  unfold httpParseUrl
  rw [run_bind_eq_ok]
  constructor
  · rintro ⟨a, ha, h⟩
    obtain rfl := Except.ok.inj (Option.some.inj ((splitScheme_eq hs).symm.trans ha))
    obtain ⟨b, hb, h⟩ := run_bind_eq_ok.mp h
    obtain rfl := Except.ok.inj (Option.some.inj ((splitPath_eq (short_schemeParts hs)).symm.trans hb))
    obtain ⟨c, hc, h⟩ := run_bind_eq_ok.mp h
    cases h
    exact ⟨rfl, rfl, hc⟩
  · rintro ⟨rfl, rfl, hport⟩
    refine ⟨_, splitScheme_eq hs, run_bind_eq_ok.mpr ⟨_, splitPath_eq (short_schemeParts hs), ?_⟩⟩
    exact run_bind_eq_ok.mpr ⟨_, hport, rfl⟩

/-! ## The places of the cuts -/

namespace Parts

variable {u : Parts}

theorem isDigit_of_mem_port {d : Str} (hd : u.port = some d) {c : UInt8} (hc : c ∈ d) : isDigit c = true :=
  (u.port_digits d hd).2 c hc

theorem slash_not_mem_hostText : slash ∉ u.hostText := by
  obtain ⟨-, hslash, -⟩ := u.host_plain
  unfold hostText
  cases hport : u.port with
  | none => simpa using hslash
  | some d =>
    have hdigit : slash ∉ d := fun hmem => Bool.false_ne_true (isDigit_of_mem_port hport hmem)
    have hcolon : slash ≠ colon := by decide
    simp [hslash, hdigit, hcolon]

theorem getLast?_hostText : u.hostText.getLast? ≠ some colon := by
  obtain ⟨hcolon, -, -⟩ := u.host_plain
  unfold hostText
  cases hport : u.port with
  | none =>
    intro hlast
    exact hcolon (List.mem_of_getLast? (by simpa using hlast))
  | some d =>
    intro hlast
    have hne := (u.port_digits d hport).1
    rw [Option.elim_some, List.getLast?_append_of_ne_nil _ (List.cons_ne_nil _ _),
      List.getLast?_cons_of_ne_nil hne] at hlast
    exact Bool.false_ne_true (isDigit_of_mem_port hport (List.mem_of_getLast? hlast))

/-- The path and the query start with their marks. -/
theorem head?_target : ∀ c ∈ u.target.head?, c = slash ∨ c = byte '?' := by
  intro c hc
  unfold target queryText at hc
  rcases u.path_slash with hpath | ⟨p, hpath⟩
  · rw [hpath] at hc
    cases hquery : u.query with
    | none => simp [hquery] at hc
    | some q =>
      simp only [hquery, Option.elim_some, List.nil_append, List.head?_cons, Option.mem_some_iff] at hc
      exact .inr hc.symm
  · simp only [hpath, List.cons_append, List.head?_cons, Option.mem_some_iff] at hc
    exact .inl hc.symm

/-- An occurrence of `://` behind a host is in the path or the query. -/
theorem exists_target_of_schemeEnd (h : u.hostText ++ u.target = x ++ (schemeEnd ++ y)) :
    ∃ w, x = u.hostText ++ w ∧ u.target = w ++ (schemeEnd ++ y) := by
  have hsplit : u.hostText ++ u.target = x ++ [colon] ++ (slash :: slash :: y) := by
    rw [h, List.append_assoc]
    rfl
  have hlast : u.hostText ≠ x ++ [colon] := by
    intro heq
    apply getLast?_hostText
    rw [heq, List.getLast?_concat]
  rcases List.append_eq_append_iff.mp hsplit with ⟨w, hx, htarget⟩ | ⟨w, hhost, htarget⟩
  · rcases List.eq_nil_or_concat w with rfl | ⟨w, c, rfl⟩
    · rw [List.append_nil] at hx
      exact absurd hx.symm hlast
    · rw [List.concat_eq_append, ← List.append_assoc] at hx
      obtain ⟨hbefore, hc⟩ := List.append_inj' hx rfl
      obtain rfl := List.head_eq_of_cons_eq hc
      refine ⟨w, hbefore, ?_⟩
      rw [htarget, List.concat_eq_append, List.append_assoc]
      rfl
  · cases w with
    | nil =>
      rw [List.append_nil] at hhost
      exact absurd hhost hlast
    | cons c w =>
      obtain rfl := List.head_eq_of_cons_eq htarget
      exact absurd (hhost ▸ List.mem_append_right _ List.mem_cons_self) slash_not_mem_hostText

/-! ## The parts that are found -/

/-- What is behind the scheme is found, unless there is none and a `://` is behind the host. -/
theorem schemeParts_text (h : u.scheme = none → ¬schemeEnd <:+: u.target) :
    schemeParts u.text = (u.scheme.getD schemeHttp, u.hostText ++ u.target) := by
  unfold schemeParts text schemeText
  cases hscheme : u.scheme with
  | none =>
    have hnone : cutAt schemeEnd (u.hostText ++ u.target) = none := by
      rw [cutAt_eq_none_iff]
      rintro ⟨x, y, hxy⟩
      rw [List.append_assoc] at hxy
      obtain ⟨w, -, htarget⟩ := exists_target_of_schemeEnd hxy.symm
      exact h hscheme ⟨w, y, by rw [htarget, List.append_assoc]⟩
    rw [Option.elim_none, List.nil_append, hnone]
    rfl
  | some s =>
    have hletters := u.scheme_letters s hscheme
    have hcolon : colon ∉ s := fun hmem => absurd (hletters colon hmem) (by decide)
    rw [Option.elim_some, List.append_assoc, schemeEnd, cutAt_append hcolon]
    rfl

/-- The path is found, unless there is only a query. -/
theorem pathParts_text (h : u.path = [] → u.query = none) :
    pathParts (u.hostText ++ u.target) = ((if u.path = [] then [slash] else u.path) ++ u.queryText, u.hostText) := by
  unfold pathParts target queryText
  rcases u.path_slash with hpath | ⟨p, hpath⟩
  · have hnone : cutAt [slash] u.hostText = none := by
      rw [cutAt_eq_none_iff]
      intro hwithin
      exact slash_not_mem_hostText (hwithin.subset List.mem_cons_self)
    rw [hpath, h hpath, Option.elim_none, List.append_nil, List.append_nil, hnone]
    rfl
  · have hcut : cutAt [slash] (u.hostText ++ (slash :: (p ++ u.query.elim [] (byte '?' :: ·)))) = some _ :=
      cutAt_append slash_not_mem_hostText _
    rw [hpath, if_neg (List.cons_ne_nil _ _), List.cons_append, hcut]
    rfl

/-- The host and the port are found. -/
theorem splitPort_hostText (hs : Short u.hostText) (scheme : Str) :
    (splitPort scheme u.hostText).run = some (.ok (u.host, match u.port with
      | some d => numberOf (mpzSetStr d 10)
      | none => if scheme = schemeHttps then .i64 443 else .i64 80)) := by
  have hshort : Short [colon] := by decide
  obtain ⟨hcolon, -⟩ := u.host_plain
  unfold splitPort
  unfold hostText at hs ⊢
  cases hport : u.port with
  | none =>
    rw [hport, Option.elim_none, List.append_nil] at hs
    have hnone : cutAt [colon] u.host = none := by
      rw [cutAt_eq_none_iff]
      intro hwithin
      exact hcolon (hwithin.subset List.mem_cons_self)
    rw [Option.elim_none, List.append_nil]
    refine run_bind_eq_ok.mpr ⟨_, indexOf_of_cutAt_eq_none hs hshort hnone, ?_⟩
    rw [if_neg (by decide)]
    rfl
  | some d =>
    rw [hport, Option.elim_some] at hs
    obtain ⟨hne, hdigits⟩ := u.port_digits d hport
    have hcut : cutAt [colon] (u.host ++ colon :: d) = some (u.host, d) := cutAt_append hcolon d
    obtain ⟨hindex, hpos, hto, -, hfrom⟩ := indexOf_of_cutAt hs hshort hcut
    have hadd : Int64.ofNat u.host.length + 1 = Int64.ofNat (u.host.length + [colon].length) := by
      rw [Int64.ofNat_add]
      rfl
    rw [Option.elim_some]
    refine run_bind_eq_ok.mpr ⟨_, hindex, ?_⟩
    rw [if_pos hpos, hadd]
    refine run_bind_eq_ok.mpr ⟨_, hto, run_bind_eq_ok.mpr ⟨_, hfrom, ?_⟩⟩
    exact run_bind_eq_ok.mpr ⟨_, numberOfString_decimal hne hdigits, rfl⟩

/-! ## What is not found -/

/-- A slash behind something without one. -/
theorem suffix_of_not_mem {a b q : Str} (ha : slash ∉ a) (h : slash :: b <:+ a ++ q) : slash :: b <:+ q := by
  obtain ⟨t, ht⟩ := h
  rcases List.append_eq_append_iff.mp ht with ⟨w, rfl, hw⟩ | ⟨w, -, hw⟩
  · cases w with
    | nil => exact ⟨[], hw⟩
    | cons c w =>
      obtain rfl := List.head_eq_of_cons_eq hw
      exact absurd (List.mem_append_right _ List.mem_cons_self) ha
  · exact ⟨w, hw.symm⟩

/-- Without a path, what is taken for one is in the query. -/
theorem suffix_schemeParts {q : Str} (hpath : u.path = []) (hquery : u.query = some q) {b : Str}
    (h : slash :: b <:+ (schemeParts u.text).2) : slash :: b <:+ q := by
  have htarget : u.target = byte '?' :: q := by
    unfold target queryText
    rw [hpath, hquery]
    rfl
  have hplain : slash ∉ u.hostText ++ [byte '?'] := by
    have hmark : slash ∉ [byte '?'] := by decide
    exact fun hmem => (List.mem_append.mp hmem).elim slash_not_mem_hostText hmark
  have hrest : u.hostText ++ u.target = u.hostText ++ [byte '?'] ++ q := by rw [htarget, List.append_assoc]; rfl
  by_cases hcond : u.scheme = none → ¬schemeEnd <:+: u.target
  · rw [schemeParts_text hcond, hrest] at h
    exact suffix_of_not_mem hplain h
  · -- the text is cut in the query
    push Not at hcond
    obtain ⟨hscheme, hwithin⟩ := hcond
    have htext : u.text = u.hostText ++ u.target := by
      unfold text schemeText
      rw [hscheme]
      rfl
    unfold schemeParts at h
    rw [htext] at h
    cases hcut : cutAt schemeEnd (u.hostText ++ u.target) with
    | none => exact absurd (hwithin.trans (List.suffix_append _ _).isInfix) (cutAt_eq_none_iff.mp hcut)
    | some p =>
      rw [hcut] at h
      have hwhole := eq_append_of_cutAt hcut
      rw [hrest] at hwhole
      have hsuffix : p.2 <:+ u.hostText ++ [byte '?'] ++ q := by
        rw [hwhole, ← List.append_assoc]
        exact List.suffix_append _ _
      exact suffix_of_not_mem hplain (List.IsSuffix.trans h hsuffix)

/-- A query without a path is not found. -/
theorem query_eq_none (h : u.parsed.path = (pathParts (schemeParts u.text).2).1) (hpath : u.path = []) :
    u.query = none := by
  cases hquery : u.query with
  | none => rfl
  | some q =>
    have hexpected : u.parsed.path = slash :: byte '?' :: q := by
      unfold parsed queryText
      rw [if_pos hpath, hquery]
      rfl
    rw [hexpected] at h
    unfold pathParts at h
    cases hcut : cutAt [slash] (schemeParts u.text).2 with
    | none =>
      rw [hcut] at h
      cases h
    | some p =>
      rw [hcut] at h
      have hsuffix : slash :: p.2 <:+ (schemeParts u.text).2 := by
        rw [eq_append_of_cutAt hcut]
        exact List.suffix_append _ _
      have hle := (suffix_schemeParts hpath hquery hsuffix).length_le
      have hlength : (slash :: byte '?' :: q).length = (slash :: p.2).length := congrArg List.length h
      simp only [List.length_cons] at hle hlength
      omega

/-- A `://` behind a host is taken for the end of a scheme. -/
theorem not_infix_target (h : u.parsed.scheme = (schemeParts u.text).1) (hscheme : u.scheme = none) :
    ¬schemeEnd <:+: u.target := by
  intro hwithin
  have htext : u.text = u.hostText ++ u.target := by
    unfold text schemeText
    rw [hscheme]
    rfl
  unfold schemeParts at h
  rw [htext] at h
  cases hcut : cutAt schemeEnd (u.hostText ++ u.target) with
  | none => exact absurd (hwithin.trans (List.suffix_append _ _).isInfix) (cutAt_eq_none_iff.mp hcut)
  | some p =>
    rw [hcut] at h
    have hx : schemeHttp = p.1 := by
      unfold parsed at h
      rwa [hscheme] at h
    obtain ⟨w, hw, htarget⟩ := exists_target_of_schemeEnd (eq_append_of_cutAt hcut)
    -- what is before it ends with the beginning of the path or the query, which no letter of `http` is
    have hmark := head?_target (u := u)
    rw [htarget] at hmark
    cases w with
    | nil => exact absurd (hmark colon rfl) (by decide)
    | cons c w =>
      have hmem : c ∈ schemeHttp := by
        rw [hx, hw]
        exact List.mem_append_right _ List.mem_cons_self
      have hslash : slash ∉ schemeHttp := by decide
      have hquery : byte '?' ∉ schemeHttp := by decide
      rcases hmark c rfl with rfl | rfl
      · exact hslash hmem
      · exact hquery hmem

end Parts

/-! ## The theorem -/

/-- A URL that has room in memory is split in its parts exactly when a query has a path before it, and a URL without a
scheme has no `://` in its path or its query. -/
theorem url_parts_iff (u : {u : Parts // Short u.text}) :
    (httpParseUrl u.1.text).run = some (.ok u.1.parsed) ↔ u.1.Plain := by
  obtain ⟨u, hs⟩ := u
  rw [httpParseUrl_eq_ok hs]
  constructor
  · rintro ⟨hscheme, hpath, -⟩
    exact ⟨Parts.query_eq_none hpath, Parts.not_infix_target hscheme⟩
  · rintro ⟨hquery, hscheme⟩
    have hhost : Short u.hostText := by
      unfold Parts.text at hs
      exact (Short.of_append (Short.of_append hs).2).1
    rw [Parts.schemeParts_text hscheme]
    dsimp only
    rw [Parts.pathParts_text hquery]
    exact ⟨rfl, rfl, Parts.splitPort_hostText hhost _⟩

/-- `a?b` -/
def queryOnly : Parts where
  scheme := none
  host := [byte 'a']
  port := none
  path := []
  query := some [byte 'b']
  scheme_letters := nofun
  host_ne := by decide
  host_plain := by decide
  port_digits := nofun
  path_slash := .inl rfl

/-- The host of `a?b` is taken to be `a?b`. -/
theorem not_forall_url_parts :
    ¬∀ u : {u : Parts // Short u.text}, (httpParseUrl u.1.text).run = some (.ok u.1.parsed) := by
  intro h
  have hshort : Short queryOnly.text := by decide
  obtain ⟨-, hpath, -⟩ := (httpParseUrl_eq_ok hshort).mp (h ⟨queryOnly, hshort⟩)
  cases Parts.query_eq_none hpath rfl

end HttpUrl

end Chloride
