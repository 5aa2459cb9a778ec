import Chloride.Containers.Substring
import Chloride.Objects.StringBytes

/-!
# Multipart forms

`multipart_form` of `stdlib/network/multipart.ar`: a form gives its body chunk by chunk, with the parts of
its files read as they are sent, and it computes the length of the body before any of it is read.
`iterate_eq_encode` shows that the chunks of an iteration make the body that the parts are encoded to, and
that the length is the body's.

A file is an object of the caller's, with what `read`, `size` and `close` do to its state as parameters.
-/

namespace Chloride

namespace Multipart

/-- The bytes of a string. -/
abbrev Str := List UInt8

/-- The bytes of a buffer. -/
abbrev Buffer := List UInt8

def text (s : String) : Str := s.toList.map byte

/-- `__CRLF__` -/
def crlf : Buffer := text "\r\n"

/-! ## Content types -/

/-- The table of `__guess_content_type__`. -/
def known : List (Str × Str) :=
  [(text "txt", text "text/plain"), (text "html", text "text/html"), (text "htm", text "text/html"),
    (text "css", text "text/css"), (text "csv", text "text/csv"), (text "json", text "application/json"),
    (text "xml", text "application/xml"), (text "pdf", text "application/pdf"),
    (text "zip", text "application/zip"), (text "png", text "image/png"), (text "jpg", text "image/jpeg"),
    (text "jpeg", text "image/jpeg"), (text "gif", text "image/gif"), (text "webp", text "image/webp"),
    (text "svg", text "image/svg+xml"), (text "mp4", text "video/mp4"), (text "mp3", text "audio/mpeg"),
    (text "wav", text "audio/wav")]

def guessContentType (ctype : CType) (filename : Str) : Str :=
  let ext := lowerBytes ctype filename
  let ext :=
    match Substring.lastUpTo [byte '.'] ext ext.length with
    | none => ext
    | some dot => ext.drop (dot + 1)
  (known.lookup ext).getD (text "application/octet-stream")

/-! ## Files -/

/-- What a call of `read` returns. -/
inductive Data
  | buffer (bytes : Buffer)
  | string (bytes : Str)

/-- `length`, and the bytes that `buffer.from_string` takes over. -/
def Data.bytes : Data → Buffer
  | .buffer bytes => bytes
  | .string bytes => bytes

/-- What an object with the shape of a file does: `read` may raise an error and returns null at the end. -/
structure FileLike (σ ε : Type*) where
  read : σ → ℕ → Except ε (Option Data) × σ
  size : σ → ℕ
  close : σ → σ

variable {σ ε : Type*}

/-- The chunks that reading a file to its end gives have some bytes in all. -/
inductive FileLike.Reads (ops : FileLike σ ε) (chunkSize : ℕ) : σ → Buffer → Prop
  | null {f f' : σ} (h : ops.read f chunkSize = (.ok none, f')) : Reads ops chunkSize f []
  | empty {f f' : σ} {chunk : Data} (h : ops.read f chunkSize = (.ok (some chunk), f'))
      (hempty : chunk.bytes = []) : Reads ops chunkSize f []
  | more {f f' : σ} {chunk : Data} {bytes : Buffer} (h : ops.read f chunkSize = (.ok (some chunk), f'))
      (hbytes : chunk.bytes ≠ []) (hrest : Reads ops chunkSize f' bytes) :
      Reads ops chunkSize f (chunk.bytes ++ bytes)

/-- A file whose chunks total the size that it reports. -/
structure SizedFile (ops : FileLike σ ε) (chunkSize : ℕ) where
  file : σ
  bytes : Buffer
  reads : ops.Reads chunkSize file bytes
  size_eq : ops.size file = bytes.length

/-- A file in memory. -/
def memory : FileLike Buffer Empty where
  read f n := (.ok (some (.buffer (f.take n))), f.drop n)
  size f := f.length
  close f := f

theorem memory_reads {chunkSize : ℕ} (h : 0 < chunkSize) (f : Buffer) : memory.Reads chunkSize f f := by
  induction hn : f.length using Nat.strong_induction_on generalizing f with
  | _ n ih =>
    by_cases hf : f = []
    · subst hf
      exact .empty rfl List.take_nil
    · have hpos := List.length_pos_iff.mpr hf
      have hrest := ih (f.drop chunkSize).length (by simp; omega) _ rfl
      have hmore : memory.Reads chunkSize f ((Data.buffer (f.take chunkSize)).bytes ++ f.drop chunkSize) :=
        .more rfl (by simp [Data.bytes, hf, h.ne']) hrest
      rwa [Data.bytes, List.take_append_drop] at hmore

/-- Its chunks total its size. -/
def SizedFile.memory {chunkSize : ℕ} (h : 0 < chunkSize) (bytes : Buffer) :
    SizedFile memory chunkSize where
  file := bytes
  bytes := bytes
  reads := memory_reads h bytes
  size_eq := rfl

/-! ## Parts -/

/-- `__FieldPart__`, with its value as the string that it is converted to. -/
structure FieldPart where
  name : Str
  value : Str
  sent : Bool

def FieldPart.init (name value : Str) : FieldPart := { name, value, sent := false }

def FieldPart.header (self : FieldPart) (boundary : Str) : Str :=
  text "--" ++ boundary ++ text "\r\n" ++ text "Content-Disposition: form-data; name=\"" ++ self.name ++
    text "\"\r\n\r\n"

def FieldPart.bodyLength (self : FieldPart) : ℕ := self.value.length

def FieldPart.nextChunk (self : FieldPart) : Option Buffer × FieldPart :=
  if self.sent then (none, self) else (some self.value, { self with sent := true })

/-- `__FilePart__` -/
structure FilePart (σ : Type*) where
  name : Str
  filename : Str
  file : σ
  contentType : Str
  chunkSize : ℕ
  done : Bool

def FilePart.init (ctype : CType) (name filename : Str) (file : σ) (contentType : Option Str)
    (chunkSize : ℕ) : FilePart σ :=
  { name, filename, file, contentType := contentType.getD (guessContentType ctype filename), chunkSize,
    done := false }

def FilePart.header (self : FilePart σ) (boundary : Str) : Str :=
  text "--" ++ boundary ++ text "\r\n" ++ text "Content-Disposition: form-data; name=\"" ++ self.name ++
    text "\"; filename=\"" ++ self.filename ++ text "\"\r\n" ++ text "Content-Type: " ++ self.contentType ++
    text "\r\n\r\n"

def FilePart.bodyLength (ops : FileLike σ ε) (self : FilePart σ) : ℕ := ops.size self.file

/-- The file is closed at its end, and when `read` raises an error. -/
def FilePart.nextChunk (ops : FileLike σ ε) (self : FilePart σ) :
    Except ε (Option Buffer) × FilePart σ :=
  if self.done then (.ok none, self)
  else
    match ops.read self.file self.chunkSize with
    | (.error e, file) => (.error e, { self with file := ops.close file, done := true })
    | (.ok none, file) => (.ok none, { self with file := ops.close file, done := true })
    | (.ok (some chunk), file) =>
      if chunk.bytes.length = 0 then (.ok none, { self with file := ops.close file, done := true })
      else (.ok (some chunk.bytes), { self with file })

inductive Part (σ : Type*)
  | field (part : FieldPart)
  | file (part : FilePart σ)

def Part.header (boundary : Str) : Part σ → Str
  | .field part => part.header boundary
  | .file part => part.header boundary

def Part.bodyLength (ops : FileLike σ ε) : Part σ → ℕ
  | .field part => part.bodyLength
  | .file part => part.bodyLength ops

def Part.nextChunk (ops : FileLike σ ε) : Part σ → Except ε (Option Buffer) × Part σ
  | .field part => (.ok part.nextChunk.1, .field part.nextChunk.2)
  | .file part => ((part.nextChunk ops).1, .file (part.nextChunk ops).2)

/-! ## Forms -/

/-- `__state__` -/
inductive FormState
  | null
  | header
  | body
  | trailer
  | final
  | done
  deriving DecidableEq

/-- `multipart_form` -/
structure Form (σ : Type*) where
  boundary : Str
  chunkSize : ℕ
  parts : List (Part σ)
  partIndex : ℕ
  state : FormState

/-- `made` is what `__make_boundary__` returns. -/
def Form.init (boundary : Option Str) (made : Str) (chunkSize : ℕ) : Form σ :=
  { boundary := boundary.getD made, chunkSize, parts := [], partIndex := 0, state := .header }

def Form.field (self : Form σ) (name value : Str) : Form σ :=
  { self with parts := self.parts ++ [.field (.init name value)] }

def Form.file (ctype : CType) (self : Form σ) (name filename : Str) (file : σ) (contentType : Option Str) :
    Form σ :=
  { self with parts := self.parts ++ [.file (.init ctype name filename file contentType self.chunkSize)] }

def Form.getLength (ops : FileLike σ ε) (self : Form σ) : ℕ :=
  (self.parts.foldl (fun total part =>
      total + (part.header self.boundary).length + part.bodyLength ops + crlf.length) 0) +
    (text "--" ++ self.boundary ++ text "--\r\n").length

def Form.iter (self : Form σ) : Form σ := { self with partIndex := 0, state := .header }

/-- How a turn of the loop of `chunk` ends. -/
inductive Turn (ε : Type*)
  | returned (chunk : Option Buffer)
  | continued
  | thrown (e : ε)

def Form.turn (ops : FileLike σ ε) (self : Form σ) : Turn ε × Form σ :=
  if self.state = .done then (.returned none, self)
  else if self.state = .final then
    (.returned (some (text "--" ++ self.boundary ++ text "--\r\n")), { self with state := .done })
  else
    match self.parts[self.partIndex]? with
    | none => (.continued, { self with state := .final })
    | some part =>
      match self.state with
      | .header => (.returned (some (part.header self.boundary)), { self with state := .body })
      | .body =>
        match part.nextChunk ops with
        | (.error e, part) => (.thrown e, { self with parts := self.parts.set self.partIndex part })
        | (.ok (some next), part) =>
          (.returned (some next), { self with parts := self.parts.set self.partIndex part })
        | (.ok none, part) =>
          (.continued, { self with parts := self.parts.set self.partIndex part, state := .trailer })
      | .trailer =>
        (.returned (some crlf), { self with partIndex := self.partIndex + 1, state := .header })
      | _ => (.continued, self)

/-- The loop of `chunk`. -/
def Form.turns (ops : FileLike σ ε) : ℕ → Form σ → Option (Except ε (Option Buffer) × Form σ)
  | 0, _ => none
  | fuel + 1, self =>
    match self.turn ops with
    | (.returned chunk, self) => some (.ok chunk, self)
    | (.thrown e, self) => some (.error e, self)
    | (.continued, self) => Form.turns ops fuel self

/-- `chunk`: of two turns the second returns. -/
def Form.chunk (ops : FileLike σ ε) (self : Form σ) : Option (Except ε (Option Buffer) × Form σ) :=
  (if self.state = .null then self.iter else self).turns ops 2

/-- The chunks of a loop over a form, from `__next__` to `__next__` until it raises `StopIteration`. -/
def Form.iterate (ops : FileLike σ ε) : ℕ → Form σ → Option (Except ε (List Buffer) × Form σ)
  | 0, _ => none
  | fuel + 1, self =>
    match self.chunk ops with
    | none => none
    | some (.error e, self) => some (.error e, self)
    | some (.ok none, self) => some (.ok [], self)
    | some (.ok (some chunk), self) =>
      (Form.iterate ops fuel self).map fun r => (r.1.map (chunk :: ·), r.2)

/-! ## A call of `chunk` -/

variable {ops : FileLike σ ε} {self self' : Form σ} {part part' : Part σ}

theorem Form.turn_final (hstate : self.state = .final) :
    self.turn ops = (.returned (some (text "--" ++ self.boundary ++ text "--\r\n")),
      { self with state := .done }) := by
  simp [Form.turn, hstate]

theorem Form.turn_trailer (hstate : self.state = .trailer)
    (hpart : self.parts[self.partIndex]? = some part) :
    self.turn ops = (.returned (some crlf),
      { self with partIndex := self.partIndex + 1, state := .header }) := by
  simp only [Form.turn, hstate, hpart, reduceCtorEq, if_false]

theorem Form.turn_body_none (hstate : self.state = .body)
    (hpart : self.parts[self.partIndex]? = some part)
    (hnext : part.nextChunk ops = (.ok none, part')) :
    self.turn ops = (.continued,
      { self with parts := self.parts.set self.partIndex part', state := .trailer }) := by
  simp only [Form.turn, hstate, hpart, hnext, reduceCtorEq, if_false]

theorem Form.turn_end (hstate : self.state ≠ .done) (hfinal : self.state ≠ .final)
    (hpart : self.parts[self.partIndex]? = none) :
    self.turn ops = (.continued, { self with state := .final }) := by
  simp only [Form.turn, if_neg hstate, if_neg hfinal, hpart]

/-- After a turn that goes on the next one returns. -/
theorem Form.turn_continued (hnull : self.state ≠ .null) (h : self.turn ops = (.continued, self')) :
    ∃ chunk last, self'.turn ops = (.returned chunk, last) := by
  by_cases hend : self.state = .done ∨ self.state = .final
  · rcases hend with hstate | hstate
    · simp [Form.turn, hstate] at h
    · simp [Form.turn, hstate] at h
  · rw [not_or] at hend
    cases hpart : self.parts[self.partIndex]? with
    | none =>
      rw [Form.turn_end hend.1 hend.2 hpart, Prod.mk.injEq] at h
      obtain ⟨-, rfl⟩ := h
      exact ⟨_, _, Form.turn_final rfl⟩
    | some part =>
      have hlt := (List.getElem?_eq_some_iff.mp hpart).1
      cases hstate : self.state with
      | null => exact absurd hstate hnull
      | done => exact absurd hstate hend.1
      | final => exact absurd hstate hend.2
      | header => simp [Form.turn, hstate, hlt] at h
      | trailer => simp [Form.turn, hstate, hlt] at h
      | body =>
        rcases hnext : part.nextChunk ops with ⟨⟨e⟩ | ⟨_ | next⟩, part'⟩
        · simp [Form.turn, hstate, hpart, hnext] at h
        · rw [Form.turn_body_none hstate hpart hnext, Prod.mk.injEq] at h
          obtain ⟨-, rfl⟩ := h
          exact ⟨_, _, Form.turn_trailer rfl (List.getElem?_set_self hlt)⟩
        · simp [Form.turn, hstate, hpart, hnext] at h

/-- Every call returns or throws. -/
theorem Form.chunk_returns (ops : FileLike σ ε) (self : Form σ) : ∃ r, self.chunk ops = some r := by
  have hturns (form : Form σ) (hnull : form.state ≠ .null) : ∃ r, form.turns ops 2 = some r := by
    rw [Form.turns]
    split
    case h_1 => exact ⟨_, rfl⟩
    case h_2 => exact ⟨_, rfl⟩
    case h_3 form' hturn =>
      obtain ⟨chunk, last, hlast⟩ := Form.turn_continued hnull hturn
      rw [Form.turns, hlast]
      exact ⟨_, rfl⟩
  unfold Form.chunk
  split
  case isTrue => exact hturns _ (by simp [Form.iter])
  case isFalse hnull => exact hturns _ hnull

theorem Form.chunk_header (hstate : self.state = .header)
    (hpart : self.parts[self.partIndex]? = some part) :
    self.chunk ops = some (.ok (some (part.header self.boundary)), { self with state := .body }) := by
  simp only [Form.chunk, Form.turns, Form.turn, hstate, hpart, reduceCtorEq, if_false]

theorem Form.chunk_next (hstate : self.state = .body) (hpart : self.parts[self.partIndex]? = some part)
    {next : Buffer} (hnext : part.nextChunk ops = (.ok (some next), part')) :
    self.chunk ops =
      some (.ok (some next), { self with parts := self.parts.set self.partIndex part' }) := by
  simp only [Form.chunk, Form.turns, Form.turn, hstate, hpart, hnext, reduceCtorEq, if_false]

/-- A part without another chunk is followed by a line end. -/
theorem Form.chunk_trailer (hstate : self.state = .body)
    (hpart : self.parts[self.partIndex]? = some part)
    (hnext : part.nextChunk ops = (.ok none, part')) :
    self.chunk ops = some (.ok (some crlf),
      { self with
        parts := self.parts.set self.partIndex part', partIndex := self.partIndex + 1, state := .header }) := by
  have hlt := (List.getElem?_eq_some_iff.mp hpart).1
  rw [Form.chunk, if_neg (by rw [hstate]; decide), Form.turns, Form.turn_body_none hstate hpart hnext]
  simp only
  rw [Form.turns, Form.turn_trailer rfl (List.getElem?_set_self hlt)]

theorem Form.chunk_final (hstate : self.state = .header) (hpart : self.parts[self.partIndex]? = none) :
    self.chunk ops = some (.ok (some (text "--" ++ self.boundary ++ text "--\r\n")),
      { self with state := .done }) := by
  rw [Form.chunk, if_neg (by rw [hstate]; decide), Form.turns,
    Form.turn_end (by rw [hstate]; decide) (by rw [hstate]; decide) hpart]
  simp only
  rw [Form.turns, Form.turn_final rfl]

theorem Form.chunk_done (hstate : self.state = .done) : self.chunk ops = some (.ok none, self) := by
  simp only [Form.chunk, Form.turns, Form.turn, hstate, reduceCtorEq, if_false, if_true]

/-! ## An iteration -/

/-- A loop over a form ends, and it gets these chunks. -/
def Form.Yields (ops : FileLike σ ε) (self : Form σ) (chunks : List Buffer) (self' : Form σ) : Prop :=
  ∃ n, ∀ fuel, n ≤ fuel → self.iterate ops fuel = some (.ok chunks, self')

theorem Form.Yields.stop (h : self.chunk ops = some (.ok none, self')) : self.Yields ops [] self' := by
  refine ⟨1, fun fuel hfuel => ?_⟩
  obtain ⟨fuel, rfl⟩ := Nat.exists_eq_add_of_le' hfuel
  simp [Form.iterate, h]

theorem Form.Yields.next {chunk : Buffer} {chunks : List Buffer} {last : Form σ}
    (h : self.chunk ops = some (.ok (some chunk), self')) (hrest : self'.Yields ops chunks last) :
    self.Yields ops (chunk :: chunks) last := by
  obtain ⟨n, hn⟩ := hrest
  refine ⟨n + 1, fun fuel hfuel => ?_⟩
  obtain ⟨fuel, rfl⟩ := Nat.exists_eq_add_of_le' hfuel
  simp [Form.iterate, h, hn (fuel + n) (by omega), Except.map]

/-- The chunks that a part gives before its first null. -/
inductive Part.Emits (ops : FileLike σ ε) : Part σ → List Buffer → Part σ → Prop
  | none {part part' : Part σ} (h : part.nextChunk ops = (.ok none, part')) : Emits ops part [] part'
  | some {part part' last : Part σ} {chunk : Buffer} {chunks : List Buffer}
      (h : part.nextChunk ops = (.ok (some chunk), part')) (hrest : Emits ops part' chunks last) :
      Emits ops part (chunk :: chunks) last

/-- The chunks of a part's body, the line end behind it, and then those from the next part on. -/
theorem Form.Yields.body {chunks rest : List Buffer} {last : Form σ} (hemits : part.Emits ops chunks part')
    (hstate : self.state = .body) (hpart : self.parts[self.partIndex]? = some part)
    (hrest : Form.Yields ops { self with
      parts := self.parts.set self.partIndex part', partIndex := self.partIndex + 1, state := .header } rest
        last) :
    self.Yields ops (chunks ++ crlf :: rest) last := by
  induction hemits generalizing self with
  | none hnext => exact .next (Form.chunk_trailer hstate hpart hnext) hrest
  | @some part next _ _ _ hnext _ ih =>
    have hlt := (List.getElem?_eq_some_iff.mp hpart).1
    apply Form.Yields.next (Form.chunk_next hstate hpart hnext)
    apply @ih { self with parts := self.parts.set self.partIndex next } hstate (List.getElem?_set_self hlt)
    simpa only [List.set_set] using hrest

/-- A part from its header on. -/
theorem Form.Yields.of_part {chunks rest : List Buffer} {last : Form σ} (hemits : part.Emits ops chunks part')
    (hstate : self.state = .header) (hpart : self.parts[self.partIndex]? = some part)
    (hrest : Form.Yields ops { self with
      parts := self.parts.set self.partIndex part', partIndex := self.partIndex + 1, state := .header } rest
        last) :
    self.Yields ops (part.header self.boundary :: (chunks ++ crlf :: rest)) last :=
  .next (Form.chunk_header hstate hpart) (.body hemits rfl hpart hrest)

/-! ## Encoding a form -/

/-- What a caller puts into a form. -/
inductive Entry (ops : FileLike σ ε) (chunkSize : ℕ)
  | field (name value : Str)
  | file (name filename : Str) (file : SizedFile ops chunkSize) (contentType : Option Str)

variable {chunkSize : ℕ}

/-- The form of a list of entries. -/
def Form.add (ctype : CType) (self : Form σ) : Entry ops chunkSize → Form σ
  | .field name value => self.field name value
  | .file name filename file contentType => self.file ctype name filename file.file contentType

def form (ctype : CType) (boundary : Option Str) (made : Str) (entries : List (Entry ops chunkSize)) :
    Form σ :=
  entries.foldl (Form.add ctype) (Form.init boundary made chunkSize)

def line (s : Str) : Buffer := s ++ crlf

def quoted (s : Str) : Str := text "\"" ++ s ++ text "\""

/-- The header lines of an entry. -/
def Entry.headers (ctype : CType) : Entry ops chunkSize → List Str
  | .field name _ => [text "Content-Disposition: form-data; name=" ++ quoted name]
  | .file name filename _ contentType =>
    [text "Content-Disposition: form-data; name=" ++ quoted name ++ text "; filename=" ++ quoted filename,
      text "Content-Type: " ++ contentType.getD (guessContentType ctype filename)]

def Entry.content : Entry ops chunkSize → Buffer
  | .field _ value => value
  | .file _ _ sized _ => sized.bytes

/-- The delimiter line, the header lines, a blank line, and the content with a line end behind it. -/
def Entry.encode (ctype : CType) (boundary : Str) (entry : Entry ops chunkSize) : Buffer :=
  line (text "--" ++ boundary) ++ (entry.headers ctype).flatMap line ++ line [] ++ line entry.content

/-- The encoding of a form. -/
def encode (ctype : CType) (boundary : Str) (entries : List (Entry ops chunkSize)) : Buffer :=
  entries.flatMap (Entry.encode ctype boundary) ++ line (text "--" ++ boundary ++ text "--")

/-- The part of an entry. -/
def Entry.toPart (ctype : CType) : Entry ops chunkSize → Part σ
  | .field name value => .field (.init name value)
  | .file name filename sized contentType =>
    .file (.init ctype name filename sized.file contentType chunkSize)

theorem form_eq (ctype : CType) (boundary : Option Str) (made : Str) (entries : List (Entry ops chunkSize)) :
    form ctype boundary made entries =
      { (Form.init boundary made chunkSize : Form σ) with parts := entries.map (Entry.toPart ctype) } := by
  have hadd (self : Form σ) (hchunk : self.chunkSize = chunkSize) :
      entries.foldl (Form.add ctype) self =
        { self with parts := self.parts ++ entries.map (Entry.toPart ctype) } := by
    induction entries generalizing self with
    | nil => simp
    | cons entry entries ih =>
      have hentry : Form.add ctype self entry =
          { self with parts := self.parts ++ [entry.toPart ctype] } := by
        subst hchunk
        cases entry <;> rfl
      rw [List.foldl_cons, hentry, ih { self with parts := self.parts ++ [entry.toPart ctype] } hchunk]
      simp
  rw [form, hadd _ rfl]
  rfl

theorem text_append (s t : String) : text (s ++ t) = text s ++ text t := by
  simp [text]

/-- What is sent of an entry before its content. -/
theorem Entry.header_eq (ctype : CType) (boundary : Str) (entry : Entry ops chunkSize) :
    (entry.toPart ctype).header boundary =
      line (text "--" ++ boundary) ++ (entry.headers ctype).flatMap line ++ line [] := by
  have hname : text "Content-Disposition: form-data; name=\"" =
      text "Content-Disposition: form-data; name=" ++ text "\"" := by rw [← text_append]; rfl
  have hend : text "\"\r\n\r\n" = text "\"" ++ crlf ++ crlf := by
    rw [crlf, ← text_append, ← text_append]; rfl
  cases entry with
  | field name value =>
    simp [Entry.toPart, Part.header, FieldPart.header, FieldPart.init, Entry.headers, line, quoted, crlf,
      hname, hend]
  | file name filename sized contentType =>
    have hfilename : text "\"; filename=\"" = text "\"" ++ text "; filename=" ++ text "\"" := by
      rw [← text_append, ← text_append]; rfl
    have hline : text "\"\r\n" = text "\"" ++ crlf := by rw [crlf, ← text_append]; rfl
    have hblank : text "\r\n\r\n" = crlf ++ crlf := by rw [crlf, ← text_append]; rfl
    simp [Entry.toPart, Part.header, FilePart.header, FilePart.init, Entry.headers, line, quoted, crlf,
      hname, hfilename, hline, hblank]

/-! What a part of an open file does with the result of `read`. -/

theorem FilePart.nextChunk_null {self : FilePart σ} {f' : σ} (hdone : self.done = false)
    (h : ops.read self.file self.chunkSize = (.ok none, f')) :
    self.nextChunk ops = (.ok none, { self with file := ops.close f', done := true }) := by
  simp [FilePart.nextChunk, hdone, h]

theorem FilePart.nextChunk_empty {self : FilePart σ} {f' : σ} {chunk : Data} (hdone : self.done = false)
    (h : ops.read self.file self.chunkSize = (.ok (some chunk), f')) (hempty : chunk.bytes = []) :
    self.nextChunk ops = (.ok none, { self with file := ops.close f', done := true }) := by
  simp [FilePart.nextChunk, hdone, h, hempty]

theorem FilePart.nextChunk_more {self : FilePart σ} {f' : σ} {chunk : Data} (hdone : self.done = false)
    (h : ops.read self.file self.chunkSize = (.ok (some chunk), f')) (hbytes : chunk.bytes ≠ []) :
    self.nextChunk ops = (.ok (some chunk.bytes), { self with file := f' }) := by
  simp [FilePart.nextChunk, hdone, h, hbytes]

theorem FileLike.Reads.emits {f : σ} {bytes : Buffer} (h : ops.Reads chunkSize f bytes)
    {part : FilePart σ} (hfile : part.file = f) (hsize : part.chunkSize = chunkSize)
    (hdone : part.done = false) :
    ∃ chunks last, Part.Emits ops (.file part) chunks last ∧ chunks.flatten = bytes := by
  induction h generalizing part with
  | null hread =>
    subst hfile hsize
    exact ⟨[], _, .none (by rw [Part.nextChunk, FilePart.nextChunk_null hdone hread]), rfl⟩
  | empty hread hempty =>
    subst hfile hsize
    exact ⟨[], _, .none (by rw [Part.nextChunk, FilePart.nextChunk_empty hdone hread hempty]), rfl⟩
  | @more f f' chunk bytes hread hbytes hrest ih =>
    subst hfile hsize
    obtain ⟨chunks, last, hemits, hflatten⟩ := @ih { part with file := f' } rfl rfl hdone
    refine ⟨chunk.bytes :: chunks, last, .some ?_ hemits, by rw [List.flatten_cons, hflatten]⟩
    rw [Part.nextChunk, FilePart.nextChunk_more hdone hread hbytes]

/-- A part gives the content of its entry. -/
theorem Entry.emits (ctype : CType) (entry : Entry ops chunkSize) :
    ∃ chunks last, (entry.toPart ctype).Emits ops chunks last ∧ chunks.flatten = entry.content := by
  cases entry with
  | field name value =>
    let part : Part σ := .field { FieldPart.init name value with sent := true }
    have hvalue : ((field name value : Entry ops chunkSize).toPart ctype).nextChunk ops =
        (.ok (some value), part) := rfl
    have hnone : part.nextChunk ops = (.ok none, part) := rfl
    exact ⟨[value], part, .some hvalue (.none hnone), by simp [Entry.content]⟩
  | file name filename sized contentType => exact sized.reads.emits rfl rfl rfl

theorem Entry.bodyLength_eq (ctype : CType) (entry : Entry ops chunkSize) :
    (entry.toPart ctype).bodyLength ops = entry.content.length := by
  cases entry with
  | field name value => rfl
  | file name filename sized contentType => exact sized.size_eq

/-- By induction on the entries that are left; the parts before the index have been sent. -/
theorem Form.yields_entries (ctype : CType) (entries : List (Entry ops chunkSize)) {sent : List (Part σ)}
    (hstate : self.state = .header) (hparts : self.parts = sent ++ entries.map (Entry.toPart ctype))
    (hindex : self.partIndex = sent.length) :
    ∃ chunks last, self.Yields ops chunks last ∧ chunks.flatten = encode ctype self.boundary entries := by
  induction entries generalizing self sent with
  | nil =>
    have hnone : self.parts[self.partIndex]? = none := by simp [hparts, hindex]
    have hline : text "--\r\n" = text "--" ++ crlf := by rw [crlf, ← text_append]; rfl
    refine ⟨_, _, .next (Form.chunk_final hstate hnone) (.stop (Form.chunk_done rfl)), ?_⟩
    simp [encode, line, hline]
  | cons entry entries ih =>
    obtain ⟨body, part', hemits, hbody⟩ := entry.emits ctype
    have hpart : self.parts[self.partIndex]? = some (entry.toPart ctype) := by simp [hparts, hindex]
    obtain ⟨rest, last, hrest, hflatten⟩ := @ih
      { self with
        parts := self.parts.set self.partIndex part', partIndex := self.partIndex + 1, state := .header }
      (sent ++ [part']) rfl (by simp [hparts, hindex]) (by simp [hindex])
    refine ⟨_, last, .of_part hemits hstate hpart hrest, ?_⟩
    calc ((entry.toPart ctype).header self.boundary :: (body ++ crlf :: rest)).flatten
        = (entry.toPart ctype).header self.boundary ++ (body.flatten ++ crlf ++ rest.flatten) := by simp
      _ = entry.encode ctype self.boundary ++ encode ctype self.boundary entries := by
        rw [hbody, hflatten, Entry.header_eq]
        simp [Entry.encode, line]
      _ = encode ctype self.boundary (entry :: entries) := by simp [encode]

/-- The sum of `get_length` is the length of the encoding. -/
theorem getLength_form (ctype : CType) (boundary : Option Str) (made : Str)
    (entries : List (Entry ops chunkSize)) :
    (form ctype boundary made entries).getLength ops =
      (encode ctype (boundary.getD made) entries).length := by
  have hline : text "--\r\n" = text "--" ++ crlf := by rw [crlf, ← text_append]; rfl
  have hsum (n : ℕ) : (entries.map (Entry.toPart ctype)).foldl (fun total part =>
      total + (part.header (boundary.getD made)).length + part.bodyLength ops + crlf.length) n =
        n + (entries.flatMap (Entry.encode ctype (boundary.getD made))).length := by
    induction entries generalizing n with
    | nil => simp
    | cons entry entries ih =>
      rw [List.map_cons, List.foldl_cons, ih, Entry.header_eq, Entry.bodyLength_eq]
      simp only [List.flatMap_cons, List.length_append, Entry.encode, line]
      omega
  rw [form_eq, Form.getLength]
  simp only [Form.init, hsum]
  simp [encode, line, hline]

/-- One iteration over a fresh form gives the encoding of its entries, and `get_length` is its length. -/
theorem iterate_eq_encode (ctype : CType) (boundary : Option Str) (made : Str) (chunkSize : ℕ)
    (ops : FileLike σ ε) (entries : List (Entry ops chunkSize)) :
    ∃ chunks last, (form ctype boundary made entries).iter.Yields ops chunks last ∧
      chunks.flatten = encode ctype (boundary.getD made) entries ∧
      (form ctype boundary made entries).getLength ops = chunks.flatten.length := by
  obtain ⟨chunks, last, hyields, hflatten⟩ :=
    @Form.yields_entries _ _ ops (form ctype boundary made entries).iter _ ctype entries [] rfl
      (by rw [form_eq]; rfl) rfl
  have hboundary : (form ctype boundary made entries).iter.boundary = boundary.getD made := by
    rw [form_eq]
    rfl
  rw [hboundary] at hflatten
  exact ⟨chunks, last, hyields, hflatten, by rw [hflatten, getLength_form]⟩

end Multipart

end Chloride
