import Chloride.Numerics.Formatting
import Chloride.Stdlib.HttpHeader

/-!
# Reading the body of an HTTP response

`HTTPResponse` of `stdlib/network/init.ar`, over a connection whose `recv` gives pieces of any size. The leftover of the
header and every piece are handed out whole, and the length that the response declares is only looked at between two of
them: bytes behind the body in the last piece are handed out with it, and a connection that ends early is taken for the
end of the body. So a body of a declared length is right exactly when it ends with the leftover or with a piece
(`body_iff`); without a declared length it always is.
-/

namespace Chloride

namespace Http

/-! ## The response -/

/-- What one call of `recv` gives. -/
abbrev Piece := {data : Buffer // 0 < data.length ∧ data.length ≤ 65536}

/-- The bytes of pieces. -/
def streamOf (pieces : List Piece) : Buffer := (pieces.map Subtype.val).flatten

/-- What `poll` returns, with as many pieces to come. -/
structure Polling where
  ready : ℕ → ℤ
  ready_pos : ∀ k, 0 < ready k

/-- `HTTPResponse`, with what its connection still gives, and the dictionary of its headers in the order of its
iterator. -/
structure HTTPResponse where
  headers : List (Buffer × Buffer)
  conn : Option (List Piece)
  autoClose : Bool
  contentLength : Option Number
  read : ℕ
  bodyDone : Bool
  bodyBuf : List Buffer

namespace HTTPResponse

/-- `__init__` -/
def init (headers : List (Buffer × Buffer)) (conn : List Piece) (leftover : Option Buffer) (autoClose : Bool) :
    HTTPResponse where
  headers := headers
  conn := some conn
  autoClose := autoClose
  contentLength := none
  read := 0
  bodyDone := false
  bodyBuf := leftover.toList.filter fun leftover => 0 < leftover.length

/-- What a method ends with, and the response it leaves. -/
abbrev Step (α : Type) := Except ArErr α × HTTPResponse

def contentLengthName : Buffer := "content-length".toList.map byte

/-- `content_length`, which keeps the number. -/
def findContentLength (ctype : CType) (self : HTTPResponse) : Option (Step (Option Number)) :=
  match self.contentLength with
  | some n => some (.ok (some n), self)
  | none =>
    match self.headers.find? fun value => lowerBytes ctype value.1 = contentLengthName with
    | none => some (.ok none, self)
    | some value =>
      (numberOfString ((self.headers.lookup value.1).getD [])).map fun
        | .ok n => (.ok (some n), { self with contentLength := some n })
        | .error err => (.error err, self)

/-- `close` -/
def close (self : HTTPResponse) : HTTPResponse := { self with conn := none, bodyDone := true }

/-- `__auto_closer__` -/
def autoCloser (self : HTTPResponse) : HTTPResponse := if self.autoClose then self.close else self

/-- `recv` into a buffer of zeros: the number of bytes, the buffer, and what is still to come. -/
def recv (conn : List Piece) (size : ℕ) : ℕ × Buffer × List Piece :=
  match conn with
  | [] => (0, List.replicate size 0, [])
  | data :: conn => (data.1.length, data.1 ++ List.replicate (size - data.1.length) 0, conn)

/-- `want != null && self.__read__ >= want` -/
def hasRead (want : Option Number) (read : ℕ) : Bool := want.any fun want => want.toRat ≤ (read : ℚ)

/-- The end of `chunk`, which receives. -/
def receive (polling : Polling) (self : HTTPResponse) (conn : List Piece) : Step (Option Buffer) :=
  let ready := polling.ready conn.length
  if ready = 0 then (.error ⟨"HTTPError", "timed out reading response body"⟩, self)
  else if ready < 0 then (.error ⟨"HTTPError", "connection error while reading response body"⟩, self)
  else
    let (n, chunkBuf, conn) := recv conn 65536
    let self := { self with conn := some conn }
    if n ≤ 0 then (.ok none, self.autoCloser)
    else
      let chunk := if n < chunkBuf.length then chunkBuf.take n else chunkBuf
      (.ok (some chunk), { self with read := self.read + chunk.length })

/-- `chunk`, with `none` for null. -/
def chunk (polling : Polling) (ctype : CType) (self : HTTPResponse) : Option (Step (Option Buffer)) :=
  match self.bodyDone, self.conn with
  | true, _ => some (.ok none, self)
  | false, none => some (.ok none, self)
  | false, some conn =>
    (self.findContentLength ctype).map fun
      | (.error err, self) => (.error err, self)
      | (.ok want, self) =>
        match self.bodyBuf with
        | chunk :: bodyBuf => (.ok (some chunk), { self with bodyBuf := bodyBuf, read := chunk.length })
        | [] => if hasRead want self.read then (.ok none, self.autoCloser) else receive polling self conn

/-- The loop of `array(self)` over `__next__`, which raises `StopIteration` for null. -/
def arrayLoop (polling : Polling) (ctype : CType) : ℕ → List Buffer → HTTPResponse → Option (Step (List Buffer))
  | 0, _, _ => none
  | fuel + 1, items, self =>
    match self.chunk polling ctype with
    | none => none
    | some (.error err, self) => some (.error err, self)
    | some (.ok none, self) => some (.ok items, self)
    | some (.ok (some chunk), self) => arrayLoop polling ctype fuel (items ++ [chunk]) self

/-- `array(self)`. There is at most a chunk for the leftover and one for each piece. -/
def array (polling : Polling) (ctype : CType) (self : HTTPResponse) : Option (Step (List Buffer)) :=
  arrayLoop polling ctype (self.bodyBuf.length + (self.conn.getD []).length + 1) [] self

/-- `__body_buffer__`, which `bytes` returns. -/
def bodyBuffer (polling : Polling) (ctype : CType) (self : HTTPResponse) : Option (Step Buffer) :=
  (self.array polling ctype).map fun
    | (.error err, self) => (.error err, self)
    | (.ok [chunk], self) => (.ok chunk, self)
    | (.ok buf, self) => (.ok (buf.foldl (· ++ ·) []), self)

end HTTPResponse

/-! ## What it should do -/

/-- The headers declare a length in decimal digits, or none. -/
def Declares (ctype : CType) (headers : List (Buffer × Buffer)) : Option ℕ → Prop
  | none => ∀ value ∈ headers, lowerBytes ctype value.1 ≠ HTTPResponse.contentLengthName
  | some n => ∃ name digits,
    headers.find? (fun value => lowerBytes ctype value.1 = HTTPResponse.contentLengthName) = some (name, digits) ∧
      digits ≠ [] ∧ (∀ c ∈ digits, isDigit c = true) ∧ mpzSetStr digits 10 = n

/-- The body of a declared length at the beginning of the bytes that come, if it is there as a whole. -/
def bodyOf (stream : Buffer) : Option ℕ → Option Buffer
  | none => some stream
  | some n => if n ≤ stream.length then some (stream.take n) else none

/-- An iteration should give the body in chunks and then no more, and `bytes` the body; both should raise an error if it
is not there as a whole. -/
structure GivesBody (polling : Polling) (ctype : CType) (response : HTTPResponse) (body : Option Buffer) : Prop where
  whole : ∀ b, body = some b → ∃ chunks left left',
    response.array polling ctype = some (.ok chunks, left) ∧ chunks.flatten = b ∧
      left.chunk polling ctype = some (.ok none, left') ∧ response.bodyBuffer polling ctype = some (.ok b, left)
  cut : body = none → ∃ err err' left left', response.array polling ctype = some (.error err, left) ∧
    response.bodyBuffer polling ctype = some (.error err', left')

/-- The body ends with the leftover or with a piece behind it. -/
def EndsWithPiece (leftover : Buffer) (pieces : List Piece) (n : ℕ) : Prop :=
  ∃ k, n = leftover.length + (streamOf (pieces.take k)).length

/-! ## One chunk -/

variable {polling : Polling} {ctype : CType} {headers : List (Buffer × Buffer)} {n : Option ℕ}

/-- The number of a declared length. -/
def wanted (n : Option ℕ) : Option Number := n.map fun n => newNumberObject (Mpq.ofRat n)

/-- A declared length has been read. -/
def Reached (n : Option ℕ) (read : ℕ) : Prop := ∃ m, n = some m ∧ m ≤ read

theorem hasRead_wanted (n : Option ℕ) (read : ℕ) : HTTPResponse.hasRead (wanted n) read = true ↔ Reached n read := by
  cases n with
  | none => simp [HTTPResponse.hasRead, wanted, Reached]
  | some m =>
    have hvalue : (newNumberObject (Mpq.ofRat m)).toRat = m := by rw [newNumberObject_toRat, Mpq.toRat_ofRat]
    simp [HTTPResponse.hasRead, wanted, Reached, hvalue]

/-- The value of the header that is found is the one under its name. -/
theorem lookup_of_find? {p : Buffer × Buffer → Prop} [DecidablePred p] {value : Buffer × Buffer}
    (hp : ∀ a b : Buffer × Buffer, a.1 = b.1 → (p a ↔ p b)) (h : headers.find? (p ·) = some value) :
    headers.lookup value.1 = some value.2 := by
  induction headers with
  | nil => cases h
  | cons a headers ih =>
    obtain ⟨name, text⟩ := a
    rw [List.find?_cons] at h
    split at h
    · obtain rfl := Option.some.inj h
      exact List.lookup_cons_self
    next hnot =>
      have hfound : p value := by simpa using List.find?_some h
      have hne : value.1 ≠ name := fun heq => by simp [hp (name, text) value heq.symm, hfound] at hnot
      rw [List.lookup_cons, beq_false_of_ne hne]
      exact ih h

namespace HTTPResponse

/-- A response with nothing left of the header, when some of the body has been read. -/
def midway (n : Option ℕ) (headers : List (Buffer × Buffer)) (autoClose : Bool) (read : ℕ) (pieces : List Piece) :
    HTTPResponse where
  headers := headers
  conn := some pieces
  autoClose := autoClose
  contentLength := wanted n
  read := read
  bodyDone := false
  bodyBuf := []

variable {autoClose : Bool} {read : ℕ} {pieces : List Piece}

/-- The declared length is found, and kept. -/
theorem findContentLength_eq (h : Declares ctype headers n) (self : HTTPResponse) (hheaders : self.headers = headers)
    (hkept : self.contentLength = none ∨ self.contentLength = wanted n) :
    self.findContentLength ctype = some (.ok (wanted n), { self with contentLength := wanted n }) := by
  obtain ⟨fields, conn, closes, kept, count, isDone, buf⟩ := self
  subst hheaders
  unfold findContentLength
  cases n with
  | none =>
    obtain rfl : kept = none := hkept.elim id id
    have hnone : fields.find? (fun value => lowerBytes ctype value.1 = contentLengthName) = none := by
      rw [List.find?_eq_none]
      intro value hvalue
      simpa using h value hvalue
    simp only [hnone]
    rfl
  | some m =>
    cases kept with
    | some kept =>
      obtain rfl : kept = newNumberObject (Mpq.ofRat m) := Option.some.inj (hkept.resolve_left nofun)
      rfl
    | none =>
      obtain ⟨name, digits, hfind, hne, hdigits, rfl⟩ := h
      have hlookup := lookup_of_find? (fun a b hab => by rw [hab]) hfind
      simp only [hfind, hlookup, Option.getD_some, numberOfString_decimal hne hdigits]
      rfl

theorem findContentLength_midway (h : Declares ctype headers n) :
    (midway n headers autoClose read pieces).findContentLength ctype =
      some (.ok (wanted n), midway n headers autoClose read pieces) :=
  findContentLength_eq h _ rfl (.inr rfl)

/-- The bytes that `recv` has written. -/
theorem take_recv (p : Piece) : (if p.1.length < (p.1 ++ List.replicate (65536 - p.1.length) (0 : UInt8)).length then
    (p.1 ++ List.replicate (65536 - p.1.length) 0).take p.1.length
      else p.1 ++ List.replicate (65536 - p.1.length) 0) = p.1 := by
  have hle := p.2.2
  rw [List.length_append, List.length_replicate]
  split
  · exact List.take_left
  · rw [Nat.sub_eq_zero_of_le (by omega), List.replicate_zero, List.append_nil]

/-- Receiving the next piece. -/
theorem receive_cons (self : HTTPResponse) (p : Piece) : receive polling self (p :: pieces) =
    (.ok (some p.1), { self with conn := some pieces, read := self.read + p.1.length }) := by
  have hready := polling.ready_pos (p :: pieces).length
  unfold receive
  dsimp only [recv]
  rw [if_neg hready.ne', if_neg hready.not_gt, if_neg (Nat.not_le_of_gt p.2.1), take_recv]

/-- Receiving at the end of the connection. -/
theorem receive_nil (self : HTTPResponse) :
    receive polling self [] = (.ok none, { self with conn := some [] }.autoCloser) := by
  have hready := polling.ready_pos 0
  unfold receive
  dsimp only [recv, List.length_nil]
  rw [if_neg hready.ne', if_neg hready.not_gt, if_pos le_rfl]

/-- Behind the header, a chunk is what is received before the end of the body. -/
theorem chunk_midway (h : Declares ctype headers n) :
    (midway n headers autoClose read pieces).chunk polling ctype =
      some (if hasRead (wanted n) read then (.ok none, (midway n headers autoClose read pieces).autoCloser)
      else receive polling (midway n headers autoClose read pieces) pieces) := by
  unfold chunk
  simp only [findContentLength_midway h, Option.map_some]
  rfl

theorem chunk_reached (h : Declares ctype headers n) (hreached : Reached n read) :
    (midway n headers autoClose read pieces).chunk polling ctype =
      some (.ok none, (midway n headers autoClose read pieces).autoCloser) := by
  rw [chunk_midway h, if_pos ((hasRead_wanted n read).mpr hreached)]

theorem chunk_end (h : Declares ctype headers n) : (midway n headers autoClose read []).chunk polling ctype =
    some (.ok none, (midway n headers autoClose read []).autoCloser) := by
  rw [chunk_midway h, receive_nil]
  exact congrArg some (ite_self _)

theorem chunk_piece (h : Declares ctype headers n) (hreached : ¬Reached n read) (p : Piece) :
    (midway n headers autoClose read (p :: pieces)).chunk polling ctype =
      some (.ok (some p.1), midway n headers autoClose (read + p.1.length) pieces) := by
  rw [chunk_midway h, if_neg (mt (hasRead_wanted n read).mp hreached), receive_cons]
  rfl

/-- The end stays the end. -/
theorem chunk_autoCloser {self : HTTPResponse} (h : self.chunk polling ctype = some (.ok none, self.autoCloser)) :
    ∃ left, self.autoCloser.chunk polling ctype = some (.ok none, left) := by
  unfold autoCloser at h ⊢
  split at h
  next hcloses =>
    rw [if_pos hcloses]
    exact ⟨self.close, rfl⟩
  next hcloses =>
    rw [if_neg hcloses]
    exact ⟨self, h⟩

/-! ## A whole iteration -/

/-- An iteration goes on to the first piece with which the declared length is reached, or to the last one. -/
theorem arrayLoop_midway (polling : Polling) (h : Declares ctype headers n) (autoClose : Bool) (read : ℕ)
    (pieces : List Piece) {fuel : ℕ} (hfuel : pieces.length < fuel) (items : List Buffer) :
    ∃ k left left', arrayLoop polling ctype fuel items (midway n headers autoClose read pieces) =
        some (.ok (items ++ (pieces.take k).map Subtype.val), left) ∧
      left.chunk polling ctype = some (.ok none, left') ∧
      (∀ j < k, ¬Reached n (read + (streamOf (pieces.take j)).length)) ∧
      (Reached n (read + (streamOf (pieces.take k)).length) ∨ pieces.length ≤ k) := by
  induction pieces generalizing fuel read items with
  | nil =>
    obtain ⟨fuel, rfl⟩ := Nat.exists_eq_succ_of_ne_zero (Nat.ne_of_gt hfuel)
    have hend : (midway n headers autoClose read []).chunk polling ctype = _ := chunk_end h
    obtain ⟨left', hleft⟩ := chunk_autoCloser hend
    refine ⟨0, _, left', ?_, hleft, nofun, .inr le_rfl⟩
    rw [arrayLoop, hend, List.take_nil, List.map_nil, List.append_nil]
  | cons p pieces ih =>
    obtain ⟨fuel, rfl⟩ := Nat.exists_eq_succ_of_ne_zero (Nat.ne_of_gt (Nat.zero_lt_of_lt hfuel))
    by_cases hreached : Reached n read
    · have hend : (midway n headers autoClose read (p :: pieces)).chunk polling ctype = _ := chunk_reached h hreached
      obtain ⟨left', hleft⟩ := chunk_autoCloser hend
      refine ⟨0, _, left', ?_, hleft, nofun, .inl hreached⟩
      rw [arrayLoop, hend, List.take_zero, List.map_nil, List.append_nil]
    · obtain ⟨k, left, left', hloop, hleft, hbefore, hafter⟩ :=
        ih (read + p.1.length) (Nat.succ_lt_succ_iff.mp hfuel) (items ++ [p.1])
      have hread (k : ℕ) : read + (streamOf ((p :: pieces).take (k + 1))).length =
          read + p.1.length + (streamOf (pieces.take k)).length := by
        rw [List.take_succ_cons, streamOf, List.map_cons, List.flatten_cons, List.length_append, Nat.add_assoc]
        rfl
      refine ⟨k + 1, left, left', ?_, hleft, ?_, ?_⟩
      · rw [arrayLoop, chunk_piece h hreached]
        exact hloop.trans (by simp)
      · intro j hj
        cases j with
        | zero => exact hreached
        | succ j =>
          rw [hread]
          exact hbefore j (Nat.lt_of_succ_lt_succ hj)
      · rw [hread]
        exact hafter.imp id fun hle => Nat.succ_le_succ hle

theorem bodyBuf_init_of_pos {leftover : Buffer} (hpos : 0 < leftover.length) :
    (init headers pieces (some leftover) autoClose).bodyBuf = [leftover] := by
  simpa [init] using hpos

/-- Without a leftover, the first chunk is received. -/
theorem chunk_init_of_empty (h : Declares ctype headers n) {leftover : Option Buffer}
    (hbuf : (init headers pieces leftover autoClose).bodyBuf = []) :
    (init headers pieces leftover autoClose).chunk polling ctype =
      (midway n headers autoClose 0 pieces).chunk polling ctype := by
  have hfind := findContentLength_eq h (init headers pieces leftover autoClose) rfl (.inl rfl)
  have hmidway : { init headers pieces leftover autoClose with contentLength := wanted n } =
      midway n headers autoClose 0 pieces := by
    unfold midway
    rw [← hbuf]
    rfl
  unfold chunk
  rw [hfind, findContentLength_midway h, hmidway]
  rfl

/-- A leftover is the first chunk. -/
theorem chunk_init_of_leftover (h : Declares ctype headers n) {leftover : Buffer} (hpos : 0 < leftover.length) :
    (init headers pieces (some leftover) autoClose).chunk polling ctype =
      some (.ok (some leftover), midway n headers autoClose leftover.length pieces) := by
  have hfind := findContentLength_eq h (init headers pieces (some leftover) autoClose) rfl (.inl rfl)
  have hbuf : (init headers pieces (some leftover) autoClose).bodyBuf = [leftover] := bodyBuf_init_of_pos hpos
  unfold chunk
  rw [hfind]
  dsimp only [Option.map_some]
  rw [hbuf]
  rfl

/-- An iteration from the start hands out the leftover first. -/
theorem array_init (polling : Polling) (h : Declares ctype headers n) (leftover : Option Buffer)
    (pieces : List Piece) (autoClose : Bool) :
    ∃ k chunks left left', (init headers pieces leftover autoClose).array polling ctype = some (.ok chunks, left) ∧
      chunks.flatten = leftover.getD [] ++ streamOf (pieces.take k) ∧
      left.chunk polling ctype = some (.ok none, left') ∧
      (∀ j < k, ¬Reached n ((leftover.getD []).length + (streamOf (pieces.take j)).length)) ∧
      (Reached n ((leftover.getD []).length + (streamOf (pieces.take k)).length) ∨ pieces.length ≤ k) := by
  by_cases hpos : ∃ b, leftover = some b ∧ 0 < b.length
  · obtain ⟨b, rfl, hpos⟩ := hpos
    have hbuf : (init headers pieces (some b) autoClose).bodyBuf = [b] := bodyBuf_init_of_pos hpos
    have hfuel : pieces.length < 1 + pieces.length := by omega
    obtain ⟨k, left, left', hloop, hleft, hbefore, hafter⟩ :=
      arrayLoop_midway polling h autoClose b.length pieces hfuel [b]
    refine ⟨k, _, left, left', ?_, List.flatten_cons, hleft, hbefore, hafter⟩
    unfold array
    rw [hbuf, arrayLoop, chunk_init_of_leftover h hpos]
    exact hloop
  · have hnil : leftover.getD [] = [] := by
      cases leftover with
      | none => rfl
      | some b => exact List.eq_nil_of_length_eq_zero (by simpa using hpos)
    have hbuf : (init headers pieces leftover autoClose).bodyBuf = [] := by
      apply List.filter_eq_nil_iff.mpr
      intro b hb
      simpa using fun hlt => hpos ⟨b, Option.mem_toList.mp hb, hlt⟩
    obtain ⟨k, left, left', hloop, hleft, hbefore, hafter⟩ :=
      arrayLoop_midway polling h autoClose 0 pieces (Nat.lt_succ_self _) []
    rw [hnil]
    refine ⟨k, (pieces.take k).map Subtype.val, left, left', ?_, rfl, hleft, hbefore, hafter⟩
    rw [arrayLoop, ← chunk_init_of_empty h hbuf] at hloop
    unfold array
    rw [hbuf, List.length_nil, Nat.zero_add, arrayLoop]
    exact hloop

/-- `__body_buffer__` puts the chunks together. -/
theorem bodyBuffer_eq {self left : HTTPResponse} {chunks : List Buffer}
    (h : self.array polling ctype = some (.ok chunks, left)) :
    self.bodyBuffer polling ctype = some (.ok chunks.flatten, left) := by
  unfold bodyBuffer
  rw [h, Option.map_some]
  split
  next heq => cases heq
  next heq =>
    cases heq
    rw [List.flatten_singleton]
  next heq =>
    cases heq
    rw [List.foldl_append_eq_append, List.nil_append, List.map_id']

end HTTPResponse

/-! ## The theorem -/

open HTTPResponse (array_init bodyBuffer_eq)

theorem streamOf_take_append_drop (k : ℕ) (pieces : List Piece) :
    streamOf (pieces.take k) ++ streamOf (pieces.drop k) = streamOf pieces := by
  unfold streamOf
  rw [← List.flatten_append, ← List.map_append, List.take_append_drop]

theorem length_streamOf_take_le {k k' : ℕ} (h : k ≤ k') (pieces : List Piece) :
    (streamOf (pieces.take k)).length ≤ (streamOf (pieces.take k')).length := by
  have hsplit := streamOf_take_append_drop k (pieces.take k')
  rw [List.take_take, Nat.min_eq_left h] at hsplit
  rw [← hsplit, List.length_append]
  exact Nat.le_add_right _ _

/-- Iterating a response, and `bytes`, give the body that the response declares exactly when it ends with the leftover
of the header or with a piece that is received. -/
theorem body_iff (polling : Polling) (ctype : CType) {headers : List (Buffer × Buffer)} {n : Option ℕ}
    (h : Declares ctype headers n) (leftover : Option Buffer) (pieces : List Piece) (autoClose : Bool) :
    GivesBody polling ctype (HTTPResponse.init headers pieces leftover autoClose)
        (bodyOf (leftover.getD [] ++ streamOf pieces) n) ↔
      ∀ m, n = some m → EndsWithPiece (leftover.getD []) pieces m := by
  obtain ⟨k, chunks, left, left', harray, hflatten, hleft, hbefore, hafter⟩ :=
    array_init polling h leftover pieces autoClose
  have hstream : leftover.getD [] ++ streamOf pieces = chunks.flatten ++ streamOf (pieces.drop k) := by
    rw [hflatten, List.append_assoc, streamOf_take_append_drop]
  constructor
  · rintro hgives m rfl
    have hle : m ≤ (leftover.getD [] ++ streamOf pieces).length := by
      by_contra hlt
      obtain ⟨err, _, left₂, _, herror, -⟩ := hgives.cut (if_neg hlt)
      cases harray.symm.trans herror
    obtain ⟨chunks', left₂, _, harray', hbody, -⟩ := hgives.whole _ (if_pos hle)
    obtain ⟨rfl, -⟩ : chunks = chunks' ∧ left = left₂ := by
      have heq := Option.some.inj (harray.symm.trans harray')
      exact ⟨Except.ok.inj (congrArg Prod.fst heq), congrArg Prod.snd heq⟩
    refine ⟨k, ?_⟩
    calc m = ((leftover.getD [] ++ streamOf pieces).take m).length := (List.length_take_of_le hle).symm
      _ = (leftover.getD [] ++ streamOf (pieces.take k)).length := by rw [← hbody, hflatten]
      _ = (leftover.getD []).length + (streamOf (pieces.take k)).length := List.length_append
  · intro hends
    -- the chunks are the body
    have hbody : bodyOf (leftover.getD [] ++ streamOf pieces) n = some chunks.flatten := by
      cases n with
      | none =>
        have hall : pieces.length ≤ k := hafter.resolve_left fun ⟨m, hm, _⟩ => nomatch hm
        rw [hstream, List.drop_eq_nil_of_le hall]
        exact congrArg some (List.append_nil _)
      | some m =>
        obtain ⟨k', hk'⟩ := hends m rfl
        have hkk' : k ≤ k' := by
          by_contra hlt
          exact hbefore k' (not_le.mp hlt) ⟨m, rfl, hk'.le⟩
        have hlength : chunks.flatten.length = m := by
          have hle := length_streamOf_take_le hkk' pieces
          rw [hflatten, List.length_append]
          rcases hafter with ⟨m', hm', hreached⟩ | hall
          · obtain rfl := Option.some.inj hm'
            omega
          · rw [List.take_of_length_le hall, ← List.take_of_length_le (hall.trans hkk')]
            exact hk'.symm
        have hle : m ≤ (leftover.getD [] ++ streamOf pieces).length := by
          rw [hstream, List.length_append]
          omega
        have htake : (leftover.getD [] ++ streamOf pieces).take m = chunks.flatten := by
          rw [hstream, ← hlength, List.take_left]
        rw [← htake]
        exact if_pos hle
    rw [hbody]
    refine ⟨fun b hb => ?_, nofun⟩
    obtain rfl := Option.some.inj hb
    exact ⟨chunks, left, left', harray, rfl, hleft, bodyBuffer_eq harray⟩

/-- A header that declares a length. -/
def lengthHeader (digits : Buffer) : List (Buffer × Buffer) := [("Content-Length".toList.map byte, digits)]

theorem declares_lengthHeader {digits : Buffer} (hne : digits ≠ []) (h : ∀ c ∈ digits, isDigit c = true) :
    Declares CType.ascii (lengthHeader digits) (some (mpzSetStr digits 10)) := by
  have hname : lowerBytes CType.ascii ("Content-Length".toList.map byte) = HTTPResponse.contentLengthName := by decide
  exact ⟨_, digits, List.find?_cons_of_pos (decide_eq_true hname), hne, h, rfl⟩

theorem alwaysReady_pos (_ : ℕ) : (0 : ℤ) < 1 := Int.one_pos

/-- A connection that is always ready. -/
def alwaysReady : Polling := ⟨fun _ => 1, alwaysReady_pos⟩

/-- Three bytes behind the header are a body of three bytes. -/
theorem body_three : GivesBody alwaysReady CType.ascii
    (HTTPResponse.init (lengthHeader [51]) [] (some [97, 98, 99]) true) (some [97, 98, 99]) :=
  have hdeclares : Declares CType.ascii (lengthHeader [51]) (some 3) :=
    declares_lengthHeader (by decide) (List.forall_mem_singleton.mpr rfl)
  (body_iff alwaysReady CType.ascii hdeclares (some [97, 98, 99]) [] true).mpr fun m hm =>
    ⟨0, (Option.some.inj hm).symm⟩

/-- Three bytes behind the header are no body of two bytes. -/
theorem not_forall_body : ¬∀ (polling : Polling) (ctype : CType) (headers : List (Buffer × Buffer)) (n : Option ℕ)
    (leftover : Option Buffer) (pieces : List Piece) (autoClose : Bool), Declares ctype headers n →
      GivesBody polling ctype (HTTPResponse.init headers pieces leftover autoClose)
        (bodyOf (leftover.getD [] ++ streamOf pieces) n) := by
  intro hall
  have hdeclares : Declares CType.ascii (lengthHeader [50]) (some 2) := declares_lengthHeader (by decide) (List.forall_mem_singleton.mpr rfl)
  have hgives := hall alwaysReady _ _ _ (some [97, 98, 99]) [] true hdeclares
  obtain ⟨chunks', _, _, harray', hbody, -⟩ := hgives.whole [97, 98] (by decide)
  obtain ⟨k, chunks, _, _, harray, hflatten, -⟩ :=
    array_init alwaysReady hdeclares (some [97, 98, 99]) [] true
  have heq := Option.some.inj (harray.symm.trans harray')
  obtain rfl : chunks = chunks' := Except.ok.inj (congrArg Prod.fst heq)
  rw [List.take_nil] at hflatten
  cases hbody.symm.trans hflatten

end Http

end Chloride
