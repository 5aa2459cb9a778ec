import Chloride.Objects.Buffers

/-!
# Reading the header of an HTTP response

`__http_read_header__` of `stdlib/network/init.ar`, over a connection whose bytes arrive in pieces of any
size. It asks for the limit and a terminator more in all, but it compares the limit with all that it has
received, part of the terminator included. So a header within the limit is refused if the bytes of its
terminator are cut off at or behind the limit, which `reads_rightly_iff` states.
-/

namespace Chloride

namespace Http

open Substring
open Buffers (foundAt partition foundAt_eq)

/-- The bytes of a buffer. -/
abbrev Buffer := List UInt8

/-- `__HEADER_TERM__`: two line ends. -/
def headerTerm : Buffer := [13, 10, 13, 10]

/-! ## The connection -/

/-- How the bytes of a stream arrive: what `poll` returns in a round, and how many bytes are there when
`recv` is called in it. -/
structure Arrival where
  ready : ℕ → ℤ
  cut : ℕ → ℕ
  ready_pos : ∀ k, 0 < ready k
  cut_pos : ∀ k, 0 < cut k

/-- A connection: what is still to come, and what `recv` has filled its buffers with. -/
structure Conn where
  pending : Buffer
  received : List Buffer

def Conn.start (stream : Buffer) : Conn := { pending := stream, received := [] }

/-- The bytes that one call of `recv` with a buffer of a size gives. There are none when the stream is at
its end. -/
def Arrival.recv (a : Arrival) (conn : Conn) (size : ℕ) : Buffer :=
  conn.pending.take (min (a.cut conn.received.length) size)

def Conn.after (conn : Conn) (data : Buffer) : Conn :=
  { pending := conn.pending.drop data.length, received := conn.received ++ [data] }

/-! ## The loop -/

/-- The reasons of an `HTTPError`. -/
inductive HttpError
  | tooLarge (maxHeaderSize : ℤ)
  | timedOut
  | failed
  | closed
  deriving DecidableEq

def HttpError.message : HttpError → String
  | .tooLarge maxHeaderSize => "response header exceeded max_header_size (" ++ toString maxHeaderSize ++
      " bytes) before a terminator was found"
  | .timedOut => "timed out waiting for response headers"
  | .failed => "connection error while waiting for response headers"
  | .closed => "connection closed before response headers were complete"

/-- What a call ends with: the header block and the bytes behind its terminator, or an error, and the
connection it leaves. -/
abbrev Result := Except HttpError (Buffer × Buffer) × Conn

/-- The rounds of `__http_read_header__`. -/
def readHeader (a : Arrival) (maxHeaderSize : ℤ) : ℕ → Buffer → Conn → Option Result
  | 0, _, _ => none
  | fuel + 1, buf, conn =>
    let parts := partition buf headerTerm
    if parts.2.1.length = headerTerm.length then some (.ok (parts.1, parts.2.2), conn)
    else if maxHeaderSize ≤ buf.length then some (.error (.tooLarge maxHeaderSize), conn)
    else
      let ready := a.ready conn.received.length
      if ready = 0 then some (.error .timedOut, conn)
      else if ready < 0 then some (.error .failed, conn)
      else
        let remainingBudget := maxHeaderSize - buf.length + headerTerm.length
        let chunk := a.recv conn remainingBudget.toNat
        if chunk.length ≤ 0 then some (.error .closed, conn)
        else readHeader a maxHeaderSize fuel (buf ++ chunk) (conn.after chunk)

/-- A call on a fresh connection. Each round but the last receives a byte, so there is a round for every
byte and one more. -/
def httpReadHeader (a : Arrival) (maxHeaderSize : ℤ) (stream : Buffer) : Option Result :=
  readHeader a maxHeaderSize (stream.length + 1) [] (Conn.start stream)

/-- What a caller sees of a result, the bytes behind the terminator aside: there are as many of them as
have arrived. -/
def Result.outcome (r : Result) : Except HttpError Buffer := r.1.map Prod.fst

/-! ## The first blank line -/

/-- Where the header of a stream ends. -/
def headerEnd (stream : Buffer) : Option ℕ := firstFrom headerTerm stream 0

/-! ## A call ends -/

/-- What has been received is the beginning of the stream. -/
structure Reading (stream : Buffer) (maxHeaderSize : ℤ) (buf : Buffer) (conn : Conn) : Prop where
  received : conn.received.flatten = buf
  stream : buf ++ conn.pending = stream
  bounded : buf = [] ∨ buf.length ≤ maxHeaderSize + headerTerm.length

/-- How a call ends, when its connection is ready in every round. -/
inductive Ends (stream : Buffer) (maxHeaderSize : ℤ) : Result → Prop
  | header {buf block leftover : Buffer} {conn : Conn} (hreading : Reading stream maxHeaderSize buf conn)
      (hfound : headerEnd buf = some block.length) (heq : block ++ headerTerm ++ leftover = buf) :
      Ends stream maxHeaderSize (.ok (block, leftover), conn)
  | tooLarge {buf : Buffer} {conn : Conn} (hreading : Reading stream maxHeaderSize buf conn)
      (hnone : headerEnd buf = none) (hle : maxHeaderSize ≤ buf.length) :
      Ends stream maxHeaderSize (.error (.tooLarge maxHeaderSize), conn)
  | closed {buf : Buffer} {conn : Conn} (hreading : Reading stream maxHeaderSize buf conn)
      (hnone : headerEnd buf = none) (hlt : buf.length < maxHeaderSize) (hall : buf = stream) :
      Ends stream maxHeaderSize (.error .closed, conn)

variable {stream buf : Buffer} {maxHeaderSize : ℤ} {conn : Conn} {a : Arrival}

theorem reading_start (stream : Buffer) (maxHeaderSize : ℤ) :
    Reading stream maxHeaderSize [] (Conn.start stream) :=
  { received := rfl, stream := rfl, bounded := Or.inl rfl }

/-- A receive moves its bytes from the pending ones to the buffer, and it never takes more than the limit
and a terminator in all. -/
theorem Reading.after (h : Reading stream maxHeaderSize buf conn) (hlt : buf.length < maxHeaderSize)
    {chunk : Buffer}
    (hchunk : chunk = a.recv conn (maxHeaderSize - buf.length + headerTerm.length).toNat) :
    Reading stream maxHeaderSize (buf ++ chunk) (conn.after chunk) where
  received := by simp [Conn.after, h.received]
  stream := by
    have hdata : chunk ++ conn.pending.drop chunk.length = conn.pending := by
      rw [hchunk, Arrival.recv, List.length_take]
      nth_rewrite 1 [List.take_eq_take_min]
      exact List.take_append_drop _ _
    rw [Conn.after, List.append_assoc, hdata, h.stream]
  bounded := by
    right
    have hlength : chunk.length ≤ (maxHeaderSize - buf.length + headerTerm.length).toNat := by
      rw [hchunk, Arrival.recv, List.length_take]
      omega
    rw [List.length_append]
    omega

theorem partition_of_some {i : ℕ} (h : headerEnd buf = some i) :
    partition buf headerTerm = (buf.take i, headerTerm, buf.drop (i + headerTerm.length)) := by
  rw [headerEnd, ← foundAt_eq] at h
  rw [partition, h]

theorem partition_of_none (h : headerEnd buf = none) : partition buf headerTerm = (buf, [], []) := by
  rw [headerEnd, ← foundAt_eq] at h
  rw [partition, h]

/-! What a round does. -/

theorem readHeader_found (fuel : ℕ) {i : ℕ} (h : headerEnd buf = some i) :
    readHeader a maxHeaderSize (fuel + 1) buf conn =
      some (.ok (buf.take i, buf.drop (i + headerTerm.length)), conn) := by
  simp only [readHeader, partition_of_some h, if_true]

theorem readHeader_tooLarge (fuel : ℕ) (h : headerEnd buf = none) (hle : maxHeaderSize ≤ buf.length) :
    readHeader a maxHeaderSize (fuel + 1) buf conn = some (.error (.tooLarge maxHeaderSize), conn) := by
  simp only [readHeader, partition_of_none h]
  rw [if_neg (by decide), if_pos hle]

theorem readHeader_receive (fuel : ℕ) (h : headerEnd buf = none) (hlt : buf.length < maxHeaderSize)
    {chunk : Buffer} (hchunk : a.recv conn (maxHeaderSize - buf.length + headerTerm.length).toNat = chunk) :
    readHeader a maxHeaderSize (fuel + 1) buf conn =
      if chunk.length ≤ 0 then some (.error .closed, conn)
      else readHeader a maxHeaderSize fuel (buf ++ chunk) (conn.after chunk) := by
  have hready := a.ready_pos conn.received.length
  subst hchunk
  simp only [readHeader, partition_of_none h]
  rw [if_neg (by decide), if_neg (by omega), if_neg hready.ne', if_neg (by omega)]

/-- By induction on the rounds: what is pending gets shorter in each. -/
theorem readHeader_ends {fuel : ℕ} (h : Reading stream maxHeaderSize buf conn)
    (hfuel : conn.pending.length < fuel) :
    ∃ r, readHeader a maxHeaderSize fuel buf conn = some r ∧ Ends stream maxHeaderSize r := by
  induction fuel generalizing buf conn with
  | zero => omega
  | succ fuel ih =>
    cases hfound : headerEnd buf with
    | some i =>
      have hoccurs := (firstFrom_eq_some_iff.mp hfound).1.2
      have hlength : (buf.take i).length = i := by
        have hle := hoccurs.1
        rw [List.length_take]
        omega
      rw [readHeader_found fuel hfound]
      exact ⟨_, rfl, .header h (by rw [hlength, hfound]) hoccurs.take_append_drop⟩
    | none =>
      by_cases hle : maxHeaderSize ≤ buf.length
      · rw [readHeader_tooLarge fuel hfound hle]
        exact ⟨_, rfl, .tooLarge h hfound hle⟩
      · have hlt : buf.length < maxHeaderSize := by omega
        rw [readHeader_receive fuel hfound hlt rfl]
        split
        case isTrue hzero =>
          -- Nothing is received of a stream with a byte left.
          have hcut := a.cut_pos conn.received.length
          rw [Arrival.recv, List.length_take] at hzero
          have hpending : conn.pending = [] := List.eq_nil_of_length_eq_zero (by omega)
          have hall := h.stream
          rw [hpending, List.append_nil] at hall
          exact ⟨_, rfl, .closed h hfound hlt hall⟩
        case isFalse hpos =>
          apply ih (h.after hlt rfl)
          have hchunk : (a.recv conn (maxHeaderSize - buf.length + headerTerm.length).toNat).length ≤
              conn.pending.length := by
            rw [Arrival.recv, List.length_take]
            omega
          simp only [Conn.after, List.length_drop]
          omega

/-- Every call ends, with a header or with one of two errors. -/
theorem httpReadHeader_ends (a : Arrival) (maxHeaderSize : ℤ) (stream : Buffer) :
    ∃ r, httpReadHeader a maxHeaderSize stream = some r ∧ Ends stream maxHeaderSize r :=
  readHeader_ends (reading_start stream maxHeaderSize) (Nat.lt_succ_self _)

/-- What has arrived holds the first blank line when all of it has arrived. -/
theorem Reading.headerEnd_eq_some_iff (h : Reading stream maxHeaderSize buf conn) {p : ℕ} :
    headerEnd buf = some p ↔ headerEnd stream = some p ∧ p + headerTerm.length ≤ buf.length := by
  rw [← h.stream]
  exact firstFrom_append_iff

theorem Reading.length_le (h : Reading stream maxHeaderSize buf conn) : buf.length ≤ stream.length := by
  rw [← h.stream, List.length_append]
  omega

/-- A header that is returned is the one of the stream, and it is within the limit. -/
theorem Ends.of_ok {block leftover : Buffer} (h : Ends stream maxHeaderSize (.ok (block, leftover), conn)) :
    headerEnd stream = some block.length ∧ (block.length : ℤ) ≤ maxHeaderSize ∧
      conn.received.flatten <+: stream ∧ block ++ headerTerm ++ leftover = conn.received.flatten := by
  cases h with
  | header hreading hfound heq =>
    obtain ⟨hend, hle⟩ := hreading.headerEnd_eq_some_iff.mp hfound
    have hbounded : (block.length : ℤ) ≤ maxHeaderSize := by
      rcases hreading.bounded with hnil | hbound
      · rw [hnil, headerTerm] at hle
        simp at hle
      · omega
    rw [heq, hreading.received]
    exact ⟨hend, hbounded, ⟨_, hreading.stream⟩, rfl⟩

/-- A header that is refused ends behind the limit, or its terminator does. -/
theorem Ends.of_tooLarge {n : ℤ} (h : Ends stream maxHeaderSize (.error (.tooLarge n), conn)) :
    maxHeaderSize ≤ stream.length ∧
      ∀ p : ℕ, headerEnd stream = some p → maxHeaderSize < p + headerTerm.length := by
  cases h with
  | tooLarge hreading hnone hle =>
    have hlength := hreading.length_le
    refine ⟨by omega, fun p hp => ?_⟩
    by_contra hlt
    rw [hreading.headerEnd_eq_some_iff.mpr ⟨hp, by omega⟩] at hnone
    cases hnone

theorem Ends.of_closed (h : Ends stream maxHeaderSize (.error .closed, conn)) :
    stream.length < maxHeaderSize ∧ headerEnd stream = none := by
  cases h with
  | closed hreading hnone hlt hall =>
    subst hall
    exact ⟨hlt, hnone⟩

/-! ## Reading a header rightly -/

/-- What a call should do with a stream and a limit, however the bytes arrive. -/
structure ReadsRightly (stream : Buffer) (maxHeaderSize : ℤ) : Prop where
  /-- Two arrivals of the stream give the same header block, or the same error. -/
  same : ∀ a b : Arrival, (httpReadHeader a maxHeaderSize stream).map Result.outcome =
    (httpReadHeader b maxHeaderSize stream).map Result.outcome
  /-- The call returns the header or one of the two errors. -/
  ends : ∀ a : Arrival, ∃ r conn, httpReadHeader a maxHeaderSize stream = some (r, conn) ∧
    (r.isOk ∨ r = .error (.tooLarge maxHeaderSize) ∨ r = .error .closed)
  /-- The header block ends at the first blank line, and no received byte is lost. -/
  exact : ∀ (a : Arrival) (block leftover : Buffer) (conn : Conn),
    httpReadHeader a maxHeaderSize stream = some (.ok (block, leftover), conn) →
      headerEnd stream = some block.length ∧ conn.received.flatten <+: stream ∧
        block ++ headerTerm ++ leftover = conn.received.flatten
  /-- The limit is one of the header's length. -/
  limit : ∀ (a : Arrival) (p : ℕ), headerEnd stream = some p →
    ((p : ℤ) ≤ maxHeaderSize ↔
      ∃ block leftover conn, httpReadHeader a maxHeaderSize stream = some (.ok (block, leftover), conn))

/-- The limit is in the terminator of the header. -/
def LimitInTerm (stream : Buffer) (maxHeaderSize : ℤ) : Prop :=
  ∃ p : ℕ, headerEnd stream = some p ∧ p ≤ maxHeaderSize ∧ maxHeaderSize < p + headerTerm.length

/-- An arrival that gives as many bytes as there are up to the limit. -/
def arrivalAt (n : ℕ) (h : 0 < n) : Arrival where
  ready _ := 1
  cut _ := n
  ready_pos _ := one_pos
  cut_pos _ := h

/-- What a call gives when the limit is not in the terminator. -/
def headerOutcome (stream : Buffer) (maxHeaderSize : ℤ) : Except HttpError Buffer :=
  match headerEnd stream with
  | some p =>
    if p ≤ maxHeaderSize then .ok (stream.take p) else .error (.tooLarge maxHeaderSize)
  | none => if maxHeaderSize ≤ stream.length then .error (.tooLarge maxHeaderSize) else .error .closed

theorem Ends.outcome_eq {r : Result} (h : Ends stream maxHeaderSize r)
    (hlimit : ¬LimitInTerm stream maxHeaderSize) : r.outcome = headerOutcome stream maxHeaderSize := by
  obtain ⟨r, conn⟩ := r
  cases r with
  | ok parts =>
    obtain ⟨block, leftover⟩ := parts
    obtain ⟨hend, hle, ⟨rest, hstream⟩, hreceived⟩ := h.of_ok
    have hblock : stream.take block.length = block := by
      rw [← hstream, ← hreceived, List.append_assoc, List.append_assoc, List.take_left]
    rw [headerOutcome, hend]
    simp only [if_pos hle, hblock]
    rfl
  | error e =>
    cases e with
    | tooLarge n =>
      obtain rfl : n = maxHeaderSize := by cases h; rfl
      obtain ⟨hlength, hbehind⟩ := h.of_tooLarge
      unfold headerOutcome
      split
      case h_1 p hp =>
        rw [if_neg fun hle => hlimit ⟨p, hp, hle, hbehind p hp⟩]
        rfl
      case h_2 =>
        rw [if_pos hlength]
        rfl
    | closed =>
      obtain ⟨hlt, hend⟩ := h.of_closed
      rw [headerOutcome, hend]
      simp only [if_neg (not_le.mpr hlt)]
      rfl
    | timedOut => cases h
    | failed => cases h

/-- A header within the limit, whose terminator ends behind it, is refused when the bytes are cut at the
limit. -/
theorem refused_at_limit {p : ℕ} (hp : headerEnd stream = some p) (hle : p ≤ maxHeaderSize)
    (hlt : maxHeaderSize < p + headerTerm.length) :
    ∃ a conn, httpReadHeader a maxHeaderSize stream = some (.error (.tooLarge maxHeaderSize), conn) := by
  have hnil : headerEnd [] = none := by decide
  have hlength := (firstFrom_eq_some_iff.mp hp).1.2.1
  obtain ⟨n, rfl⟩ := Int.eq_ofNat_of_zero_le (show 0 ≤ maxHeaderSize by omega)
  rcases n.eq_zero_or_pos with rfl | hpos
  · -- The first round refuses, before anything is received.
    exact ⟨arrivalAt 1 one_pos, _, readHeader_tooLarge _ hnil (by simp)⟩
  · have hchunk : (arrivalAt n hpos).recv (Conn.start stream)
        ((n : ℤ) - ([] : Buffer).length + headerTerm.length).toNat = stream.take n := by
      simp only [arrivalAt, Arrival.recv, Conn.start, List.length_nil]
      rw [min_eq_left (by omega)]
    have htaken : (stream.take n).length = n := by
      rw [List.length_take]
      omega
    have hnone : headerEnd (stream.take n) = none := by
      cases hfound : headerEnd (stream.take n) with
      | none => rfl
      | some i =>
        have happend := (firstFrom_append_iff (r := stream.drop n)).mp hfound
        rw [List.take_append_drop] at happend
        obtain rfl := Option.some.inj (hp.symm.trans happend.1)
        omega
    obtain ⟨k, hk⟩ : ∃ k, stream.length = k + 1 := ⟨stream.length - 1, by omega⟩
    refine ⟨arrivalAt n hpos, (Conn.start stream).after (stream.take n), ?_⟩
    rw [httpReadHeader, readHeader_receive _ hnil (by simpa using hpos) hchunk, if_neg (by omega), hk,
      List.nil_append]
    exact readHeader_tooLarge _ hnone (by rw [htaken])

theorem reads_rightly_iff (stream : Buffer) (maxHeaderSize : ℤ) :
    ReadsRightly stream maxHeaderSize ↔ ¬LimitInTerm stream maxHeaderSize := by
  constructor
  · rintro h ⟨p, hp, hle, hlt⟩
    obtain ⟨a, conn, ha⟩ := refused_at_limit hp hle hlt
    obtain ⟨block, leftover, conn', hok⟩ := (h.limit a p hp).mp hle
    rw [ha] at hok
    cases hok
  · intro hlimit
    have houtcome (a : Arrival) : (httpReadHeader a maxHeaderSize stream).map Result.outcome =
        some (headerOutcome stream maxHeaderSize) := by
      obtain ⟨r, hr, hends⟩ := httpReadHeader_ends a maxHeaderSize stream
      rw [hr, Option.map_some, hends.outcome_eq hlimit]
    refine
      { same := fun a b => by rw [houtcome a, houtcome b]
        ends := ?_
        exact := ?_
        limit := ?_ }
    · intro a
      obtain ⟨⟨r, conn⟩, hr, hends⟩ := httpReadHeader_ends a maxHeaderSize stream
      exact ⟨r, conn, hr, by cases hends <;> simp [Except.isOk, Except.toBool]⟩
    · intro a block leftover conn hr
      obtain ⟨r, hr', hends⟩ := httpReadHeader_ends a maxHeaderSize stream
      obtain rfl := Option.some.inj (hr.symm.trans hr')
      obtain ⟨hend, -, hreceived⟩ := hends.of_ok
      exact ⟨hend, hreceived⟩
    · intro a p hp
      obtain ⟨r, hr, hends⟩ := httpReadHeader_ends a maxHeaderSize stream
      constructor
      · intro hle
        obtain ⟨r, conn⟩ := r
        have heq := hends.outcome_eq hlimit
        rw [headerOutcome, hp] at heq
        simp only [if_pos hle] at heq
        cases r with
        | ok parts => exact ⟨parts.1, parts.2, conn, hr⟩
        | error e => cases heq
      · rintro ⟨block, leftover, conn, hok⟩
        obtain rfl := Option.some.inj (hr.symm.trans hok)
        obtain ⟨hend, hbounded, -⟩ := hends.of_ok
        obtain rfl := Option.some.inj (hp.symm.trans hend)
        exact hbounded

/-- `HTTP` and the beginning of a version in eight bytes, with a limit of ten: two bytes of the terminator
come in the first receive. -/
theorem not_forall_reads_rightly :
    ¬∀ (stream : Buffer) (maxHeaderSize : ℤ), ReadsRightly stream maxHeaderSize := by
  intro h
  let stream : Buffer := [72, 84, 84, 80, 47, 49, 46, 49] ++ headerTerm
  have hend : headerEnd stream = some 8 := by decide
  obtain ⟨block, leftover, conn, hok⟩ := ((h stream 10).limit (arrivalAt 10 (by decide)) 8 hend).mp (by decide)
  have hrefused : (httpReadHeader (arrivalAt 10 (by decide)) 10 stream).map (fun r => r.1.isOk) =
      some false := by decide
  rw [hok] at hrefused
  cases hrefused

end Http

end Chloride
