import Chloride.Logic.Logged
import Chloride.Stdlib.ArchiveExtraction

/-!
# Errors while an archive is extracted

`next` and `extract_all` of `stdlib/archive/init.ar` with `reader_next` and `reader_extract_to` of
`stdlib/archive/native/main.c`, call by call: each call of libarchive answers with one of its codes, which depends on
all that has happened before (`Libarchive`).

To `reader_next` a header that can not be read is the end of the archive, and nobody looks at what closing a written
entry answers (`Event.Ignored`). `complete_or_raises_iff` says that these are the only errors that are lost.
-/

namespace Chloride

namespace ArchiveReader

open Chloride.Path (Str)
open Archive (Entry Thrown throwArchiveError readerEntryPath)

/-! ## libarchive -/

/-- The codes of `archive.h`. -/
inductive Code where
  | eof
  | ok
  | retry
  | warn
  | failed
  | fatal
  deriving DecidableEq

def Code.value : Code → ℤ
  | eof => 1
  | ok => 0
  | retry => -10
  | warn => -20
  | failed => -25
  | fatal => -30

/-- A block of the data of an entry. -/
structure Block where
  bytes : List UInt8
  offset : ℤ
  deriving DecidableEq

/-- A call, what it is given and what it answers. -/
inductive Event where
  | readNextHeader (rc : Code) (entry : Entry)
  | writeHeader (path : Str) (rc : Code)
  | readDataBlock (rc : Code) (block : Block)
  | writeDataBlock (block : Block) (rc : Code)
  | writeClose (rc : Code)

/-- What the calls answer, and what else is asked: whether there is memory for the path, and the string of libarchive
for the last error. -/
structure Libarchive where
  readNextHeader : List Event → Code × Entry
  writeHeader : Str → List Event → Code
  readDataBlock : List Event → Code × Block
  writeDataBlock : Block → List Event → Code
  writeClose : List Event → Code
  malloc : List Event → Bool
  errorString : List Event → Option Str

variable (lib : Libarchive)

/-! ## The code -/

/-- `throw_archive_error` -/
def raise {α : Type} (fallback : String) : Logged Event Thrown α := do
  Logged.throw (throwArchiveError (← Logged.ask lib.errorString) fallback)

/-- `reader_next`, with the entry of the handle. -/
def readerNext : Logged Event Thrown (Bool × Entry) := do
  let (rc, entry) ← Logged.call lib.readNextHeader fun answer => .readNextHeader answer.1 answer.2
  if rc = .eof then return (false, entry)
  else if rc ≠ .ok ∧ rc ≠ .warn then return (false, entry)
  else return (true, entry)

/-- The loop of `reader_extract_to`, as many times as `fuel`. -/
def copyData : ℕ → Logged Event Thrown Unit
  | 0 => Logged.goOn
  | fuel + 1 => do
    let (r, block) ← Logged.call lib.readDataBlock fun answer => .readDataBlock answer.1 answer.2
    if r = .eof then return ()
    else if r ≠ .ok ∧ r ≠ .warn then raise lib "Failed to read entry data"
    else
      let r ← Logged.call (lib.writeDataBlock block) (.writeDataBlock block)
      if r.value < Code.ok.value then raise lib "Failed to write entry data"
      else copyData fuel

/-- `reader_extract_to` -/
def readerExtractTo (fuel : ℕ) (destPath : Str) : Logged Event Thrown Unit := do
  if (← Logged.ask lib.malloc) = false then Logged.throw (throwArchiveError none "Out of memory")
  else
    let cdest := nullTerminated (destPath ++ [0])
    let rc ← Logged.call (lib.writeHeader cdest) (.writeHeader cdest)
    if rc ≠ .ok ∧ rc ≠ .warn then raise lib "Failed to write entry header"
    else
      copyData lib fuel
      let _ ← Logged.call lib.writeClose .writeClose

/-- `next` -/
def next : Logged Event Thrown (Option Entry) := do
  let (hasNext, entry) ← readerNext lib
  if !hasNext then return none else return some entry

/-- Iteration with `next`, where the caller extracts an entry to the path that `dest` has for it. -/
def iterate (dest : Entry → Option Str) : ℕ → Logged Event Thrown Unit
  | 0 => Logged.goOn
  | fuel + 1 => do
    match ← next lib with
    | none => return ()
    | some entry =>
      match dest entry with
      | some path => readerExtractTo lib fuel path
      | none => pure ()
      iterate dest fuel

/-- The paths of `extract_all`. -/
def destination (destDir : Str) (entry : Entry) : Option Str :=
  if !entry.isDir then some (Path.join [destDir, readerEntryPath entry]) else none

/-- `extract_all` -/
def extractAll (destDir : Str) (fuel : ℕ) : Logged Event Thrown Unit := iterate lib (destination destDir) fuel

/-! ## What it should do -/

/-- The call has gone wrong. -/
def Code.Failure (rc : Code) : Prop := rc = .retry ∨ rc = .failed ∨ rc = .fatal

instance (rc : Code) : Decidable rc.Failure := inferInstanceAs (Decidable (_ ∨ _))

def Event.code : Event → Code
  | readNextHeader rc _ => rc
  | writeHeader _ rc => rc
  | readDataBlock rc _ => rc
  | writeDataBlock _ rc => rc
  | writeClose rc => rc

/-- All data of an entry, written block by block. -/
inductive Copied : List Event → Prop where
  | last (block : Block) : Copied [.readDataBlock .eof block]
  | block {r r' : Code} {rest : List Event} (block : Block) (read : r = .ok ∨ r = .warn) (written : ¬r'.Failure)
      (copied : Copied rest) : Copied (.readDataBlock r block :: .writeDataBlock block r' :: rest)

/-- All entries up to the end of the archive, and those that are extracted have been written with all their data and
closed. -/
inductive Complete (dest : Entry → Option Str) : List Event → Prop where
  | ended (entry : Entry) : Complete dest [.readNextHeader .eof entry]
  | passed {rc : Code} {rest : List Event} (entry : Entry) (read : rc = .ok ∨ rc = .warn) (skip : dest entry = none)
      (complete : Complete dest rest) : Complete dest (.readNextHeader rc entry :: rest)
  | extracted {rc rc' rc'' : Code} {path : Str} {data rest : List Event} (entry : Entry)
      (read : rc = .ok ∨ rc = .warn) (extract : dest entry = some path) (header : rc' = .ok ∨ rc' = .warn)
      (copied : Copied data) (closed : ¬rc''.Failure) (complete : Complete dest rest) :
      Complete dest (.readNextHeader rc entry :: .writeHeader (nullTerminated path) rc' ::
        (data ++ .writeClose rc'' :: rest))

/-- What extraction should do: it ends normally only with all entries, and a call that goes wrong is the last one and
its error is raised. -/
structure CompleteOrRaises (dest : Entry → Option Str) (run : Status Thrown Unit × List Event) : Prop where
  complete : run.1 = .done () → Complete dest run.2
  raises : ∀ event after, event :: after <:+ run.2 → event.code.Failure → after = [] ∧ ∃ e, run.1 = .thrown e

/-- An error that nothing is raised for. -/
def Event.Ignored : Event → Prop
  | readNextHeader rc _ => rc.Failure
  | writeClose rc => rc.Failure
  | _ => False

/-! ## Runs -/

/-- What a part of a run has done if nothing was ignored in it, and that it raises the other errors at once. -/
structure Follows (complete : List Event → Prop) (status : Status Thrown Unit) (events : List Event) : Prop where
  complete : status = .done () → (∀ event ∈ events, ¬event.Ignored) → complete events
  raises : ∀ event after, event :: after <:+ events → event.code.Failure → ¬event.Ignored →
    after = [] ∧ ∃ e, status = .thrown e
  last : ∀ event, (∃ e, status = .thrown e) → [event] <:+ events → ¬event.Ignored

namespace Follows

variable {complete complete' : List Event → Prop} {status : Status Thrown Unit} {event : Event} {events : List Event}

/-- A part in which nothing happens. -/
theorem nil (h : status = .done () → complete []) : Follows complete status [] where
  complete hdone _ := h hdone
  raises _ _ hsuffix := absurd (List.suffix_nil.mp hsuffix) (List.cons_ne_nil _ _)
  last _ _ hsuffix := absurd (List.suffix_nil.mp hsuffix) (List.cons_ne_nil _ _)

theorem nothing (status : Status Thrown Unit) : Follows (fun _ => True) status [] := nil fun _ => trivial

/-- Nothing has to be done by a part that has not ended. -/
theorem unfinished (h : Follows complete status events) (hstatus : status ≠ .done ()) :
    Follows (fun _ => False) status events :=
  ⟨fun hdone => absurd hdone hstatus, h.raises, h.last⟩

/-- An event that goes on, before a part of a run. -/
theorem cons (h : Follows complete status events) (hgoes : event.code.Failure → event.Ignored)
    (hlast : events = [] → (∃ e, status = .thrown e) → ¬event.Ignored)
    (hcomplete : ¬event.Ignored → status = .done () → complete events → complete' (event :: events)) :
    Follows complete' status (event :: events) where
  complete hdone hnone := hcomplete (hnone _ List.mem_cons_self) hdone
    (h.complete hdone fun e he => hnone e (List.mem_cons_of_mem _ he))
  raises e after hsuffix hfails hheeded := by
    rcases List.suffix_cons_iff.mp hsuffix with heq | hsuffix
    · obtain ⟨rfl, -⟩ := List.cons.inj heq
      exact absurd (hgoes hfails) hheeded
    · exact h.raises e after hsuffix hfails hheeded
  last e hthrown hsuffix := by
    rcases List.suffix_cons_iff.mp hsuffix with heq | hsuffix
    · obtain ⟨rfl, hnil⟩ := List.cons.inj heq
      exact hlast hnil.symm hthrown
    · exact h.last e hthrown hsuffix

/-- An event that raises an error. -/
theorem thrown (e : Thrown) (h : ¬event.Ignored) : Follows complete (.thrown e) [event] where
  complete hdone := nomatch hdone
  raises e' after hsuffix _ _ := by
    rcases List.suffix_cons_iff.mp hsuffix with heq | hsuffix
    · exact ⟨(List.cons.inj heq).2, e, rfl⟩
    · exact absurd (List.suffix_nil.mp hsuffix) (List.cons_ne_nil _ _)
  last e' _ hsuffix := by
    rcases List.suffix_cons_iff.mp hsuffix with heq | hsuffix
    · rwa [(List.cons.inj heq).1]
    · exact absurd (List.suffix_nil.mp hsuffix) (List.cons_ne_nil _ _)

/-- A part of a run that has ended, before another. -/
theorem append {before : List Event} (hbefore : Follows complete (.done ()) before) (h : Follows complete' status events)
    {complete'' : List Event → Prop} (hnext : events = [] → ¬∃ e, status = .thrown e)
    (hcomplete : status = .done () → complete before → complete' events → complete'' (before ++ events)) :
    Follows complete'' status (before ++ events) := by
  have hgoes : ∀ event ∈ before, event.code.Failure → event.Ignored := by
    intro event hmem hfails
    by_contra hheeded
    obtain ⟨front, after, rfl⟩ := List.append_of_mem hmem
    obtain ⟨-, e, he⟩ := hbefore.raises event after (List.suffix_append _ _) hfails hheeded
    cases he
  have hrun : Follows (fun _ => True) status (before ++ events) := by
    clear hbefore hcomplete
    induction before with
    | nil => exact ⟨fun _ _ => trivial, h.raises, h.last⟩
    | cons event before ih =>
      refine (ih fun e he => hgoes e (List.mem_cons_of_mem _ he)).cons (hgoes event List.mem_cons_self)
        (fun hnil hthrown => ?_) fun _ _ _ => trivial
      exact absurd hthrown (hnext (List.append_eq_nil_iff.mp hnil).2)
  refine ⟨fun hdone hnone => ?_, hrun.raises, hrun.last⟩
  exact hcomplete hdone (hbefore.complete rfl fun e he => hnone e (List.mem_append_left _ he))
    (h.complete hdone fun e he => hnone e (List.mem_append_right _ he))

end Follows

variable {lib}

theorem not_failure_of_read {rc : Code} (h : rc = .ok ∨ rc = .warn) : ¬rc.Failure := by
  rcases h with rfl | rfl <;> decide

theorem failure_of_not_read {rc : Code} (heof : rc ≠ .eof) (h : rc ≠ .ok ∧ rc ≠ .warn) : rc.Failure := by
  revert heof h
  cases rc <;> decide

theorem not_failure_of_value {rc : Code} (h : ¬rc.value < Code.ok.value) : ¬rc.Failure := by
  revert h
  cases rc <;> decide

/-- An error that is raised for the last event. -/
theorem raise_yields {α : Type} {P : Status Thrown α → List Event → Prop} (fallback : String)
    (h : ∀ e, P (.thrown e) []) : Logged.Yields (raise lib fallback : Logged Event Thrown α) P :=
  .ask_bind fun _ => .throw (h _)

theorem copyData_follows (fuel : ℕ) : Logged.Yields (copyData lib fuel) (Follows Copied) := by
  induction fuel with
  | zero => exact .goOn (.nil nofun)
  | succ fuel ih =>
    refine .call_bind fun (r, block) => .ite (fun heof => .pure ?_) fun heof => .ite (fun hfails => ?_) fun hread => ?_
    · obtain rfl : r = .eof := heof
      have heof : ¬Code.eof.Failure := by decide
      exact (Follows.nothing _).cons (fun h => absurd h heof) (fun _ _ h => h)
        fun _ _ _ => .last block
    · exact raise_yields _ fun e => .thrown e id
    · have hread : r = .ok ∨ r = .warn := by
        by_contra hnot
        exact hread (not_or.mp hnot)
      refine .call_bind fun r' => .ite (fun hfails => ?_) fun hwritten => ?_
      · exact raise_yields _ fun e => (Follows.thrown e id : Follows Copied _ _).cons
          (fun h => absurd h (not_failure_of_read hread)) (fun _ _ h => h) fun _ hdone => nomatch hdone
      · have hwritten := not_failure_of_value hwritten
        refine ih.conseq fun status events h => ?_
        have hwrite : Follows (fun events => ∃ rest, events = .writeDataBlock block r' :: rest ∧ Copied rest) status
            (.writeDataBlock block r' :: events) :=
          h.cons (fun h => absurd h hwritten) (fun _ _ h => h) fun _ _ hcopied => ⟨events, rfl, hcopied⟩
        refine hwrite.cons (fun h => absurd h (not_failure_of_read hread)) (fun _ _ h => h) fun _ _ hcopied => ?_
        obtain ⟨rest, heq, hcopied⟩ := hcopied
        rw [heq]
        exact .block block hread hwritten hcopied

/-- What is done for an entry that is extracted to a path, before the next one. -/
def Extracted (path : Str) (events : List Event) : Prop :=
  ∃ rc data rc', events = .writeHeader (nullTerminated path) rc :: (data ++ [.writeClose rc']) ∧
    (rc = .ok ∨ rc = .warn) ∧ Copied data ∧ ¬rc'.Failure

theorem readerExtractTo_follows (fuel : ℕ) (path : Str) :
    Logged.Yields (readerExtractTo lib fuel path) (Follows (Extracted path)) := by
  refine .ask_bind fun memory => .ite (fun _ => .throw (.nil nofun)) fun _ => .call_bind fun rc => ?_
  rw [Archive.nullTerminated_concat]
  refine .ite (fun hfails => raise_yields _ fun e => .thrown e id) fun hheader => ?_
  have hheader : rc = .ok ∨ rc = .warn := by
    by_contra hnot
    exact hheader (not_or.mp hnot)
  have hgoes : ∀ {status : Status Thrown Unit} {complete : List Event → Prop} {events}, Follows complete status events →
      (status = .done () → complete events →
        Extracted path (.writeHeader (nullTerminated path) rc :: events)) →
      Follows (Extracted path) status (.writeHeader (nullTerminated path) rc :: events) := fun h hcomplete =>
    h.cons (fun h => absurd h (not_failure_of_read hheader)) (fun _ _ h => h) fun _ => hcomplete
  refine (copyData_follows fuel).bind (fun a data h => .call_bind fun rc' => .pure ?_) (fun e data h => ?_)
    fun data h => ?_
  · have hclose : Follows (fun events => events = [.writeClose rc'] ∧ ¬rc'.Failure) (.done ()) [.writeClose rc'] :=
      (Follows.nothing _).cons id (fun _ hthrown => nomatch hthrown)
        fun hheeded _ _ => ⟨rfl, hheeded⟩
    have hboth : Follows (fun _ => Copied data ∧ ¬rc'.Failure) (.done ()) (data ++ [.writeClose rc']) :=
      h.append hclose (fun hnil => nomatch hnil) fun _ hcopied hclosed => ⟨hcopied, hclosed.2⟩
    exact hgoes hboth fun _ hboth => ⟨rc, data, rc', rfl, hheader, hboth⟩
  · exact hgoes h fun hdone => nomatch hdone
  · exact hgoes h fun hdone => nomatch hdone

/-- An entry is there exactly if its header has been read. -/
theorem next_yields : Logged.Yields (next lib) fun status events =>
    ∃ rc entry, events = [.readNextHeader rc entry] ∧
      (status = .done (some entry) ∧ (rc = .ok ∨ rc = .warn) ∨ status = .done none ∧ (rc = .eof ∨ rc.Failure)) := by
  have hreader : Logged.Yields (readerNext lib) fun status events => ∃ rc entry,
      events = [.readNextHeader rc entry] ∧ (status = .done (true, entry) ∧ (rc = .ok ∨ rc = .warn) ∨
        status = .done (false, entry) ∧ (rc = .eof ∨ rc.Failure)) := by
    refine .call_bind fun (rc, entry) => .ite (fun heof => .pure ?_) fun heof => .ite (fun hfails => .pure ?_)
      fun hread => .pure ?_
    · exact ⟨rc, entry, rfl, Or.inr ⟨rfl, Or.inl heof⟩⟩
    · exact ⟨rc, entry, rfl, Or.inr ⟨rfl, Or.inr (failure_of_not_read heof hfails)⟩⟩
    · refine ⟨rc, entry, rfl, Or.inl ⟨rfl, ?_⟩⟩
      by_contra hnot
      exact hread (not_or.mp hnot)
  refine hreader.bind (fun (hasNext, entry) events h => ?_) (fun e events h => ?_) fun events h => ?_
  · obtain ⟨rc, entry', rfl, ⟨hstatus, hread⟩ | ⟨hstatus, hrc⟩⟩ := h
    · cases hstatus
      exact .pure ⟨rc, entry, rfl, Or.inl ⟨rfl, hread⟩⟩
    · cases hstatus
      exact .pure ⟨rc, entry, rfl, Or.inr ⟨rfl, hrc⟩⟩
  · obtain ⟨rc, entry', -, ⟨hstatus, -⟩ | ⟨hstatus, -⟩⟩ := h
    · cases hstatus
    · cases hstatus
  · obtain ⟨rc, entry', -, ⟨hstatus, -⟩ | ⟨hstatus, -⟩⟩ := h
    · cases hstatus
    · cases hstatus

/-- Iteration raises no error before it has asked for an entry. -/
theorem iterate_follows (dest : Entry → Option Str) (fuel : ℕ) :
    Logged.Yields (iterate lib dest fuel) fun status events =>
      Follows (Complete dest) status events ∧ (events = [] → ¬∃ e, status = .thrown e) := by
  induction fuel with
  | zero => exact .goOn ⟨.nil nofun, fun _ h => nomatch h⟩
  | succ fuel ih =>
    refine next_yields.bind (fun entry? events h => ?_) (fun e events h => ?_) fun events h => ?_
    · obtain ⟨rc, entry, rfl, ⟨hstatus, hread⟩ | ⟨hstatus, hrc⟩⟩ := h
      · obtain rfl : entry? = some entry := by cases hstatus; rfl
        have hfirst : ∀ {complete status events}, Follows complete status events →
            (complete events → Complete dest (.readNextHeader rc entry :: events)) →
              Follows (Complete dest) status (.readNextHeader rc entry :: events) ∧
                (.readNextHeader rc entry :: events = [] → ¬∃ e, status = .thrown e) := fun h hcomplete =>
          ⟨h.cons (fun h => absurd h (not_failure_of_read hread)) (fun _ _ h => absurd h (not_failure_of_read hread))
            fun _ _ => hcomplete, nofun⟩
        dsimp only
        split
        · rename_i path hdest
          refine (readerExtractTo_follows fuel path).bind (fun _ data hdata => ih.conseq fun status events h => ?_)
            (fun e data hdata => ?_) fun data hdata => ?_
          · have hboth : Follows (fun _ => Extracted path data ∧ Complete dest events) status (data ++ events) :=
              hdata.append h.1 h.2 fun _ hextracted hrest => ⟨hextracted, hrest⟩
            refine hfirst hboth fun hboth => ?_
            obtain ⟨⟨rc', blocks, rc'', rfl, hheader, hcopied, hclosed⟩, hrest⟩ := hboth
            rw [List.cons_append, List.append_assoc, List.singleton_append]
            exact .extracted entry hread hdest hheader hcopied hclosed hrest
          · exact hfirst (hdata.unfinished nofun) False.elim
          · exact hfirst (hdata.unfinished nofun) False.elim
        · rename_i hdest
          exact ih.conseq fun status events h => hfirst h.1 (.passed entry hread hdest)
      · obtain rfl : entry? = none := by cases hstatus; rfl
        refine .pure ⟨?_, nofun⟩
        refine (Follows.nothing _).cons (fun hfails => hfails) (fun _ hthrown => nomatch hthrown) fun hheeded _ _ => ?_
        obtain rfl := hrc.resolve_right hheeded
        exact .ended entry
    · obtain ⟨rc, entry', -, ⟨hstatus, -⟩ | ⟨hstatus, -⟩⟩ := h
      · cases hstatus
      · cases hstatus
    · obtain ⟨rc, entry', -, ⟨hstatus, -⟩ | ⟨hstatus, -⟩⟩ := h
      · cases hstatus
      · cases hstatus

/-! ## The errors that are lost -/

/-- A run does what it should exactly if none of its errors is ignored. -/
theorem iterate_iff (lib : Libarchive) (history : List Event) (dest : Entry → Option Str) (fuel : ℕ) :
    CompleteOrRaises dest (iterate lib dest fuel history) ↔
      ∀ event ∈ (iterate lib dest fuel history).2, ¬event.Ignored := by
  obtain ⟨h, -⟩ := (iterate_follows dest fuel : Logged.Yields (iterate lib dest fuel) _) history
  constructor
  · intro hruns event hmem hignored
    have hfails : event.code.Failure := by
      cases event with
      | readNextHeader => exact hignored
      | writeClose => exact hignored
      | _ => exact absurd hignored id
    obtain ⟨before, after, hevents⟩ := List.append_of_mem hmem
    have hsuffix : event :: after <:+ (iterate lib dest fuel history).2 := ⟨before, hevents.symm⟩
    obtain ⟨rfl, hthrown⟩ := hruns.raises event after hsuffix hfails
    exact h.last event hthrown hsuffix hignored
  · intro hnone
    refine ⟨fun hdone => h.complete hdone hnone, fun event after hsuffix hfails => ?_⟩
    exact h.raises event after hsuffix hfails (hnone event (hsuffix.subset List.mem_cons_self))

/-- Extraction and iteration, whatever libarchive answers, do what they should exactly if no header is there that can
not be read and no entry that can not be closed. -/
theorem complete_or_raises_iff (lib : Libarchive) (history : List Event) (fuel : ℕ) :
    (∀ destDir, CompleteOrRaises (destination destDir) (extractAll lib destDir fuel history) ↔
      ∀ event ∈ (extractAll lib destDir fuel history).2, ¬event.Ignored) ∧
    ∀ dest, CompleteOrRaises dest (iterate lib dest fuel history) ↔
      ∀ event ∈ (iterate lib dest fuel history).2, ¬event.Ignored :=
  ⟨fun destDir => iterate_iff lib history (destination destDir) fuel, fun dest => iterate_iff lib history dest fuel⟩

/-! ## An archive that is cut off -/

/-- An archive of one entry, with a block of data if it is a file, and what there is behind the entry. -/
def oneEntry (entry : Entry) (behind : Code) : Libarchive where
  readNextHeader history := (if history.isEmpty then .ok else behind, entry)
  writeHeader _ _ := .ok
  readDataBlock history := (if history.length = 2 then .ok else .eof, ⟨[1, 2, 3], 0⟩)
  writeDataBlock _ _ := .ok
  writeClose _ := .ok
  malloc _ := true
  errorString _ := none

example : (iterate (oneEntry ⟨[120], false⟩ .eof) (fun entry => some entry.pathname) 3 []).1 = .done () := rfl

/-- An archive in which the second header is broken is extracted as if it ended behind the first entry. -/
theorem not_forall_complete_or_raises : ¬∀ lib history destDir fuel,
    CompleteOrRaises (destination destDir) (extractAll lib destDir fuel history) := by
  intro h
  have hraises := (h (oneEntry ⟨[120], true⟩ .fatal) [] [] 2).raises
  obtain ⟨-, e, he⟩ := hraises (.readNextHeader .fatal ⟨[120], true⟩) []
    ⟨[.readNextHeader .ok ⟨[120], true⟩], rfl⟩ (by decide)
  cases he

end ArchiveReader

end Chloride
