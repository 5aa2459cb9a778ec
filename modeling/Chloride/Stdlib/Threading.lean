import Chloride.Containers.Runs
import Chloride.Logic.OneShot

/-!
# Threads

`stdlib/threading/native/main.c` as it is built for POSIX, from `mt_thread_start` on. The thread runs `thread_fn`, and
any number of other threads call `Join` and `Detach` with the same thread object, each of them some calls one after the
other. The steps are the accesses to the `thread_arg` that they all share, the calls of pthreads, and `api->free`; they
come in any order.

An access to a `thread_arg` that was freed ends the run. What comes behind it is not known.
-/

namespace Chloride

namespace Threading

/-- `allocation_status` -/
inductive AllocationStatus where
  | unchanged
  | joined
  | detached
  deriving DecidableEq

/-- What is read and written of `thread_arg` while the thread is there. -/
structure ThreadArg where
  status : AllocationStatus
  finished : Bool
  freed : Bool

/-- Where `thread_fn` is, with the status that it has loaded. -/
inductive ThreadFn where
  | registerThread
  | call
  | loadStatus
  | storeFinished (status : AllocationStatus)
  | unregisterThread (status : AllocationStatus)
  | claimFreed (status : AllocationStatus)
  | free (status : AllocationStatus)
  | ended (status : AllocationStatus)
  deriving DecidableEq

/-- The functions of the module that are called with a thread object. -/
inductive Native where
  | join
  | detach
  deriving DecidableEq

/-- The ways on which a call returns: `Join` when the thread has ended, with the error that `set_err` was given,
`Detach` when it has detached the thread, `Detach` when the thread had finished, and both with an error. -/
inductive Ending (ε : Type) where
  | joined (err : Option ε)
  | detached
  | hadFinished
  | refused

/-- What a call of `Join` or `Detach` does next. -/
inductive NativeStep (ε : Type) where
  | claimJoined
  | joinThread
  | waitThread
  | setErr
  | loadFinished
  | claimDetached
  | detachThread
  | claimFreed (ending : Ending ε)
  | free (ending : Ending ε)

/-- The first step of a call. -/
def Native.first {ε : Type} : Native → NativeStep ε
  | .join => .claimJoined
  | .detach => .loadFinished

/-- An error is the one of the thread, or a `RuntimeError` with a text. -/
inductive Raised (ε : Type) where
  | target (err : ε)
  | runtimeError (text : String)

variable {ι ε : Type}

/-- What a call that has returned raises. -/
def Ending.raised : Ending ε → Option (Raised ε)
  | .joined err => err.map .target
  | .detached => none
  | .hadFinished => none
  | .refused => some (.runtimeError "Thread already joined or detached.")

/-- A thread that calls `Join` and `Detach`: where its call is, and the calls that come behind it. -/
structure Client (ε : Type) where
  current : Option (NativeStep ε)
  remaining : List Native

/-- All there is of a thread: what is shared, the error object, the thread itself, the threads that use it, how often
its `thread_arg` was freed, how often it was joined and detached, and the calls that have returned. -/
structure System (ι ε : Type) where
  args : ThreadArg
  err : Option ε
  thread : ThreadFn
  clients : ι → Client ε
  released : ℕ
  joins : ℕ
  detaches : ℕ
  returned : List (ι × Ending ε)
  dangling : Bool

/-- The thread has been started, and the calls to come. -/
def System.start (calls : ι → List Native) : System ι ε where
  args := ⟨.unchanged, false, false⟩
  err := none
  thread := .registerThread
  clients i := ⟨none, calls i⟩
  released := 0
  joins := 0
  detaches := 0
  returned := []
  dangling := false

namespace System

/-- An access to the `thread_arg`, before the rest of the step. -/
def accessing (s : System ι ε) (after : System ι ε) : Option (System ι ε) :=
  if s.released = 0 then some after else some { s with dangling := true }

@[simp]
def setStatus (s : System ι ε) (status : AllocationStatus) : System ι ε :=
  { s with args := { s.args with status := status } }

@[simp]
def setFinished (s : System ι ε) : System ι ε := { s with args := { s.args with finished := true } }

@[simp]
def setFreed (s : System ι ε) : System ι ε := { s with args := { s.args with freed := true } }

/-- `api->free` -/
@[simp]
def free (s : System ι ε) : System ι ε := { s with released := s.released + 1 }

/-- The next step of `thread_fn`, where `outcome` is the error that the target ends with. -/
def threadFn (outcome : Option ε) (s : System ι ε) : Option (System ι ε) :=
  match s.thread with
  | .registerThread => s.accessing { s with thread := .call }
  | .call => s.accessing { s with err := outcome, thread := .loadStatus }
  | .loadStatus => s.accessing { s with thread := .storeFinished s.args.status }
  | .storeFinished status => s.accessing { s.setFinished with thread := .unregisterThread status }
  | .unregisterThread status => s.accessing { s with thread := .claimFreed status }
  | .claimFreed status =>
    if status = .detached then
      s.accessing
        (if s.args.freed then { s with thread := .ended status } else { s.setFreed with thread := .free status })
    else some { s with thread := .ended status }
  | .free status => s.accessing { s.free with thread := .ended status }
  | .ended _ => none

variable [DecidableEq ι]

@[simp]
def setClient (s : System ι ε) (i : ι) (client : Client ε) : System ι ε :=
  { s with clients := Function.update s.clients i client }

/-- The call of a client comes to its next step. -/
@[simp]
def goTo (s : System ι ε) (i : ι) (next : NativeStep ε) : System ι ε :=
  s.setClient i { s.clients i with current := some next }

/-- The call of a client returns. -/
@[simp]
def leave (s : System ι ε) (i : ι) (ending : Ending ε) : System ι ε :=
  { s.setClient i { s.clients i with current := none } with returned := s.returned ++ [(i, ending)] }

/-- A client calls a function. -/
@[simp]
def enter (s : System ι ε) (i : ι) (call : Native) (rest : List Native) : System ι ε :=
  s.setClient i { s.clients i with current := some call.first, remaining := rest }

/-- The next step of a call of `Join` or `Detach`. -/
def nativeStep (s : System ι ε) (i : ι) : NativeStep ε → Option (System ι ε)
  | .claimJoined =>
    s.accessing
      (if s.args.status = .unchanged then (s.setStatus .joined).goTo i .joinThread else s.leave i .refused)
  | .joinThread => s.accessing (s.goTo i .waitThread)
  | .waitThread =>
    match s.thread with
    | .ended _ => some ({ s with joins := s.joins + 1 }.goTo i .setErr)
    | _ => none
  | .setErr => some (s.goTo i (.claimFreed (.joined s.err)))
  | .loadFinished =>
    s.accessing (if s.args.finished then s.goTo i (.claimFreed .hadFinished) else s.goTo i .claimDetached)
  | .claimDetached =>
    s.accessing
      (if s.args.status = .unchanged then (s.setStatus .detached).goTo i .detachThread else s.leave i .refused)
  | .detachThread => s.accessing ({ s with detaches := s.detaches + 1 }.leave i .detached)
  | .claimFreed ending =>
    s.accessing (if s.args.freed then s.leave i ending else s.setFreed.goTo i (.free ending))
  | .free ending => s.accessing (s.free.leave i ending)

/-- The next step of a client, or of the thread. -/
def step (outcome : Option ε) (s : System ι ε) (party : Option ι) : Option (System ι ε) :=
  if s.dangling then none
  else
    match party with
    | none => s.threadFn outcome
    | some i =>
      match (s.clients i).current, (s.clients i).remaining with
      | some next, _ => s.nativeStep i next
      | none, call :: rest => some (s.enter i call rest)
      | none, [] => none

end System

/-! ## What a step does -/

/-- Where a party is: the thread in `thread_fn`, a client in a call or in none. -/
inductive Place (ε : Type) where
  | thread (point : ThreadFn)
  | client (current : Option (NativeStep ε))

def System.place (s : System ι ε) : Option ι → Place ε
  | none => .thread s.thread
  | some i => .client (s.clients i).current

variable [DecidableEq ι] {outcome : Option ε} {s s' : System ι ε} {p : Option ι}

/-- The steps, without those that access a `thread_arg` that was freed. -/
inductive System.Acts (outcome : Option ε) (s : System ι ε) : Option ι → System ι ε → Prop where
  | registerThread (hat : s.thread = .registerThread) : Acts outcome s none { s with thread := .call }
  | call (hat : s.thread = .call) : Acts outcome s none { s with err := outcome, thread := .loadStatus }
  | loadStatus (hat : s.thread = .loadStatus) : Acts outcome s none { s with thread := .storeFinished s.args.status }
  | storeFinished (status : AllocationStatus) (hat : s.thread = .storeFinished status) :
    Acts outcome s none { s.setFinished with thread := .unregisterThread status }
  | unregisterThread (status : AllocationStatus) (hat : s.thread = .unregisterThread status) :
    Acts outcome s none { s with thread := .claimFreed status }
  | finish (status : AllocationStatus) (hat : s.thread = .claimFreed status)
    (hleft : status = .detached → s.args.freed = true) : Acts outcome s none { s with thread := .ended status }
  | takeFreed (hat : s.thread = .claimFreed .detached) (hfreed : s.args.freed = false) :
    Acts outcome s none { s.setFreed with thread := .free .detached }
  | freeThread (status : AllocationStatus) (hat : s.thread = .free status) :
    Acts outcome s none { s.free with thread := .ended status }
  | enter (i : ι) (call : Native) (rest : List Native) (hat : (s.clients i).current = none)
    (hrest : (s.clients i).remaining = call :: rest) : Acts outcome s (some i) (s.enter i call rest)
  | refused (i : ι) (hat : (s.clients i).current = some .claimJoined ∨ (s.clients i).current = some .claimDetached)
    (hstatus : s.args.status ≠ .unchanged) : Acts outcome s (some i) (s.leave i .refused)
  | claimJoined (i : ι) (hat : (s.clients i).current = some .claimJoined) (hstatus : s.args.status = .unchanged) :
    Acts outcome s (some i) ((s.setStatus .joined).goTo i .joinThread)
  | joinThread (i : ι) (hat : (s.clients i).current = some .joinThread) : Acts outcome s (some i) (s.goTo i .waitThread)
  | waitThread (i : ι) (status : AllocationStatus) (hat : (s.clients i).current = some .waitThread)
    (hended : s.thread = .ended status) :
    Acts outcome s (some i) (({ s with joins := s.joins + 1 } : System ι ε).goTo i .setErr)
  | setErr (i : ι) (hat : (s.clients i).current = some .setErr) :
    Acts outcome s (some i) (s.goTo i (.claimFreed (.joined s.err)))
  | hadFinished (i : ι) (hat : (s.clients i).current = some .loadFinished) (hfinished : s.args.finished = true) :
    Acts outcome s (some i) (s.goTo i (.claimFreed .hadFinished))
  | goesOn (i : ι) (hat : (s.clients i).current = some .loadFinished) (hfinished : s.args.finished = false) :
    Acts outcome s (some i) (s.goTo i .claimDetached)
  | claimDetached (i : ι) (hat : (s.clients i).current = some .claimDetached) (hstatus : s.args.status = .unchanged) :
    Acts outcome s (some i) ((s.setStatus .detached).goTo i .detachThread)
  | detachThread (i : ι) (hat : (s.clients i).current = some .detachThread) :
    Acts outcome s (some i) (({ s with detaches := s.detaches + 1 } : System ι ε).leave i .detached)
  | leftFreed (i : ι) (ending : Ending ε) (hat : (s.clients i).current = some (.claimFreed ending))
    (hfreed : s.args.freed = true) : Acts outcome s (some i) (s.leave i ending)
  | claimFreed (i : ι) (ending : Ending ε) (hat : (s.clients i).current = some (.claimFreed ending))
    (hfreed : s.args.freed = false) : Acts outcome s (some i) (s.setFreed.goTo i (.free ending))
  | free (i : ι) (ending : Ending ε) (hat : (s.clients i).current = some (.free ending)) :
    Acts outcome s (some i) (s.free.leave i ending)

/-- A step accesses a `thread_arg` that was freed, or does what its place says. -/
def System.Steps (outcome : Option ε) (s : System ι ε) (p : Option ι) (s' : System ι ε) : Prop :=
  (s.released ≠ 0 ∧ s' = { s with dangling := true }) ∨ s.Acts outcome p s'

theorem System.steps_of_accessing {after : System ι ε} (h : s.accessing after = some s') (hacts : s.Acts outcome p after) :
    s.Steps outcome p s' := by
  unfold accessing at h
  split at h
  · cases h
    exact Or.inr hacts
  · next hreleased =>
    cases h
    exact Or.inl ⟨hreleased, rfl⟩

theorem System.threadFn_cases (h : s.threadFn outcome = some s') : s.Steps outcome none s' := by
  unfold threadFn at h
  split at h
  · exact steps_of_accessing h (.registerThread ‹_›)
  · exact steps_of_accessing h (.call ‹_›)
  · exact steps_of_accessing h (.loadStatus ‹_›)
  · exact steps_of_accessing h (.storeFinished _ ‹_›)
  · exact steps_of_accessing h (.unregisterThread _ ‹_›)
  · next status hat =>
    split at h
    · next hstatus =>
      refine steps_of_accessing h ?_
      split
      · next hfreed => exact .finish _ hat fun _ => hfreed
      · next hfreed =>
        subst hstatus
        exact .takeFreed hat (by simpa using hfreed)
    · next hstatus =>
      cases h
      exact Or.inr (.finish _ hat fun hdetached => absurd hdetached hstatus)
  · exact steps_of_accessing h (.freeThread _ ‹_›)
  · cases h

theorem System.nativeStep_cases {i : ι} {next : NativeStep ε} (h : s.nativeStep i next = some s')
    (hat : (s.clients i).current = some next) : s.Steps outcome (some i) s' := by
  cases next with
  | claimJoined =>
    refine steps_of_accessing h ?_
    split
    · next hstatus => exact .claimJoined i hat hstatus
    · next hstatus => exact .refused i (Or.inl hat) hstatus
  | joinThread => exact steps_of_accessing h (.joinThread i hat)
  | waitThread =>
    simp only [nativeStep] at h
    split at h
    · next status hended =>
      cases h
      exact Or.inr (.waitThread i status hat hended)
    · cases h
  | setErr =>
    cases h
    exact Or.inr (.setErr i hat)
  | loadFinished =>
    refine steps_of_accessing h ?_
    split
    · next hfinished => exact .hadFinished i hat hfinished
    · next hfinished => exact .goesOn i hat (by simpa using hfinished)
  | claimDetached =>
    refine steps_of_accessing h ?_
    split
    · next hstatus => exact .claimDetached i hat hstatus
    · next hstatus => exact .refused i (Or.inr hat) hstatus
  | detachThread => exact steps_of_accessing h (.detachThread i hat)
  | claimFreed ending =>
    refine steps_of_accessing h ?_
    split
    · next hfreed => exact .leftFreed i ending hat hfreed
    · next hfreed => exact .claimFreed i ending hat (by simpa using hfreed)
  | free ending => exact steps_of_accessing h (.free i ending hat)

theorem System.step_cases (h : s.step outcome p = some s') : s.dangling = false ∧ s.Steps outcome p s' := by
  unfold step at h
  split at h
  · cases h
  · next hdangling =>
    refine ⟨by simpa using hdangling, ?_⟩
    split at h
    · exact threadFn_cases h
    · next i =>
      split at h
      · next next rest hat => exact nativeStep_cases h hat
      · next call rest hat hrest =>
        cases h
        exact Or.inr (.enter i call rest hat hrest)
      · cases h

/-! ## What is done once -/

/-- The party is about to call `api->free`. -/
def Place.Frees : Place ε → Prop
  | .thread (.free _) => True
  | .client (some (.free _)) => True
  | _ => False

/-- The party is about to join or to detach the thread. -/
def Place.Handles : Place ε → Prop
  | .client (some .joinThread) => True
  | .client (some .waitThread) => True
  | .client (some .detachThread) => True
  | _ => False

/-- A step moves one party. -/
theorem System.Acts.frame (h : s.Acts outcome p s') (q : Option ι) (hq : q ≠ p) : s'.place q = s.place q := by
  cases q with
  | none => cases h <;> first | rfl | exact absurd rfl hq
  | some j =>
    -- a step of a call changes what is under the index of its caller only
    have hne : ∀ i, p = some i → j ≠ i := fun i hi hj => hq (hj ▸ hi.symm)
    cases h <;> simp_all [System.place]

/-- The right to free the `thread_arg` is given away with its field `freed`, and the right to join or to detach the
thread with its field `status`. -/
structure System.Sound (s : System ι ε) : Prop where
  frees : OneShot (s.args.freed = true) (fun q => (s.place q).Frees) s.released
  handles : OneShot (s.args.status ≠ .unchanged) (fun q => (s.place q).Handles) (s.joins + s.detaches)

omit [DecidableEq ι] in
theorem System.sound_start (calls : ι → List Native) : (start calls : System ι ε).Sound where
  frees := .free (by simp [start]) (fun q => by cases q <;> simp [start, place, Place.Frees]) rfl
  handles := .free (by simp [start]) (fun q => by cases q <;> simp [start, place, Place.Handles]) rfl

theorem System.Acts.frees (h : s.Acts outcome p s')
    (hs : OneShot (s.args.freed = true) (fun q => (s.place q).Frees) s.released) :
    OneShot (s'.args.freed = true) (fun q => (s'.place q).Frees) s'.released := by
  have hframe := h.frame
  cases h with
  -- Who finds `freed` unset has the right to free from there on, and who frees has used it.
  | takeFreed hat hfreed => exact hs.take hframe (by simp [hfreed]) rfl trivial
  | claimFreed i ending hat hfreed =>
    exact hs.take hframe (by simp [hfreed]) rfl (by simp [place, Place.Frees])
  | freeThread status hat => exact hs.spend hframe (by simp [place, hat, Place.Frees]) (by simp [place, Place.Frees])
  | free i ending hat => exact hs.spend hframe (by simp [place, hat, Place.Frees]) (by simp [place, Place.Frees])
  | enter i call rest hat => exact hs.move hframe (by cases call <;> simp [place, hat, Place.Frees, Native.first])
  | refused i hat => exact hs.move hframe (by rcases hat with hat | hat <;> simp [place, hat, Place.Frees])
  | _ => exact hs.move hframe (by simp [place, *, Place.Frees])

theorem System.Acts.handles (h : s.Acts outcome p s')
    (hs : OneShot (s.args.status ≠ .unchanged) (fun q => (s.place q).Handles) (s.joins + s.detaches)) :
    OneShot (s'.args.status ≠ .unchanged) (fun q => (s'.place q).Handles) (s'.joins + s'.detaches) := by
  have hframe := h.frame
  cases h with
  -- `Join` and `Detach` claim `status`, and the wait or `mt_thread_detach` uses the claim.
  | claimJoined i hat hstatus =>
    exact hs.take hframe (by simp [hstatus]) (by simp) (by simp [place, Place.Handles])
  | claimDetached i hat hstatus =>
    exact hs.take hframe (by simp [hstatus]) (by simp) (by simp [place, Place.Handles])
  | waitThread i status hat hended =>
    show OneShot _ _ (s.joins + 1 + s.detaches)
    rw [Nat.add_right_comm]
    exact hs.spend hframe (by simp [place, hat, Place.Handles]) (by simp [place, Place.Handles])
  | detachThread i hat =>
    exact hs.spend hframe (by simp [place, hat, Place.Handles]) (by simp [place, Place.Handles])
  | enter i call rest hat => exact hs.move hframe (by cases call <;> simp [place, hat, Place.Handles, Native.first])
  | refused i hat => exact hs.move hframe (by rcases hat with hat | hat <;> simp [place, hat, Place.Handles])
  | _ => exact hs.move hframe (by simp [place, *, Place.Handles])

theorem System.Sound.step (hs : s.Sound) (h : s.step outcome p = some s') : s'.Sound := by
  obtain ⟨-, ⟨-, rfl⟩ | hacts⟩ := System.step_cases h
  · exact ⟨hs.frees, hs.handles⟩
  · exact ⟨hacts.frees hs.frees, hacts.handles hs.handles⟩

/-! ## What `Join` gives -/

def Ending.isJoined : Ending ε → Bool
  | .joined _ => true
  | _ => false

def Ending.isDetached : Ending ε → Bool
  | .detached => true
  | _ => false

/-- The call tried to free the `thread_arg`. -/
def Ending.releases : Ending ε → Bool
  | .joined _ => true
  | .hadFinished => true
  | _ => false

/-- The call has waited for the thread and will return. -/
def Place.Waited : Place ε → Prop
  | .client (some .setErr) => True
  | .client (some (.claimFreed ending)) => ending.isJoined
  | .client (some (.free ending)) => ending.isJoined
  | _ => False

/-- The target has returned. -/
def ThreadFn.called : ThreadFn → Prop
  | .registerThread => False
  | .call => False
  | _ => True

/-- A way on which a call returns fits to what has happened. -/
def System.Fits (outcome : Option ε) (s : System ι ε) : Ending ε → Prop
  | .joined err => err = outcome ∧ ∃ status, s.thread = .ended status
  | .hadFinished => s.args.finished = true
  | _ => True

/-- What has happened when a party is at a place: behind the call of the target its error is there, behind the wait the
thread has ended, and the call returns in a way that fits. -/
def System.Allows (outcome : Option ε) (s : System ι ε) : Place ε → Prop
  | .thread point => point.called → s.err = outcome
  | .client (some .setErr) => ∃ status, s.thread = .ended status
  | .client (some (.claimFreed ending)) => ending.releases ∧ s.Fits outcome ending
  | .client (some (.free ending)) => ending.releases ∧ s.Fits outcome ending
  | _ => True

/-- The calls return in ways that fit. -/
structure System.Tells (outcome : Option ε) (s : System ι ε) : Prop where
  places : ∀ q, s.Allows outcome (s.place q)
  returned : ∀ i ending, (i, ending) ∈ s.returned → s.Fits outcome ending

theorem System.Acts.ended (h : s.Acts outcome p s') {status : AllocationStatus} (hended : s.thread = .ended status) :
    s'.thread = .ended status := by
  cases h <;> simp_all

theorem System.Acts.fits (h : s.Acts outcome p s') {ending : Ending ε} (hfits : s.Fits outcome ending) :
    s'.Fits outcome ending := by
  cases ending with
  | joined err => exact ⟨hfits.1, hfits.2.imp fun _ => h.ended⟩
  | hadFinished =>
    have hfinished : s.args.finished = true := hfits
    show s'.args.finished = true
    cases h <;> simp [hfinished]
  | detached => trivial
  | refused => trivial

theorem System.Acts.allows (h : s.Acts outcome p s') (x : Place ε) (hx : s.Allows outcome x) :
    s'.Allows outcome x := by
  match x with
  | .thread point =>
    intro hcalled
    have herr : s.err = outcome := hx hcalled
    cases h <;> simp [herr]
  | .client (some .setErr) => exact Exists.imp (fun _ => h.ended) hx
  | .client (some (.claimFreed ending)) => exact ⟨hx.1, h.fits hx.2⟩
  | .client (some (.free ending)) => exact ⟨hx.1, h.fits hx.2⟩
  | .client none => trivial
  | .client (some .claimJoined) => trivial
  | .client (some .joinThread) => trivial
  | .client (some .waitThread) => trivial
  | .client (some .loadFinished) => trivial
  | .client (some .claimDetached) => trivial
  | .client (some .detachThread) => trivial

/-- Where the party is that has moved. -/
theorem System.Acts.allows_mover (h : s.Acts outcome p s') (hs : s.Tells outcome) : s'.Allows outcome (s'.place p) := by
  have hp := hs.places p
  have hthread := hs.places none
  cases h with
  | enter i call => cases call <;> simp [place, Allows, Native.first]
  | setErr i hat =>
    obtain ⟨status, hended⟩ : ∃ status, s.thread = .ended status := by simpa [place, hat, Allows] using hp
    -- the thread has ended, so it has left its error
    have herr : s.err = outcome := hthread (by rw [hended]; trivial)
    simp [place, Allows, Fits, Ending.releases, herr, hended]
  | claimFreed i ending hat hfreed =>
    obtain ⟨hreleases, hfits⟩ : ending.releases ∧ s.Fits outcome ending := by simpa [place, hat, Allows] using hp
    have hacts : s.Acts outcome (some i) (s.setFreed.goTo i (.free ending)) := .claimFreed i ending hat hfreed
    simpa [place, Allows, hreleases] using hacts.fits hfits
  | _ => simp_all [place, Allows, Fits, Ending.releases, ThreadFn.called]

/-- The calls that have returned after a step. -/
theorem System.Acts.returned (h : s.Acts outcome p s') {i : ι} {ending : Ending ε} (hmem : (i, ending) ∈ s'.returned) :
    (i, ending) ∈ s.returned ∨ ending = .refused ∨ ending = .detached ∨
      (s.clients i).current = some (.claimFreed ending) ∨ (s.clients i).current = some (.free ending) := by
  cases h <;> simp_all <;> grind

omit [DecidableEq ι] in
/-- A call that is about to free the `thread_arg`, or has found it freed. -/
theorem System.Tells.releasing (hs : s.Tells outcome) {i : ι} {ending : Ending ε}
    (hat : (s.clients i).current = some (.claimFreed ending) ∨ (s.clients i).current = some (.free ending)) :
    ending.releases ∧ s.Fits outcome ending := by
  have hplace := hs.places (some i)
  rcases hat with hat | hat <;> simpa [place, hat, Allows] using hplace

theorem System.Tells.step (hs : s.Tells outcome) (h : s.step outcome p = some s') : s'.Tells outcome := by
  obtain ⟨-, ⟨-, rfl⟩ | hacts⟩ := System.step_cases h
  · exact ⟨hs.places, hs.returned⟩
  · refine ⟨OneShot.forall_place hs.places hacts.frame hacts.allows (hacts.allows_mover hs), fun i ending hmem => ?_⟩
    apply hacts.fits
    rcases hacts.returned hmem with hmem | rfl | rfl | hat
    · exact hs.returned i ending hmem
    · trivial
    · trivial
    · exact (hs.releasing hat).2

/-- How many calls have returned from a thread that they had joined, and from one that they had detached. -/
def System.joined (s : System ι ε) : ℕ := s.returned.countP fun call => call.2.isJoined

def System.detached (s : System ι ε) : ℕ := s.returned.countP fun call => call.2.isDetached

theorem System.Acts.detached (h : s.Acts outcome p s') (hs : s.Tells outcome) (hdetached : s.detached = s.detaches) :
    s'.detached = s'.detaches := by
  have hnot : ∀ ending : Ending ε, ending.releases → ending.isDetached = false := by
    intro ending h
    cases ending <;> simp_all [Ending.releases, Ending.isDetached]
  cases h with
  | leftFreed i ending hat hfreed =>
    simp_all [System.detached, hnot ending (hs.releasing (Or.inl hat)).1]
  | free i ending hat =>
    simp_all [System.detached, hnot ending (hs.releasing (Or.inr hat)).1]
  | _ => simp_all [System.detached, Ending.isDetached]

omit [DecidableEq ι] in
/-- A call returns, and it is counted if it had waited for the thread. -/
theorem System.Acts.joined_leave {i : ι} (ending : Ending ε) {used : ℕ}
    (hs : OneShot (s.joins ≠ 0) (fun q => (s.place q).Waited) used)
    (hframe : ∀ q, q ≠ some i → s'.place q = s.place q) (hnone : s'.place (some i) = .client none)
    (hwaited : (s.place (some i)).Waited ↔ ending.isJoined) :
    OneShot (s.joins ≠ 0) (fun q => (s'.place q).Waited) (used + if ending.isJoined then 1 else 0) := by
  by_cases hjoined : ending.isJoined = true
  · rw [if_pos hjoined]
    exact hs.spend hframe (hwaited.mpr hjoined) (by simp [hnone, Place.Waited])
  · rw [if_neg hjoined]
    refine hs.move hframe ?_
    rw [hnone, hwaited]
    simp [hjoined, Place.Waited]

theorem System.Acts.joined (h : s.Acts outcome p s') (hsound : s.Sound)
    (hs : OneShot (s.joins ≠ 0) (fun q => (s.place q).Waited) s.joined) :
    OneShot (s'.joins ≠ 0) (fun q => (s'.place q).Waited) s'.joined := by
  have hframe := h.frame
  cases h with
  | waitThread i status hat hended =>
    -- this call has claimed the thread, so no wait has been counted yet
    have hunused := hsound.handles.unused (p := some i) (by simp [place, hat, Place.Handles])
    exact hs.take hframe (by omega) (by simp) (by simp [place, Place.Waited])
  | leftFreed i ending hat hfreed =>
    simpa [System.joined, List.countP_append, List.countP_singleton] using
      joined_leave ending hs hframe (by simp [place]) (by simp [place, hat, Place.Waited])
  | free i ending hat =>
    simpa [System.joined, List.countP_append, List.countP_singleton] using
      joined_leave ending hs hframe (by simp [place]) (by simp [place, hat, Place.Waited])
  | refused i hat =>
    simpa [System.joined, Ending.isJoined] using
      joined_leave .refused hs hframe (by simp [place])
        (by rcases hat with hat | hat <;> simp [place, hat, Place.Waited, Ending.isJoined])
  | detachThread i hat =>
    simpa [System.joined, Ending.isJoined] using
      joined_leave .detached hs hframe (by simp [place])
        (by simp [place, hat, Place.Waited, Ending.isJoined])
  | enter i call rest hat => exact hs.move hframe (by cases call <;> simp [place, hat, Place.Waited, Native.first])
  | _ => exact hs.move hframe (by simp [place, *, Place.Waited, Ending.isJoined])

/-- What holds of a thread and its calls at any time. -/
structure System.Accounted (outcome : Option ε) (s : System ι ε) : Prop where
  sound : s.Sound
  tells : s.Tells outcome
  joined : OneShot (s.joins ≠ 0) (fun q => (s.place q).Waited) s.joined
  detached : s.detached = s.detaches

theorem System.accounted_of_reachable {calls : ι → List Native}
    (h : Runs.Reachable (step outcome) (· = start calls) s) : s.Accounted outcome := by
  refine h.invariant ?_ fun s p s' hs hstep => ?_
  · rintro _ rfl
    refine ⟨sound_start calls, ⟨fun q => ?_, fun i ending hmem => ?_⟩, .free ?_ (fun q => ?_) rfl, rfl⟩
    · cases q <;> simp [start, place, Allows, ThreadFn.called]
    · simp [start] at hmem
    · simp [start]
    · cases q <;> simp [start, place, Place.Waited]
  · refine ⟨hs.sound.step hstep, hs.tells.step hstep, ?_, ?_⟩
    all_goals obtain ⟨-, ⟨-, rfl⟩ | hacts⟩ := step_cases hstep
    · exact hs.joined
    · exact hacts.joined hs.sound hs.joined
    · exact hs.detached
    · exact hacts.detached hs.tells hs.detached

end Threading

end Chloride
