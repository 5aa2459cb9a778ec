import Chloride.Stdlib.Threading

/-!
# The memory of threads

When the `thread_arg` of a thread is freed, and whether it is accessed after that. Without any call it stays. With one
call of `Join` all is well. With a second call, or with a `Detach`, there is an order of the steps in which a
`thread_arg` is accessed that was freed: a `Detach` that finds the thread finished frees it, though `thread_fn` still
has to read its `api` there. Where that does not happen, what was returned says whether the `thread_arg` is freed in the
end.
-/

namespace Chloride

namespace Threading

open Runs (Reachable run)

variable {ι ε : Type} [DecidableEq ι] {outcome : Option ε} {s s' : System ι ε} {p : Option ι}
  {calls : ι → List Native}

/-! ## One call of `Join` -/

/-- At most one call is made, of `Join`. -/
def JoinsOnce (calls : ι → List Native) : Prop :=
  (∀ i, calls i = []) ∨ ∃ i, calls i = [.join] ∧ ∀ j, j ≠ i → calls j = []

/-- A client has something to do. -/
def Client.Busy (client : Client ε) : Prop := client.current ≠ none ∨ client.remaining ≠ []

/-- What can be at the start of `Join`, and behind the wait. -/
def NativeStep.Waits : NativeStep ε → Prop
  | .claimJoined => True
  | .joinThread => True
  | .waitThread => True
  | _ => False

def NativeStep.Returns : NativeStep ε → Prop
  | .setErr => True
  | .claimFreed _ => True
  | .free _ => True
  | _ => False

/-- `thread_fn` has not loaded `DETACHED`. -/
def ThreadFn.Joinable : ThreadFn → Prop
  | .storeFinished status => status ≠ .detached
  | .unregisterThread status => status ≠ .detached
  | .claimFreed status => status ≠ .detached
  | .free _ => False
  | _ => True

/-- With at most one call, of `Join`, only that call frees the `thread_arg`, when all else is over. -/
structure System.JoinOnly (s : System ι ε) : Prop where
  alone : ∀ i j, (s.clients i).Busy → (s.clients j).Busy → i = j
  status : s.args.status ≠ .detached
  joinable : s.thread.Joinable
  start : ∀ i, (s.clients i).remaining ≠ [] →
    (s.clients i).remaining = [.join] ∧ (s.clients i).current = none ∧ s.args.freed = false
  current : ∀ i x, (s.clients i).current = some x →
    (x.Waits ∧ s.args.freed = false) ∨
      (x.Returns ∧ (∃ status, s.thread = .ended status) ∧ (s.args.freed = true → ∃ ending, x = .free ending))
  freed : s.args.freed = true → ∃ status, s.thread = .ended status
  dangling : s.dangling = false

omit [DecidableEq ι] in
theorem System.joinOnly_start (h : JoinsOnce calls) : (start calls : System ι ε).JoinOnly where
  alone i j hi hj := by
    have hi : calls i ≠ [] := by simpa [start, Client.Busy] using hi
    have hj : calls j ≠ [] := by simpa [start, Client.Busy] using hj
    rcases h with h | ⟨k, -, hk⟩
    · exact absurd (h i) hi
    · have hik : i = k := by_contra fun hne => hi (hk i hne)
      have hjk : j = k := by_contra fun hne => hj (hk j hne)
      rw [hik, hjk]
  status := by simp [start]
  joinable := by simp [start, ThreadFn.Joinable]
  start i hi := by
    have hi : calls i ≠ [] := hi
    rcases h with h | ⟨k, hcall, hk⟩
    · exact absurd (h i) hi
    · have hik : i = k := by_contra fun hne => hi (hk i hne)
      simp [start, hik, hcall]
  current i x hat := by simp [start] at hat
  freed := by simp [start]
  dangling := rfl

/-- No client gets busy. -/
theorem System.Acts.busy (h : s.Acts outcome p s') {i : ι} (hbusy : (s'.clients i).Busy) : (s.clients i).Busy := by
  cases h with
  | enter j call rest hat hrest => by_cases hi : i = j <;> simp_all [Client.Busy]
  | refused j hat => by_cases hi : i = j <;> rcases hat with hat | hat <;> simp_all [Client.Busy]
  | _ => first | exact hbusy | (simp_all [Client.Busy, Function.update_apply]; split at hbusy <;> simp_all)

omit [DecidableEq ι] in
/-- What a call of `Detach` does, no call does. -/
theorem System.JoinOnly.not_detaching (hs : s.JoinOnly) {i : ι} {x : NativeStep ε} (hat : (s.clients i).current = some x) :
    x ≠ .loadFinished ∧ x ≠ .claimDetached ∧ x ≠ .detachThread := by
  rcases hs.current i x hat with ⟨hx, -⟩ | ⟨hx, -⟩ <;> cases x <;> simp_all [NativeStep.Waits, NativeStep.Returns]

theorem System.JoinOnly.status_acts (hs : s.JoinOnly) (h : s.Acts outcome p s') : s'.args.status ≠ .detached := by
  have hstatus := hs.status
  cases h with
  | claimDetached i hat => exact absurd rfl (hs.not_detaching hat).2.1
  | _ => simp [hstatus]

theorem System.JoinOnly.joinable_acts (hs : s.JoinOnly) (h : s.Acts outcome p s') : s'.thread.Joinable := by
  have hjoinable := hs.joinable
  have hstatus := hs.status
  cases h <;> simp_all [ThreadFn.Joinable]

theorem System.JoinOnly.freed_acts (hs : s.JoinOnly) (h : s.Acts outcome p s') (hfreed : s'.args.freed = true) :
    ∃ status, s'.thread = .ended status := by
  have hjoinable := hs.joinable
  have hthread := hs.freed
  cases h with
  | claimFreed i ending hat hnot =>
    rcases hs.current i _ hat with ⟨hx, -⟩ | ⟨-, hended, -⟩
    · simp [NativeStep.Waits] at hx
    · exact hended
  -- `thread_fn` frees only what was detached
  | takeFreed hat hnot => simp [hat, ThreadFn.Joinable] at hjoinable
  | _ => simp_all

theorem System.JoinOnly.start_acts (hs : s.JoinOnly) (h : s.Acts outcome p s') (i : ι)
    (hi : (s'.clients i).remaining ≠ []) :
    (s'.clients i).remaining = [.join] ∧ (s'.clients i).current = none ∧ s'.args.freed = false := by
  have hstart := hs.start i
  cases h with
  | enter j call rest hat hrest =>
    have hj := hs.start j
    by_cases hij : i = j <;> simp_all
  | claimFreed j ending hat hnot =>
    -- only one call is made, so it is the one that is about to free
    have hij : i = j := hs.alone i j (Or.inr (by by_cases hij : i = j <;> simp_all)) (Or.inl (by simp [hat]))
    have hj := hs.start j
    simp_all
  | takeFreed hat hnot =>
    have hjoinable := hs.joinable
    simp [hat, ThreadFn.Joinable] at hjoinable
  | _ =>
    simp_all [Function.update_apply] <;> split at hi <;> simp_all

theorem System.JoinOnly.current_acts (hs : s.JoinOnly) (h : s.Acts outcome p s') (i : ι) (x : NativeStep ε)
    (hat : (s'.clients i).current = some x) :
    (x.Waits ∧ s'.args.freed = false) ∨
      (x.Returns ∧ (∃ status, s'.thread = .ended status) ∧ (s'.args.freed = true → ∃ ending, x = .free ending)) := by
  have hcurrent := hs.current i
  cases h with
  | enter j call rest hat' hrest =>
    have hj := hs.start j
    by_cases hij : i = j
    · obtain ⟨rfl, rfl⟩ : call = .join ∧ rest = [] := by simpa [hrest] using (hj (by simp [hrest])).1
      obtain rfl : .claimJoined = x := by simpa [hij, Native.first] using hat
      exact Or.inl ⟨trivial, (hj (by simp [hrest])).2.2⟩
    · exact hcurrent x (by simpa [hij] using hat)
  | claimFreed j ending hat' hnot =>
    have hij : i = j := hs.alone i j (Or.inl (by by_cases hij : i = j <;> simp_all)) (Or.inl (by simp [hat']))
    obtain rfl : .free ending = x := by simpa [hij] using hat
    rcases hs.current j _ hat' with ⟨hx, -⟩ | ⟨-, hended, -⟩
    · exact absurd hx (by simp [NativeStep.Waits])
    · exact Or.inr ⟨trivial, hended, fun _ => ⟨ending, rfl⟩⟩
  | takeFreed hat' hnot =>
    have hjoinable := hs.joinable
    simp [hat', ThreadFn.Joinable] at hjoinable
  -- The steps of `Detach`: there is no such call.
  | hadFinished j hat' => exact absurd rfl (hs.not_detaching hat').1
  | goesOn j hat' => exact absurd rfl (hs.not_detaching hat').1
  | claimDetached j hat' => exact absurd rfl (hs.not_detaching hat').2.1
  | refused j hat' =>
    by_cases hij : i = j
    · simp [hij] at hat
    · exact hcurrent x (by simpa [hij] using hat)
  | detachThread j hat' => exact absurd rfl (hs.not_detaching hat').2.2
  | leftFreed j ending hat' =>
    by_cases hij : i = j
    · simp [hij] at hat
    · exact hcurrent x (by simpa [hij] using hat)
  | free j ending hat' =>
    by_cases hij : i = j
    · simp [hij] at hat
    · exact hcurrent x (by simpa [hij] using hat)
  | claimJoined j hat' hstatus =>
    have hj := hs.current j _ hat'
    by_cases hij : i = j
    · obtain rfl : .joinThread = x := by simpa [hij] using hat
      simpa [NativeStep.Waits, NativeStep.Returns] using hj
    · exact hcurrent x (by simpa [hij] using hat)
  | joinThread j hat' =>
    have hj := hs.current j _ hat'
    by_cases hij : i = j
    · obtain rfl : .waitThread = x := by simpa [hij] using hat
      simpa [NativeStep.Waits, NativeStep.Returns] using hj
    · exact hcurrent x (by simpa [hij] using hat)
  | waitThread j status hat' hended =>
    have hj := hs.current j _ hat'
    by_cases hij : i = j
    · obtain rfl : .setErr = x := by simpa [hij] using hat
      have hfreed : s.args.freed = false := by simpa [NativeStep.Waits, NativeStep.Returns] using hj
      exact Or.inr ⟨trivial, ⟨status, hended⟩, fun hset => absurd hset (by simp [hfreed])⟩
    · exact hcurrent x (by simpa [hij] using hat)
  | setErr j hat' =>
    have hj := hs.current j _ hat'
    by_cases hij : i = j
    · obtain rfl : .claimFreed (.joined s.err) = x := by simpa [hij] using hat
      simpa [NativeStep.Waits, NativeStep.Returns] using hj
    · exact hcurrent x (by simpa [hij] using hat)
  | _ => simp_all

omit [DecidableEq ι] in
/-- Once the `thread_arg` is freed all is over. -/
theorem System.JoinOnly.over (hs : s.JoinOnly) (hsound : s.Sound) (hreleased : s.released ≠ 0) :
    (∃ status, s.thread = .ended status) ∧ ∀ i, ¬(s.clients i).Busy := by
  have hfreed := hsound.frees.taken_of_used hreleased
  refine ⟨hs.freed hfreed, fun i hbusy => ?_⟩
  rcases hbusy with hcurrent | hremaining
  · obtain ⟨x, hat⟩ := Option.ne_none_iff_exists'.mp hcurrent
    rcases hs.current i x hat with ⟨-, hnot⟩ | ⟨-, -, hlast⟩
    · simp [hfreed] at hnot
    · obtain ⟨ending, rfl⟩ := hlast hfreed
      exact hreleased (hsound.frees.unused (p := some i) (by simp [place, hat, Place.Frees]))
  · have := (hs.start i hremaining).2.2
    simp [hfreed] at this

theorem System.JoinOnly.step (hs : s.JoinOnly) (hsound : s.Sound) (h : s.step outcome p = some s') : s'.JoinOnly := by
  obtain ⟨-, ⟨hreleased, rfl⟩ | hacts⟩ := step_cases h
  · obtain ⟨⟨status, hended⟩, hidle⟩ := hs.over hsound hreleased
    -- An access to a freed `thread_arg` would be a step after all is over.
    cases p with
    | none => simp [System.step, hs.dangling, threadFn, hended] at h
    | some i =>
      have hi := hidle i
      simp_all [System.step, Client.Busy]
  · refine ⟨fun i j hi hj => hs.alone i j (hacts.busy hi) (hacts.busy hj), hs.status_acts hacts,
      hs.joinable_acts hacts, hs.start_acts hacts, hs.current_acts hacts, hs.freed_acts hacts, ?_⟩
    cases hacts <;> exact hs.dangling

/-! ## Other calls -/

/-- `thread_fn` runs until it has stored `finished`, a call of `Detach` runs to its end, and `thread_fn` goes on. -/
theorem dangling_of_detach {i : ι} {rest : List Native} (hi : calls i = .detach :: rest) :
    ∃ s, Reachable (System.step outcome) (· = System.start calls) s ∧ s.dangling = true := by
  have hrun : ∃ s, run (System.step outcome) (System.start calls)
      [none, none, none, none, some i, some i, some i, some i, none] = some s ∧ s.dangling = true := by
    simp [run, System.step, System.threadFn, System.accessing, System.start, System.nativeStep, Native.first, hi]
  obtain ⟨s, hrun, hdangling⟩ := hrun
  have hstart : Reachable (System.step outcome) (· = System.start calls) (System.start calls) := .init rfl
  exact ⟨s, hstart.run hrun, hdangling⟩

/-- The thread has ended before any call. -/
def System.afterThread (calls : ι → List Native) (outcome : Option ε) : System ι ε :=
  { start calls with args := ⟨.unchanged, true, false⟩, err := outcome, thread := .ended .unchanged }

theorem System.run_thread : run (step outcome) (start calls) (List.replicate 6 none) = some (afterThread calls outcome) := by
  simp [run, step, threadFn, accessing, start, afterThread]

/-- A call of `Join` when the thread has ended. -/
theorem System.run_join (outcome : Option ε) {i : ι} {rest : List Native} (hi : calls i = .join :: rest) :
    ∃ s, run (step outcome) (afterThread calls outcome) (List.replicate 7 (some i)) = some s ∧
      s.released = 1 ∧ s.dangling = false ∧ ∀ j, s.clients j = ⟨none, Function.update calls i rest j⟩ := by
  simp [run, step, accessing, start, afterThread, nativeStep, Native.first, hi, Function.update_apply]
  intro j
  split <;> simp_all

/-- Any call, when the `thread_arg` is freed. -/
theorem System.run_freed (outcome : Option ε) {j : ι} {call : Native} {rest : List Native} (hreleased : s.released ≠ 0)
    (hdangling : s.dangling = false) (hj : s.clients j = ⟨none, call :: rest⟩) :
    ∃ s', run (step outcome) s [some j, some j] = some s' ∧ s'.dangling = true := by
  cases call <;> simp [run, step, accessing, nativeStep, Native.first, hj, hreleased, hdangling]

/-- `thread_fn` runs to its end, a call of `Join` too, and another call starts. -/
theorem dangling_of_join {i j : ι} {call : Native} {rest rest' : List Native} (hi : calls i = .join :: rest)
    (hj : Function.update calls i rest j = call :: rest') :
    ∃ s, Reachable (System.step outcome) (· = System.start calls) s ∧ s.dangling = true := by
  have hstart : Reachable (System.step outcome) (· = System.start calls) (System.start calls) := .init rfl
  obtain ⟨s, hjoin, hreleased, hdangling, hclients⟩ := System.run_join outcome hi
  obtain ⟨s', hrun, hs'⟩ := System.run_freed outcome (by omega) hdangling ((hclients j).trans (by rw [hj]))
  exact ⟨s', ((hstart.run System.run_thread).run hjoin).run hrun, hs'⟩

theorem dangling_of_calls (outcome : Option ε) (hmany : ¬JoinsOnce calls) :
    ∃ s, Reachable (System.step outcome) (· = System.start calls) s ∧ s.dangling = true := by
  obtain ⟨i, hi⟩ : ∃ i, calls i ≠ [] := by
    by_contra hnone
    exact hmany (Or.inl fun i => by_contra fun hi => hnone ⟨i, hi⟩)
  match hcalls : calls i with
  | [] => exact absurd hcalls hi
  | .detach :: rest => exact dangling_of_detach hcalls
  | .join :: rest =>
    -- If the first call is `Join`, there is another one, of the same caller or of another.
    obtain ⟨j, call, rest', hj⟩ : ∃ j call rest', Function.update calls i rest j = call :: rest' := by
      by_contra hnone
      have hall : ∀ j, Function.update calls i rest j = [] := fun j => by
        by_contra hj
        exact hnone ⟨j, List.exists_cons_of_ne_nil hj⟩
      have hrest : rest = [] := by simpa using hall i
      exact hmany (Or.inr ⟨i, by rw [hcalls, hrest], fun j hj => by simpa [hj] using hall j⟩)
    exact dangling_of_join hcalls hj

theorem JoinsOnce.joinOnly (honce : JoinsOnce calls) (h : Reachable (System.step outcome) (· = System.start calls) s) :
    s.Sound ∧ s.JoinOnly := by
  refine h.invariant (P := fun s => s.Sound ∧ s.JoinOnly) (fun t ht => ?_) fun s p s' hs hstep =>
    ⟨hs.1.step hstep, hs.2.step hs.1 hstep⟩
  rw [ht]
  exact ⟨System.sound_start calls, System.joinOnly_start honce⟩

/-- Some order of the steps accesses a `thread_arg` that was freed, exactly if `Detach` is called, or more than one call
is made. -/
theorem dangling_iff (calls : ι → List Native) (outcome : Option ε) :
    (∃ s, Reachable (System.step outcome) (· = System.start calls) s ∧ s.dangling = true) ↔ ¬JoinsOnce calls := by
  constructor
  · rintro ⟨s, hs, hdangling⟩ honce
    simp [(honce.joinOnly hs).2.dangling] at hdangling
  · exact dangling_of_calls outcome

/-! ## When all is over -/

/-- The thread has ended, and all calls have returned. -/
def System.Over (s : System ι ε) : Prop := (∃ status, s.thread = .ended status) ∧ ∀ i, ¬(s.clients i).Busy

/-- The party that set `freed`, or what it left. -/
def System.Claimed (s : System ι ε) : Prop :=
  s.thread = .free .detached ∨ s.thread = .ended .detached ∨
    (∃ i ending, (s.clients i).current = some (.free ending)) ∨ ∃ i ending, (i, ending) ∈ s.returned ∧ ending.releases

theorem System.Acts.current_of_ne (h : s.Acts outcome p s') {i : ι} (hi : some i ≠ p) :
    (s'.clients i).current = (s.clients i).current := by
  simpa [place] using h.frame (some i) hi

/-- What the party that set `freed` left stays. -/
theorem System.Claimed.acts (hs : s.Claimed) (htells : s.Tells outcome) (h : s.Acts outcome p s') : s'.Claimed := by
  rcases hs with hfree | hended | ⟨i, ending, hat⟩ | ⟨i, ending, hmem, hreleases⟩
  · cases h <;> simp_all [Claimed]
  · exact Or.inr (Or.inl (h.ended hended))
  · by_cases hp : some i = p
    · subst hp
      have hreleases := (htells.releasing (Or.inr hat)).1
      cases h with
      | free j ending' hat' =>
        obtain rfl : ending' = ending := by simpa [hat] using hat'.symm
        exact Or.inr (Or.inr (Or.inr ⟨i, ending', by simp, hreleases⟩))
      | _ => simp_all
    · exact Or.inr (Or.inr (Or.inl ⟨i, ending, (h.current_of_ne hp).trans hat⟩))
  · refine Or.inr (Or.inr (Or.inr ⟨i, ending, ?_, hreleases⟩))
    cases h <;> simp [hmem]

/-- A call that tried to free the `thread_arg` has found `freed` set, or has set it. -/
theorem System.Acts.released_of_returned (h : s.Acts outcome p s') {i : ι} {ending : Ending ε}
    (hmem : (i, ending) ∈ s'.returned) (hreleases : ending.releases) :
    (i, ending) ∈ s.returned ∨ s'.args.freed = true ∨ (s.clients i).current = some (.free ending) := by
  cases h <;> simp_all [Ending.releases] <;> grind [Ending.releases]

/-- Nothing of that is there before `freed` is set. -/
theorem System.Acts.claimed (h : s.Acts outcome p s') (hs : s'.Claimed) : s.Claimed ∨ s'.args.freed = true := by
  rcases hs with hfree | hended | ⟨i, ending, hat⟩ | ⟨i, ending, hmem, hreleases⟩
  · cases h <;> simp_all [Claimed]
  · cases h <;> simp_all [Claimed]
  · by_cases hp : some i = p
    · subst hp
      cases h with
      | claimFreed j ending' hat' hfreed => exact Or.inr rfl
      | enter j call => cases call <;> simp [Native.first] at hat
      | _ => simp_all
    · exact Or.inl (Or.inr (Or.inr (Or.inl ⟨i, ending, (h.current_of_ne hp).symm.trans hat⟩)))
  · rcases h.released_of_returned hmem hreleases with hmem | hfreed | hat
    · exact Or.inl (Or.inr (Or.inr (Or.inr ⟨i, ending, hmem, hreleases⟩)))
    · exact Or.inr hfreed
    · exact Or.inl (Or.inr (Or.inr (Or.inl ⟨i, ending, hat⟩)))

theorem System.Acts.freed (h : s.Acts outcome p s') (hfreed : s'.args.freed = true) :
    s.args.freed = true ∨ s'.Claimed := by
  cases h with
  | takeFreed hat hnot => exact Or.inr (Or.inl rfl)
  | claimFreed i ending hat hnot => exact Or.inr (Or.inr (Or.inr (Or.inl ⟨i, ending, by simp⟩)))
  | _ => exact Or.inl hfreed

theorem System.freed_iff (h : Reachable (step outcome) (· = start calls) s) : s.args.freed = true ↔ s.Claimed := by
  refine (h.invariant (P := fun s => s.Tells outcome ∧ (s.args.freed = true ↔ s.Claimed)) (fun t ht => ?_)
    fun s p s' hs hstep => ?_).2
  · subst ht
    exact ⟨(accounted_of_reachable (.init rfl)).tells, by simp [start, Claimed]⟩
  · refine ⟨hs.1.step hstep, ?_⟩
    obtain ⟨-, ⟨-, rfl⟩ | hacts⟩ := step_cases hstep
    · exact hs.2
    · constructor
      · intro hfreed
        rcases hacts.freed hfreed with hfreed | hclaimed
        · exact (hs.2.mp hfreed).acts hs.1 hacts
        · exact hclaimed
      · intro hclaimed
        rcases hacts.claimed hclaimed with hclaimed | hfreed
        · have hfreed := hs.2.mpr hclaimed
          cases hacts <;> simp [hfreed]
        · exact hfreed

theorem System.Over.released_iff (hover : s.Over) (h : Reachable (step outcome) (· = start calls) s) :
    s.released = 1 ↔ s.thread = .ended .detached ∨ ∃ i ending, (i, ending) ∈ s.returned ∧ ending.releases := by
  obtain ⟨⟨status, hended⟩, hidle⟩ := hover
  have hcurrent : ∀ i, (s.clients i).current = none := fun i => by
    by_contra hbusy
    exact hidle i (Or.inl hbusy)
  have hnone : ∀ q, ¬(s.place q).Frees := fun q => by
    cases q <;> simp [place, hended, hcurrent, Place.Frees]
  rw [(accounted_of_reachable h).sound.frees.used_eq_one_iff hnone, freed_iff h]
  simp [Claimed, hended, hcurrent]

theorem System.Over.handled_iff (hover : s.Over) (h : Reachable (step outcome) (· = start calls) s) :
    s.joins + s.detaches = 1 ↔ ∃ i ending, (i, ending) ∈ s.returned ∧ (ending.isJoined ∨ ending.isDetached) := by
  have hs := accounted_of_reachable h
  have hnone : ∀ q, ¬(s.place q).Waited := fun q => by
    cases q with
    | none => simp [place, Place.Waited]
    | some i =>
      have hcurrent : (s.clients i).current = none := by
        by_contra hbusy
        exact hover.2 i (Or.inl hbusy)
      simp [place, hcurrent, Place.Waited]
  have hjoined := hs.joined.used_eq_one_iff hnone
  have hjoinedle := hs.joined.used_le_one
  have hdetached := hs.detached
  have hle := hs.sound.handles.used_le_one
  have hboth : s.joins + s.detaches = 1 ↔ 0 < s.joined ∨ 0 < s.detached := by omega
  rw [hboth, System.joined, System.detached, List.countP_pos_iff, List.countP_pos_iff]
  constructor
  · rintro (⟨⟨i, ending⟩, hmem, hending⟩ | ⟨⟨i, ending⟩, hmem, hending⟩)
    · exact ⟨i, ending, hmem, Or.inl hending⟩
    · exact ⟨i, ending, hmem, Or.inr hending⟩
  · rintro ⟨i, ending, hmem, hending | hending⟩
    · exact Or.inl ⟨(i, ending), hmem, hending⟩
    · exact Or.inr ⟨(i, ending), hmem, hending⟩

/-! ## Clean uses -/

/-- Whatever the order of the steps, no `thread_arg` is accessed that was freed, and in the end it has been freed, and
the thread joined or detached, once. -/
def Clean (outcome : Option ε) (calls : ι → List Native) : Prop :=
  ∀ s, Reachable (System.step outcome) (· = System.start calls) s →
    s.dangling = false ∧ (s.Over → s.released = 1 ∧ s.joins + s.detaches = 1)

/-- The one call waits until it is made, and returns from having joined the thread. -/
structure System.JoinReturns (s : System ι ε) : Prop where
  unclaimed : ∀ i, (s.clients i).remaining ≠ [] ∨ (s.clients i).current = some .claimJoined → s.args.status = .unchanged
  current : ∀ i ending,
    (s.clients i).current = some (.claimFreed ending) ∨ (s.clients i).current = some (.free ending) → ending.isJoined
  returned : ∀ i ending, (i, ending) ∈ s.returned → ending.isJoined
  exists_call : (∃ i, (s.clients i).Busy) ∨ ∃ i ending, (i, ending) ∈ s.returned

theorem System.JoinReturns.unclaimed_acts (hs : s.JoinReturns) (honly : s.JoinOnly) (h : s.Acts outcome p s') (i : ι)
    (hi : (s'.clients i).remaining ≠ [] ∨ (s'.clients i).current = some .claimJoined) : s'.args.status = .unchanged := by
  have hunclaimed := hs.unclaimed i
  cases h with
  | claimJoined j hat hstatus =>
    by_cases hij : i = j
    · subst hij
      have hstart := honly.start i
      simp_all
    · have hbusy : (s.clients i).Busy := by
        rcases hi with hi | hi
        · exact Or.inr (by simpa [hij] using hi)
        · exact Or.inl (by simp_all)
      exact absurd (honly.alone i j hbusy (Or.inl (by simp [hat]))) hij
  | claimDetached j hat => exact absurd rfl (honly.not_detaching hat).2.1
  | enter j call rest hat hrest =>
    by_cases hij : i = j
    · subst hij
      exact hunclaimed (Or.inl (by simp [hrest]))
    · exact hunclaimed (by simpa [hij] using hi)
  | _ => first | exact hunclaimed hi | (simp_all [Function.update_apply]; split at hi <;> simp_all)

theorem System.JoinReturns.current_acts (hs : s.JoinReturns) (honly : s.JoinOnly) (h : s.Acts outcome p s') (i : ι)
    (ending : Ending ε)
    (hi : (s'.clients i).current = some (.claimFreed ending) ∨ (s'.clients i).current = some (.free ending)) :
    ending.isJoined := by
  have hcurrent := hs.current i ending
  cases h with
  | setErr j hat =>
    by_cases hij : i = j
    · obtain rfl : .joined s.err = ending := by simpa [hij] using hi
      rfl
    · exact hcurrent (by simpa [hij] using hi)
  | hadFinished j hat => exact absurd rfl (honly.not_detaching hat).1
  | claimFreed j ending' hat =>
    by_cases hij : i = j
    · subst hij
      obtain rfl : ending' = ending := by simpa using hi
      exact hcurrent (Or.inl hat)
    · exact hcurrent (by simpa [hij] using hi)
  | enter j call rest hat =>
    by_cases hij : i = j
    · cases call <;> simp [hij, Native.first] at hi
    · exact hcurrent (by simpa [hij] using hi)
  | _ => first | exact hcurrent hi | (simp_all [Function.update_apply]; split at hi <;> simp_all)

theorem System.JoinReturns.returned_acts (hs : s.JoinReturns) (honly : s.JoinOnly) (h : s.Acts outcome p s') (i : ι)
    (ending : Ending ε) (hmem : (i, ending) ∈ s'.returned) : ending.isJoined := by
  have hreturned := hs.returned i ending
  cases h with
  | refused j hat hstatus =>
    rcases hat with hat | hat
    · exact absurd (hs.unclaimed j (Or.inr hat)) hstatus
    · exact absurd rfl (honly.not_detaching hat).2.1
  | detachThread j hat => exact absurd rfl (honly.not_detaching hat).2.2
  | leftFreed j ending' hat =>
    have hjoined := hs.current j ending' (Or.inl hat)
    simp only [leave, setClient, List.mem_append, List.mem_singleton, Prod.mk.injEq] at hmem
    rcases hmem with hmem | ⟨-, rfl⟩
    · exact hreturned hmem
    · exact hjoined
  | free j ending' hat =>
    have hjoined := hs.current j ending' (Or.inr hat)
    simp only [System.free, leave, setClient, List.mem_append, List.mem_singleton, Prod.mk.injEq] at hmem
    rcases hmem with hmem | ⟨-, rfl⟩
    · exact hreturned hmem
    · exact hjoined
  | _ => exact hreturned hmem

theorem System.Acts.exists_call (h : s.Acts outcome p s')
    (hs : (∃ i, (s.clients i).Busy) ∨ ∃ i ending, (i, ending) ∈ s.returned) :
    (∃ i, (s'.clients i).Busy) ∨ ∃ i ending, (i, ending) ∈ s'.returned := by
  cases h with
  | refused j => exact Or.inr ⟨j, .refused, by simp⟩
  | detachThread j => exact Or.inr ⟨j, .detached, by simp⟩
  | leftFreed j ending => exact Or.inr ⟨j, ending, by simp⟩
  | free j ending => exact Or.inr ⟨j, ending, by simp⟩
  | enter j => exact Or.inl ⟨j, by simp [Client.Busy]⟩
  | claimJoined j => exact Or.inl ⟨j, by simp [Client.Busy]⟩
  | joinThread j => exact Or.inl ⟨j, by simp [Client.Busy]⟩
  | waitThread j => exact Or.inl ⟨j, by simp [Client.Busy]⟩
  | setErr j => exact Or.inl ⟨j, by simp [Client.Busy]⟩
  | hadFinished j => exact Or.inl ⟨j, by simp [Client.Busy]⟩
  | goesOn j => exact Or.inl ⟨j, by simp [Client.Busy]⟩
  | claimDetached j => exact Or.inl ⟨j, by simp [Client.Busy]⟩
  | claimFreed j => exact Or.inl ⟨j, by simp [Client.Busy]⟩
  | _ => exact hs

omit [DecidableEq ι] in
theorem System.joinReturns_start {i : ι} (hi : calls i ≠ []) :
    (start calls : System ι ε).JoinReturns where
  unclaimed _ _ := rfl
  current j ending hat := by simp [start] at hat
  returned j ending hmem := by simp [start] at hmem
  exists_call := Or.inl ⟨i, Or.inr hi⟩

/-- A thread is used cleanly exactly if one call is made, of `Join`. -/
theorem clean_iff (calls : ι → List Native) (outcome : Option ε) :
    Clean outcome calls ↔ ∃ i, calls i = [.join] ∧ ∀ j, j ≠ i → calls j = [] := by
  constructor
  · intro hclean
    have honce : JoinsOnce calls := by
      by_contra hmany
      obtain ⟨s, hs, hdangling⟩ := dangling_of_calls outcome hmany
      simp [(hclean s hs).1] at hdangling
    rcases honce with hnone | hone
    · -- Without a call nobody frees the `thread_arg`.
      have hstart : Reachable (System.step outcome) (· = System.start calls) (System.start calls) := .init rfl
      have hreleased := ((hclean _ (hstart.run System.run_thread)).2
        ⟨⟨_, rfl⟩, fun i hbusy => by simp [System.afterThread, System.start, Client.Busy, hnone] at hbusy⟩).1
      simp [System.afterThread, System.start] at hreleased
    · exact hone
  · rintro ⟨i, hi, hothers⟩ s hs
    have honce : JoinsOnce calls := Or.inr ⟨i, hi, hothers⟩
    have hall : s.Sound ∧ s.JoinOnly ∧ s.JoinReturns := by
      refine hs.invariant (P := fun s => s.Sound ∧ s.JoinOnly ∧ s.JoinReturns) (fun t ht => ?_)
        fun s p s' hs hstep => ⟨hs.1.step hstep, hs.2.1.step hs.1 hstep, ?_⟩
      · rw [ht]
        exact ⟨System.sound_start calls, System.joinOnly_start honce, System.joinReturns_start (i := i) (by simp [hi])⟩
      · obtain ⟨-, ⟨-, rfl⟩ | hacts⟩ := System.step_cases hstep
        · exact ⟨hs.2.2.unclaimed, hs.2.2.current, hs.2.2.returned, hs.2.2.exists_call⟩
        · exact ⟨hs.2.2.unclaimed_acts hs.2.1 hacts, hs.2.2.current_acts hs.2.1 hacts,
            hs.2.2.returned_acts hs.2.1 hacts, hacts.exists_call hs.2.2.exists_call⟩
    refine ⟨hall.2.1.dangling, fun hover => ?_⟩
    obtain ⟨j, ending, hmem⟩ : ∃ j ending, (j, ending) ∈ s.returned := by
      rcases hall.2.2.exists_call with ⟨j, hbusy⟩ | hreturned
      · exact absurd hbusy (hover.2 j)
      · exact hreturned
    have hjoined := hall.2.2.returned j ending hmem
    refine ⟨(hover.released_iff hs).mpr (Or.inr ⟨j, ending, hmem, ?_⟩),
      (hover.handled_iff hs).mpr ⟨j, ending, hmem, Or.inl hjoined⟩⟩
    cases ending <;> simp_all [Ending.isJoined, Ending.releases]

/-- Until all is over some step can be made. -/
theorem System.exists_step (hdangling : s.dangling = false) (hover : ¬s.Over) : ∃ p s', s.step outcome p = some s' := by
  have haccessing : ∀ t : System ι ε, ∃ s', s.accessing t = some s' := fun t => by
    unfold accessing
    split <;> exact ⟨_, rfl⟩
  by_cases hended : ∃ status, s.thread = .ended status
  · obtain ⟨i, hbusy⟩ : ∃ i, (s.clients i).Busy := by
      by_contra hidle
      exact hover ⟨hended, fun i hi => hidle ⟨i, hi⟩⟩
    obtain ⟨status, hended⟩ := hended
    refine ⟨some i, ?_⟩
    simp only [step, hdangling, Bool.false_eq_true, if_false]
    split
    · next x _ =>
      cases x <;> first | exact haccessing _ | simp [nativeStep, hended]
    · exact ⟨_, rfl⟩
    · next hcurrent hremaining => simp [Client.Busy, hcurrent, hremaining] at hbusy
  · refine ⟨none, ?_⟩
    simp only [step, hdangling, Bool.false_eq_true, if_false]
    unfold threadFn
    split <;> first | exact haccessing _ | simp_all
    split
    · exact haccessing _
    · exact ⟨_, rfl⟩

/-- Until all is over some step can be made. When it is, without an access to a `thread_arg` that was freed, this has
been freed if `thread_fn` had loaded `DETACHED`, or a call joined the thread or found it finished, and else never; and
the thread has been joined or detached if a call returned from that, and else never. -/
theorem thread_resources (h : Reachable (System.step outcome) (· = System.start calls) s) (hdangling : s.dangling = false) :
    (¬s.Over → ∃ p s', s.step outcome p = some s') ∧
      (s.Over →
        (s.released = 1 ↔ s.thread = .ended .detached ∨ ∃ i ending, (i, ending) ∈ s.returned ∧ ending.releases) ∧
        (s.joins + s.detaches = 1 ↔ ∃ i ending, (i, ending) ∈ s.returned ∧ (ending.isJoined ∨ ending.isDetached))) :=
  ⟨System.exists_step hdangling, fun hover => ⟨hover.released_iff h, hover.handled_iff h⟩⟩

theorem thread_resources_unused :
    let s : System Unit Unit := .afterThread (fun _ => []) none
    s.Over ∧ ¬(s.thread = .ended .detached ∨ ∃ i ending, (i, ending) ∈ s.returned ∧ ending.releases) := by
  intro s
  have hstart : Reachable (System.step (none : Option Unit)) (· = System.start fun _ : Unit => [])
      (System.start fun _ => []) := .init rfl
  have hover : s.Over := ⟨⟨_, rfl⟩, fun i hbusy => by simp [s, System.afterThread, System.start, Client.Busy] at hbusy⟩
  refine ⟨hover, fun hfreed => ?_⟩
  have hreleased := ((thread_resources (hstart.run System.run_thread) rfl).2 hover).1.mpr hfreed
  simp [System.afterThread, System.start] at hreleased

/-! ## The class `Thread` -/

/-- The methods of a `Thread`. -/
inductive Method where
  | start
  | join
  | detach

/-- A method that makes a call on a running thread. -/
def Method.isCall : Method → Bool
  | .start => false
  | .join => true
  | .detach => true

/-- `__started__`, and whether `__thread__` is not null. -/
structure ThreadObject where
  started : Bool
  thread : Bool

/-- A method, and the calls that it makes with the thread object. -/
def ThreadObject.call (self : ThreadObject) : Method → ThreadObject × List Native
  | .start => if self.started then (self, []) else (⟨true, true⟩, [])
  | .join => if !self.started || !self.thread then (self, []) else ({ self with thread := false }, [.join])
  | .detach => if !self.started || !self.thread then (self, []) else (self, [.detach])

/-- The calls that a sequence of methods makes. -/
def ThreadObject.nativeCalls (self : ThreadObject) : List Method → List Native
  | [] => []
  | method :: methods => (self.call method).2 ++ (self.call method).1.nativeCalls methods

/-- The object of a thread that runs. -/
def ThreadObject.running : ThreadObject := ⟨true, true⟩

theorem ThreadObject.nativeCalls_joined (methods : List Method) : (⟨true, false⟩ : ThreadObject).nativeCalls methods = [] := by
  induction methods with
  | nil => rfl
  | cons method methods ih => cases method <;> simp [nativeCalls, call, ih]

theorem ThreadObject.nativeCalls_running (methods : List Method) :
    running.nativeCalls methods = [.join] ↔ methods.find? Method.isCall = some .join := by
  induction methods with
  | nil => simp [nativeCalls]
  | cons method methods ih =>
    cases method with
    | start => simpa [nativeCalls, call, running, Method.isCall] using ih
    | join => simp [nativeCalls, call, running, nativeCalls_joined, Method.isCall]
    | detach => simp [nativeCalls, call, running, Method.isCall]

/-- A `Thread` that is used by one thread, is used cleanly exactly if `join` is called, and `detach` not before. -/
theorem thread_object_clean_iff (methods : List Method) (outcome : Option ε) :
    Clean outcome (fun _ : Unit => ThreadObject.running.nativeCalls methods) ↔
      methods.find? Method.isCall = some .join := by
  rw [clean_iff, ← ThreadObject.nativeCalls_running]
  simp

end Threading

end Chloride
