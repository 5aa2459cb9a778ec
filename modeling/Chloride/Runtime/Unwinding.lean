import Chloride.Runtime.Invariants

/-!
# The delivery of an exception

An error that is raised in a frame goes to the nearest frame of the same `runtime` call that has a
catcher, and there to the last catcher that was pushed (`src/runtime/runtime.c`, the end of the outer
loop). `exception_delivery` follows it: the frames above are dropped and never run again, the frame
goes on at the target of the catcher with the scope and the call instance that were in force when the
catcher was pushed, and the error is in register 0 and pending no longer.

That the dropped frames never come back rests on the addresses of frames: two frames of a machine
never share one, and a new frame gets one that was never used (`Transition.frameIds`).
-/

namespace Chloride

/-! ## The addresses of frames -/

/-- The addresses of all frames. -/
def Machine.frameIds (m : Machine) : List ℕ :=
  m.invocations.flatMap fun inv => inv.frames.map Frame.id

theorem Frame.SameControl.id_eq {f g : Frame} (h : f.SameControl g) : g.id = f.id := by
  obtain ⟨registers, _, rfl⟩ := h
  rfl

theorem Invocation.frameIds_unwind {inv inv' : Invocation} (hshaped : ∀ f ∈ inv.frames, f.Shaped)
    (h : inv.unwind = some inv') :
    (inv'.frames.map Frame.id).Sublist (inv.frames.map Frame.id) := by
  rcases Invocation.unwind_cases hshaped h with
    ⟨f, below, e, c, cs, hframes, _, _, rfl⟩ | ⟨f, v, _, rfl⟩ | ⟨f, g, rest, v, hframes, rfl⟩
  · rw [hframes]
    exact List.Sublist.refl _
  · exact List.nil_sublist _
  · rw [hframes]
    exact List.sublist_cons_self _ _

/-- The frames of a machine have the shape of frames. -/
def Machine.Shaped (m : Machine) : Prop := ∀ inv ∈ m.invocations, ∀ f ∈ inv.frames, f.Shaped

theorem Machine.Reachable.shaped {modules : List Module} {m : Machine}
    (hm : m.Reachable modules) : m.Shaped :=
  ((Frame.shaped_invariant modules).reachable hm).frames

/-- A step adds a frame at an address that was never used, or keeps some of the frames. -/
theorem Transition.frameIds {m m' : Machine} {input : Input} (ht : Transition m input m')
    (hshaped : m.Shaped) :
    (m'.frameIds = m.heap.frames :: m.frameIds ∧ m'.heap.frames = m.heap.frames + 1) ∨
      (m'.frameIds.Sublist m.frameIds ∧ m'.heap.frames = m.heap.frames) := by
  unfold Machine.frameIds
  cases ht with
  | runModule => exact Or.inl ⟨rfl, rfl⟩
  | @leave inv rest rest' hinvs hempty hleave =>
    refine Or.inr ⟨?_, rfl⟩
    rw [hinvs]
    generalize inv.returns = returns at hleave
    cases hleave with
    | empty => exact List.nil_sublist _
    | keep => simp [hempty]
    | answer hframes hwrite => simp [hempty, hframes, (Frame.write_sameControl hwrite).id_eq]
  -- The running frame stays at its address.
  | exec hinvs hframes _ hfetch hexec =>
    have hcontrol := execInstr_control hexec
    obtain ⟨ip, hip⟩ := Frame.fetch_eq hfetch
    refine Or.inr ⟨?_, hcontrol.frames⟩
    rw [hinvs]
    simp [hframes, hcontrol.id, hip]
  -- A called function gets an address that was never used.
  | call hinvs hframes _ hfetch _ _ =>
    obtain ⟨ip, hip⟩ := Frame.fetch_eq hfetch
    refine Or.inl ⟨?_, rfl⟩
    rw [hinvs]
    simp [hframes, hip, FunctionObject.frame]
  | argonCall hinvs =>
    refine Or.inl ⟨?_, rfl⟩
    rw [hinvs]
    simp [FunctionObject.frame]
  | interrupt hinvs =>
    refine Or.inr ⟨?_, rfl⟩
    rw [hinvs]
    simp
  -- The unwinding takes frames away.
  | @unwind inv inv' rest f frames hinvs _ _ hunwind =>
    refine Or.inr ⟨?_, rfl⟩
    have htop : ∀ f ∈ inv.frames, f.Shaped := hshaped inv (by rw [hinvs]; exact List.mem_cons_self)
    rw [hinvs]
    simpa using (Invocation.frameIds_unwind htop hunwind).append_right
      (rest.flatMap fun inv => inv.frames.map Frame.id)

/-- No two frames share an address, the addresses in use were given out, and only the innermost
`runtime` call can have an error pending. -/
structure Machine.Orderly (m : Machine) : Prop where
  shaped : m.Shaped
  nodup : m.frameIds.Nodup
  below : ∀ id ∈ m.frameIds, id < m.heap.frames
  quiescent : ∀ inv ∈ m.invocations.tail, inv.err = none

/-- A `runtime` call waits only while no error is pending in it. -/
theorem Transition.quiescent {m m' : Machine} {input : Input} (ht : Transition m input m')
    (hm : ∀ inv ∈ m.invocations.tail, inv.err = none) :
    ∀ inv ∈ m'.invocations.tail, inv.err = none := by
  cases ht with
  | runModule _ hor =>
    rcases hor with hinvs | ⟨inv, rest, f, frames, hinvs, hframes, hrun⟩
    · simp [hinvs]
    · rw [hinvs] at hm
      rw [hinvs]
      intro inv' hinv
      rcases List.mem_cons.mp hinv with rfl | hinv
      · exact hrun.1
      · exact hm inv' hinv
  | @leave inv rest rest' hinvs hempty hleave =>
    rw [hinvs] at hm
    generalize inv.returns = returns at hleave
    cases hleave with
    | empty => simp
    | keep => exact fun inv hinv => hm inv (List.mem_of_mem_tail hinv)
    | answer _ _ => exact fun inv hinv => hm inv (List.mem_cons_of_mem _ hinv)
  | argonCall hinvs _ hrun =>
    rw [hinvs] at hm
    intro inv' hinv
    rcases List.mem_cons.mp hinv with rfl | hinv
    · exact hrun.1
    · exact hm inv' hinv
  | exec hinvs | call hinvs | interrupt hinvs | unwind hinvs =>
    rw [hinvs] at hm
    exact hm

theorem Machine.Orderly.step {m m' : Machine} {input : Input} (hm : m.Orderly) (hshaped : m'.Shaped)
    (ht : Transition m input m') : m'.Orderly := by
  obtain ⟨hshaped₀, hnodup, hbelow, hquiescent⟩ := hm
  rcases ht.frameIds hshaped₀ with ⟨hids, hframes⟩ | ⟨hids, hframes⟩
  · refine ⟨hshaped, ?_, ?_, ht.quiescent hquiescent⟩
    · rw [hids, List.nodup_cons]
      exact ⟨fun hmem => lt_irrefl _ (hbelow _ hmem), hnodup⟩
    · rw [hids, hframes]
      intro id hid
      rcases List.mem_cons.mp hid with rfl | hid
      · omega
      · have := hbelow id hid
        omega
  · exact ⟨hshaped, hnodup.sublist hids, fun id hid => hframes ▸ hbelow id (hids.subset hid),
      ht.quiescent hquiescent⟩

theorem Machine.Reachable.orderly {modules : List Module} {m : Machine}
    (hm : m.Reachable modules) : m.Orderly := by
  induction hm with
  | init h =>
    obtain ⟨globals, rfl⟩ := h
    have hstart : Machine.Reachable modules (Machine.start modules globals) :=
      Runs.Reachable.init ⟨globals, rfl⟩
    exact ⟨hstart.shaped, List.nodup_nil, by simp [Machine.frameIds, Machine.start], by simp [Machine.start]⟩
  | step hs hstep ih =>
    exact ih.step (Machine.Reachable.shaped (Runs.Reachable.step hs hstep))
      (transition_of_step hstep)

/-- The address of a frame that is gone. -/
def Machine.Gone (m : Machine) (id : ℕ) : Prop := id < m.heap.frames ∧ id ∉ m.frameIds

theorem Transition.gone {m m' : Machine} {input : Input} (ht : Transition m input m')
    (hshaped : m.Shaped) {id : ℕ} (hm : m.Gone id) : m'.Gone id := by
  obtain ⟨hlt, hmem⟩ := hm
  unfold Machine.Gone
  rcases ht.frameIds hshaped with ⟨hids, hframes⟩ | ⟨hids, hframes⟩
  · rw [hids, hframes, List.mem_cons, not_or]
    exact ⟨by omega, by omega, hmem⟩
  · rw [hframes]
    exact ⟨hlt, fun h => hmem (hids.subset h)⟩

/-- A frame that is gone never comes back. -/
theorem Machine.Gone.run {modules : List Module} {m m' : Machine} {id : ℕ} (hm : m.Gone id)
    (hreach : m.Reachable modules) {inputs : List Input}
    (hrun : Runs.run Chloride.step m inputs = some m') : m'.Gone id := by
  have hstep : ∀ s i s', s.Reachable modules ∧ s.Gone id → Chloride.step s i = some s' →
      s'.Reachable modules ∧ s'.Gone id := fun s i s' hs h =>
    ⟨hs.1.step h, (transition_of_step h).gone hs.1.shaped hs.2⟩
  exact (Runs.run_invariant hstep ⟨hreach, hm⟩ hrun).2

/-! ## Where the catchers come from -/

/-- The frame at an address has a catcher. -/
def Machine.Catches (m : Machine) (x : ℕ × ErrorCatch) : Prop :=
  ∃ inv ∈ m.invocations, ∃ f ∈ inv.frames, f.id = x.1 ∧ x.2 ∈ f.catchErrors

/-- The running frame is at an `OP_EXCEPTION_CATCHER_PUSH` that records this catcher: its target, and
the scope and the call instance that are in force now. -/
def Machine.Pushes (m : Machine) (x : ℕ × ErrorCatch) : Prop :=
  ∃ inv rest f frames f₁ target, m.invocations = inv :: rest ∧ inv.frames = f :: frames ∧
    inv.Running f ∧ f.fetch = some (.exceptionCatcherPush target, f₁) ∧ f.id = x.1 ∧
    x.2 = ⟨target.toNat, f.stack, f.id, f.callInstance⟩

theorem Instr.mem_catchersAfter {f : Frame} {i : Instr} {c : ErrorCatch}
    (hc : c ∈ i.catchersAfter f) :
    c ∈ f.catchErrors ∨ ∃ target, i = .exceptionCatcherPush target ∧
      c = ⟨target.toNat, f.stack, f.id, f.callInstance⟩ := by
  cases i with
  | exceptionCatcherPush target =>
    rcases List.mem_cons.mp hc with rfl | hc
    · exact Or.inr ⟨target, rfl, rfl⟩
    · exact Or.inl hc
  | op o =>
    cases o with
    | exceptionCatcherPop => exact Or.inl (List.mem_of_mem_tail hc)
    | _ => exact Or.inl hc
  | _ => exact Or.inl hc

theorem Frame.SameControl.catchErrors_eq {f g : Frame} (h : f.SameControl g) :
    g.catchErrors = f.catchErrors := by
  obtain ⟨registers, _, rfl⟩ := h
  rfl

/-- A catcher that is there after a step was there before or is pushed by the step. -/
theorem Transition.catches {m m' : Machine} {input : Input} (ht : Transition m input m')
    (hshaped : m.Shaped) {x : ℕ × ErrorCatch} (hx : m'.Catches x) : m.Catches x ∨ m.Pushes x := by
  obtain ⟨inv', hinv', f', hf', hid, hc⟩ := hx
  cases ht with
  -- A new frame has no catchers.
  | runModule =>
    rcases List.mem_cons.mp hinv' with rfl | hinv'
    · rw [List.mem_singleton.mp hf'] at hc
      exact (List.not_mem_nil hc).elim
    · exact Or.inl ⟨inv', hinv', f', hf', hid, hc⟩
  | @leave inv rest rest' hinvs hempty hleave =>
    refine Or.inl ?_
    unfold Machine.Catches
    rw [hinvs]
    generalize inv.returns = returns at hleave
    cases hleave with
    | empty => cases hinv'
    | keep => exact ⟨inv', List.mem_cons_of_mem _ hinv', f', hf', hid, hc⟩
    | @answer caller rest f g frames hframes hwrite =>
      rcases List.mem_cons.mp hinv' with rfl | hinv'
      · refine ⟨caller, List.mem_cons_of_mem _ List.mem_cons_self, ?_⟩
        rw [hframes]
        rcases List.mem_cons.mp hf' with rfl | hf'
        · have hsame := Frame.write_sameControl hwrite
          exact ⟨f, List.mem_cons_self, hsame.id_eq ▸ hid, hsame.catchErrors_eq ▸ hc⟩
        · exact ⟨f', List.mem_cons_of_mem _ hf', hid, hc⟩
      · exact ⟨inv', List.mem_cons_of_mem _ (List.mem_cons_of_mem _ hinv'), f', hf', hid, hc⟩
  -- The instruction leaves the catchers, pops one or pushes one.
  | @exec inv rest f f₁ g frames a i heap err hinvs hframes hrun hfetch hexec =>
    have hcontrol := execInstr_control hexec
    unfold Machine.Catches
    rcases List.mem_cons.mp hinv' with rfl | hinv'
    · rcases List.mem_cons.mp hf' with rfl | hf'
      · obtain ⟨ip, rfl⟩ := Frame.fetch_eq hfetch
        rw [hcontrol.catchers] at hc
        rw [hcontrol.id] at hid
        rcases Instr.mem_catchersAfter hc with hc | ⟨target, rfl, hx⟩
        · refine Or.inl ⟨inv, by rw [hinvs]; exact List.mem_cons_self, f, ?_, hid, hc⟩
          rw [hframes]
          exact List.mem_cons_self
        · exact Or.inr ⟨inv, rest, f, frames, _, target, hinvs, hframes, hrun, hfetch, hid, hx⟩
      · refine Or.inl ⟨inv, by rw [hinvs]; exact List.mem_cons_self, f', ?_, hid, hc⟩
        rw [hframes]
        exact List.mem_cons_of_mem _ hf'
    · exact Or.inl ⟨inv', by rw [hinvs]; exact List.mem_cons_of_mem _ hinv', f', hf', hid, hc⟩
  | @call inv rest f f₁ frames fn n arguments id previous hinvs hframes hrun hfetch hfn hcalls =>
    refine Or.inl ?_
    unfold Machine.Catches
    rw [hinvs]
    rcases List.mem_cons.mp hinv' with rfl | hinv'
    · refine ⟨inv, List.mem_cons_self, ?_⟩
      rw [hframes]
      rcases List.mem_cons.mp hf' with rfl | hf'
      · exact (List.not_mem_nil hc).elim
      rcases List.mem_cons.mp hf' with rfl | hf'
      · obtain ⟨ip, rfl⟩ := Frame.fetch_eq hfetch
        exact ⟨f, List.mem_cons_self, hid, hc⟩
      · exact ⟨f', List.mem_cons_of_mem _ hf', hid, hc⟩
    · exact ⟨inv', List.mem_cons_of_mem _ hinv', f', hf', hid, hc⟩
  | argonCall hinvs =>
    rcases List.mem_cons.mp hinv' with rfl | hinv'
    · rw [List.mem_singleton.mp hf'] at hc
      exact (List.not_mem_nil hc).elim
    · exact Or.inl ⟨inv', by rw [hinvs]; exact hinv', f', hf', hid, hc⟩
  | @interrupt inv rest f frames instance_ hinvs =>
    refine Or.inl ?_
    unfold Machine.Catches
    rw [hinvs]
    rcases List.mem_cons.mp hinv' with rfl | hinv'
    · exact ⟨inv, List.mem_cons_self, f', hf', hid, hc⟩
    · exact ⟨inv', List.mem_cons_of_mem _ hinv', f', hf', hid, hc⟩
  -- The catcher that is used is popped.
  | @unwind inv inv₁ rest f frames hinvs _ _ hunwind =>
    refine Or.inl ?_
    have htop : ∀ f ∈ inv.frames, f.Shaped := hshaped inv (by rw [hinvs]; exact List.mem_cons_self)
    unfold Machine.Catches
    rw [hinvs]
    rcases List.mem_cons.mp hinv' with rfl | hinv'
    · refine ⟨inv, List.mem_cons_self, ?_⟩
      rcases Invocation.unwind_cases htop hunwind with
        ⟨k, below, e, c, cs, hframes, _, hcatch, rfl⟩ | ⟨k, v, _, rfl⟩ | ⟨k, g, rest, v, hframes, rfl⟩
      · rw [hframes]
        rcases List.mem_cons.mp hf' with rfl | hf'
        · exact ⟨k, List.mem_cons_self, hid, hcatch ▸ List.mem_cons_of_mem _ hc⟩
        · exact ⟨f', List.mem_cons_of_mem _ hf', hid, hc⟩
      · exact (List.not_mem_nil hf').elim
      · rw [hframes]
        rcases List.mem_cons.mp hf' with rfl | hf'
        · exact ⟨g, List.mem_cons_of_mem _ List.mem_cons_self, hid, hc⟩
        · exact ⟨f', List.mem_cons_of_mem _ (List.mem_cons_of_mem _ hf'), hid, hc⟩
    · exact ⟨inv', List.mem_cons_of_mem _ hinv', f', hf', hid, hc⟩

/-! ## The delivery -/

theorem step_unwind {m : Machine} {inv inv' : Invocation} {rest : List Invocation} {e : Value}
    (hunwind : inv.unwind = some inv') (hinvs : m.invocations = inv :: rest)
    (herr : inv.err = some e) :
    step m .unwind = some { m with invocations := inv' :: rest } := by
  have hne : inv.frames ≠ [] := fun hnil => by
    unfold Invocation.unwind at hunwind
    rw [hnil] at hunwind
    cases hunwind
  obtain ⟨f, frames, hcons⟩ := List.exists_cons_of_ne_nil hne
  have hrun : ¬inv.Running f := fun h => by
    rw [h.1] at herr
    cases herr
  unfold step
  rw [hinvs]
  dsimp only
  rw [hcons]
  dsimp only
  rw [if_neg hrun, hunwind]
  rfl

/-- While an error is pending nothing but the unwinding goes on, and at its end the return. -/
theorem unwind_of_step {m m' : Machine} {inv : Invocation} {rest : List Invocation} {e : Value}
    (hinvs : m.invocations = inv :: rest) (herr : inv.err = some e) {input : Input}
    (hstep : step m input = some m') :
    input = .unwind ∧ inv.frames ≠ [] ∨ input = .leave ∧ inv.frames = [] := by
  unfold step at hstep
  rw [hinvs] at hstep
  cases hframes : inv.frames with
  -- Without a frame the `runtime` call can only return.
  | nil =>
    cases input with
    | leave => exact Or.inr ⟨rfl, rfl⟩
    | _ =>
      dsimp only at hstep
      rw [hframes] at hstep
      cases hstep
  | cons f frames =>
    -- With one, nothing runs, because the error is pending.
    have hrun : ¬inv.Running f := fun h => by
      rw [h.1] at herr
      cases herr
    cases input with
    | unwind => exact Or.inl ⟨rfl, List.cons_ne_nil _ _⟩
    | leave =>
      dsimp only at hstep
      rw [hframes] at hstep
      cases rest <;> cases hstep
    | _ =>
      dsimp only at hstep
      rw [hframes] at hstep
      dsimp only at hstep
      rw [if_neg hrun] at hstep
      cases hstep

/-- The frames without a catcher above a frame are dropped one by one; what is handed down reaches
register 0 of the frame. -/
theorem run_unwind_dropped {m : Machine} {inv : Invocation} {rest : List Invocation} {e : Value}
    (hinvs : m.invocations = inv :: rest) (herr : inv.err = some e)
    (hshaped : ∀ f ∈ inv.frames, f.Shaped) {dropped under : List Frame} {g : Frame}
    (hframes : inv.frames = dropped ++ g :: under) (hnone : ∀ f ∈ dropped, f.catchErrors = []) :
    ∃ registers, registers.length = g.registers.length ∧ registers.tail = g.registers.tail ∧
      Runs.run step m (List.replicate dropped.length .unwind) = some { m with
        invocations :=
          { inv with frames := { g with registers := registers } :: under } :: rest } := by
  -- By induction on the number of frames to drop: each drop changes register 0 of the next one.
  generalize hn : dropped.length = n
  induction n generalizing m inv dropped with
  | zero =>
    rw [List.length_eq_zero_iff.mp hn, List.nil_append] at hframes
    refine ⟨g.registers, rfl, rfl, ?_⟩
    rw [List.replicate_zero, Runs.run_nil, ← hframes, ← hinvs]
  | succ n ih =>
    obtain ⟨f, dropped', rfl⟩ := List.exists_cons_of_length_eq_add_one hn
    rw [List.cons_append] at hframes
    have hlength : dropped'.length = n := by simpa using hn
    -- The first frame has no catcher and hands its register 0 down.
    have hdrop := Invocation.unwind_drop hframes (Or.inr (hnone f List.mem_cons_self))
    rw [hframes] at hshaped
    obtain ⟨v, hv⟩ := (hshaped f List.mem_cons_self).read_zero
    rw [hv, Option.bind_some] at hdrop
    rw [List.replicate_succ]
    cases dropped' with
    -- It was the last one to drop, and the frame is the next.
    | nil =>
      rw [List.nil_append] at hdrop
      dsimp only at hdrop
      have hg := hshaped g (by simp)
      rw [hg.write_zero, Option.bind_some] at hdrop
      refine ⟨g.registers.set 0 v, List.length_set, by cases g.registers <;> rfl, ?_⟩
      rw [← hlength, Runs.run_cons]
      exact ⟨_, step_unwind hdrop hinvs herr, rfl⟩
    | cons k dropped'' =>
      rw [List.cons_append] at hdrop
      dsimp only at hdrop
      have hk := hshaped k (by simp)
      rw [hk.write_zero, Option.bind_some] at hdrop
      -- The next frame is dropped after it, with the value it was handed.
      have hshaped' : ∀ f ∈ k.receive v :: (dropped'' ++ g :: under), f.Shaped := by
        intro f hf
        rcases List.mem_cons.mp hf with rfl | hf
        · exact ⟨List.length_set.trans hk.registers, hk.owner⟩
        · exact hshaped f (List.mem_cons_of_mem _ (List.mem_cons_of_mem _ hf))
      have hnone' : ∀ f ∈ k.receive v :: dropped'', f.catchErrors = [] := by
        intro f hf
        rcases List.mem_cons.mp hf with rfl | hf
        · exact hnone k (by simp)
        · exact hnone f (by simp [hf])
      obtain ⟨registers, hregisters, htail, hrun⟩ :=
        @ih { m with invocations :=
            { inv with frames := k.receive v :: (dropped'' ++ g :: under) } :: rest }
          { inv with frames := k.receive v :: (dropped'' ++ g :: under) }
          rfl herr hshaped' (k.receive v :: dropped'') rfl hnone' (by simpa using hlength)
      exact ⟨registers, hregisters, htail,
        Runs.run_cons.mpr ⟨_, step_unwind hdrop hinvs herr, hrun⟩⟩

theorem set_zero_of_tail_eq {α : Type*} {xs ys : List α} (hlength : xs.length = ys.length)
    (htail : xs.tail = ys.tail) (v : α) : xs.set 0 v = ys.set 0 v := by
  cases xs with
  | nil => rw [List.eq_nil_of_length_eq_zero hlength.symm]
  | cons x xs =>
    cases ys with
    | nil => cases hlength
    | cons y ys => exact congrArg (v :: ·) htail

/-- The error reaches the last catcher of the nearest frame that has one. -/
theorem run_unwind_caught {m : Machine} {inv : Invocation} {rest : List Invocation} {e : Value}
    (hinvs : m.invocations = inv :: rest) (herr : inv.err = some e)
    (hshaped : ∀ f ∈ inv.frames, f.Shaped) {dropped under : List Frame} {g : Frame}
    {c : ErrorCatch} {cs : List ErrorCatch} (hframes : inv.frames = dropped ++ g :: under)
    (hnone : ∀ f ∈ dropped, f.catchErrors = []) (hcatch : g.catchErrors = c :: cs) :
    Runs.run step m (List.replicate (dropped.length + 1) .unwind) = some { m with
      invocations := { inv with frames := g.resume c cs e :: under, err := none } :: rest } := by
  obtain ⟨registers, hlength, htail, hrun⟩ :=
    run_unwind_dropped hinvs herr hshaped hframes hnone
  have hg : g.Shaped := hshaped g (by rw [hframes]; simp)
  have hg' : ({ g with registers := registers } : Frame).Shaped :=
    ⟨hlength.trans hg.registers, hg.owner⟩
  -- Its catcher overwrites register 0, so what was handed down does not show.
  have hunwind : Invocation.unwind { inv with frames := { g with registers := registers } :: under } =
      some { inv with frames := g.resume c cs e :: under, err := none } := by
    rw [@Invocation.unwind_catch { inv with frames := { g with registers := registers } :: under }
      { g with registers := registers } under e c cs rfl hg' herr hcatch]
    unfold Frame.resume
    rw [set_zero_of_tail_eq hlength htail]
  rw [List.replicate_succ', Runs.run_append]
  exact ⟨_, hrun, Runs.run_cons.mpr ⟨_, step_unwind hunwind rfl herr, rfl⟩⟩

/-- Without a catcher, the error stays and the frames go. -/
theorem run_unwind_uncaught {m : Machine} {inv : Invocation} {rest : List Invocation} {e : Value}
    (hinvs : m.invocations = inv :: rest) (herr : inv.err = some e)
    (hshaped : ∀ f ∈ inv.frames, f.Shaped) (hnone : ∀ f ∈ inv.frames, f.catchErrors = []) :
    ∃ result, Runs.run step m (List.replicate inv.frames.length .unwind) = some { m with
      invocations := { inv with frames := [], result := result } :: rest } := by
  rcases List.eq_nil_or_concat inv.frames with hnil | ⟨dropped, g, hframes⟩
  · refine ⟨inv.result, ?_⟩
    rw [hnil, List.length_nil, List.replicate_zero, Runs.run_nil, ← hnil, ← hinvs]
  · rw [List.concat_eq_append] at hframes
    obtain ⟨registers, hlength, _, hrun⟩ := run_unwind_dropped hinvs herr hshaped hframes
      fun f hf => hnone f (by rw [hframes]; exact List.mem_append_left _ hf)
    have hg : g.Shaped := hshaped g (by rw [hframes]; simp)
    have hg' : ({ g with registers := registers } : Frame).Shaped :=
      ⟨hlength.trans hg.registers, hg.owner⟩
    obtain ⟨result, hresult⟩ := hg'.read_zero
    have hgnone : g.catchErrors = [] := hnone g (by rw [hframes]; simp)
    -- The last frame has nobody to hand its register 0 to.
    have hunwind : Invocation.unwind { inv with frames := [{ g with registers := registers }] } =
        some { inv with frames := [], result := result } := by
      rw [@Invocation.unwind_drop { inv with frames := [{ g with registers := registers }] }
        { g with registers := registers } [] rfl (Or.inr hgnone), hresult]
      rfl
    refine ⟨result, ?_⟩
    rw [hframes, List.length_append, List.length_singleton, List.replicate_succ', Runs.run_append]
    exact ⟨_, hrun, Runs.run_cons.mpr ⟨_, step_unwind hunwind rfl herr, rfl⟩⟩

/-- The frames that an unwinding has dropped are gone for good. -/
theorem Machine.Orderly.gone_of_dropped {m : Machine} {inv : Invocation} {rest : List Invocation}
    (hm : m.Orderly) (hinvs : m.invocations = inv :: rest) {dropped frames : List Frame}
    (hids : inv.frames.map Frame.id = dropped.map Frame.id ++ frames.map Frame.id) (inv' : Invocation)
    (hframes : inv'.frames = frames) {f : Frame} (hf : f ∈ dropped) :
    Machine.Gone { m with invocations := inv' :: rest } f.id := by
  have hnodup := hm.nodup
  have hbelow := hm.below f.id
  unfold Machine.frameIds at hnodup hbelow
  rw [hinvs, List.flatMap_cons, hids, List.append_assoc] at hnodup hbelow
  have hmem : f.id ∈ dropped.map Frame.id := List.mem_map_of_mem hf
  refine ⟨hbelow (List.mem_append_left _ hmem), ?_⟩
  unfold Machine.frameIds
  rw [List.flatMap_cons, hframes]
  exact fun h => List.disjoint_of_nodup_append hnodup hmem h

/-- **Delivery of an exception.** In a state that a run from the start gets to with an error pending:
the nearest frame that has a catcher goes on at the target of its last one, with the scope and the
call instance the catcher recorded, with the error in register 0 and without this catcher, and no
error is pending anywhere; where no frame of the `runtime` call has one, its frames are dropped and
the error stays. The frames that are dropped never come back. Nothing else can happen before, and
every catcher recorded the scope and the call instance that were in force in its frame when it was
pushed. -/
theorem exception_delivery {modules : List Module} {globals : List (UInt64 × Value)}
    {inputs : List Input} {m : Machine}
    (hrun : Runs.run step (Machine.start modules globals) inputs = some m) {inv : Invocation}
    {rest : List Invocation} {e : Value} (hinvs : m.invocations = inv :: rest)
    (herr : inv.err = some e) :
    (∀ dropped g under c cs, inv.frames = dropped ++ g :: under →
      (∀ f ∈ dropped, f.catchErrors = []) → g.catchErrors = c :: cs →
      ∃ m' g', Runs.run step m (List.replicate (dropped.length + 1) .unwind) = some m' ∧
        m' = { m with
          invocations := { inv with frames := g' :: under, err := none } :: rest } ∧
        g' = { g with
          registers := g.registers.set 0 e
          ip := c.jumpTo
          stack := c.stack
          callInstance := c.callInstance
          catchErrors := cs } ∧
        g'.read 0 = some e ∧ (∀ i ∈ m'.invocations, i.err = none) ∧
        ∀ inputs' m'', Runs.run step m' inputs' = some m'' → ∀ f ∈ dropped, f.id ∉ m''.frameIds) ∧
    ((∀ f ∈ inv.frames, f.catchErrors = []) →
      ∃ m' result, Runs.run step m (List.replicate inv.frames.length .unwind) = some m' ∧
        m' = { m with
          invocations := { inv with frames := [], err := some e, result := result } :: rest } ∧
        ∀ inputs' m'', Runs.run step m' inputs' = some m'' →
          ∀ f ∈ inv.frames, f.id ∉ m''.frameIds) ∧
    (∀ input m', step m input = some m' →
      input = .unwind ∧ inv.frames ≠ [] ∨ input = .leave ∧ inv.frames = []) ∧
    (∀ g ∈ inv.frames, ∀ c ∈ g.catchErrors, ∃ before i after t,
      inputs = before ++ i :: after ∧ Runs.run step (Machine.start modules globals) before = some t ∧
      t.Pushes (g.id, c)) := by
  have hreach : m.Reachable modules := Runs.Reachable.run (Runs.Reachable.init ⟨globals, rfl⟩) hrun
  have horderly := hreach.orderly
  have hshaped : ∀ f ∈ inv.frames, f.Shaped :=
    horderly.shaped inv (by rw [hinvs]; exact List.mem_cons_self)
  have hquiescent := horderly.quiescent
  rw [hinvs] at hquiescent
  refine ⟨?_, ?_, fun input m' h => unwind_of_step hinvs herr h, ?_⟩
  · -- A frame has a catcher.
    intro dropped g under c cs hframes hnone hcatch
    have hunwind := run_unwind_caught hinvs herr hshaped hframes hnone hcatch
    have hg : g.Shaped := hshaped g (by rw [hframes]; simp)
    refine ⟨_, g.resume c cs e, hunwind, rfl, rfl, ?_, ?_, ?_⟩
    · exact List.getElem?_set_self hg.registers_pos
    · intro i hi
      rcases List.mem_cons.mp hi with rfl | hi
      · rfl
      · exact hquiescent i hi
    · intro inputs' m'' hrun' f hf
      have hids : inv.frames.map Frame.id =
          dropped.map Frame.id ++ (g.resume c cs e :: under).map Frame.id := by
        rw [hframes, List.map_append]
        rfl
      have hgone := horderly.gone_of_dropped hinvs hids
        { inv with frames := g.resume c cs e :: under, err := none } rfl hf
      exact (hgone.run (hreach.run hunwind) hrun').2
  · -- No frame has one.
    intro hnone
    obtain ⟨result, hunwind⟩ := run_unwind_uncaught hinvs herr hshaped hnone
    refine ⟨_, result, hunwind, by rw [← herr], ?_⟩
    intro inputs' m'' hrun' f hf
    have hids : inv.frames.map Frame.id =
        inv.frames.map Frame.id ++ ([] : List Frame).map Frame.id := (List.append_nil _).symm
    have hgone := horderly.gone_of_dropped hinvs hids
      { inv with frames := [], result := result } rfl hf
    exact (hgone.run (hreach.run hunwind) hrun').2
  · intro g hg c hc
    have hthere : m.Catches (g.id, c) := ⟨inv, by rw [hinvs]; exact List.mem_cons_self, g, hg, rfl, hc⟩
    -- A catcher that is there was pushed by a step of the run.
    have horigin := Runs.run_origin (Machine.Reachable modules) Machine.Catches
      (fun t _ => t.Pushes)
      (fun s i s' hs hstep => hs.step hstep)
      (fun s i s' hs hstep x hx => (transition_of_step hstep).catches hs.shaped hx)
      (Runs.Reachable.init ⟨globals, rfl⟩) hrun (g.id, c) hthere
    rcases horigin with ⟨_, hmem, _⟩ | hpush
    · exact (List.not_mem_nil hmem).elim
    · exact hpush

/-- A module that pushes a catcher for its end and throws. -/
def throwing : Module where
  registerCount := 1
  registerCount_pos := Nat.one_pos
  bytecode := (Instr.exceptionCatcherPush 10).encode ++ (Instr.op .throw).encode
  constants := []

/-- The answer of objects that are not asked. -/
def noAnswer : Answer := ⟨.null, none, .null, none, [], []⟩

/-- The frame that has thrown, with its catcher. -/
def thrownFrame : Frame where
  id := 0
  module := throwing
  bytecode := throwing.bytecode
  registers := [.null]
  ip := 10
  callInstance := []
  catchErrors := [⟨10, [1, 0], 0, []⟩]
  loadNumberCache := 0
  cDepth := 0
  stack := [1, 0]
  sourceLocation := ⟨0, 0, 0⟩

theorem exception_delivery_throwing : ∃ m m', Runs.run step (Machine.start [throwing] [])
      [.runModule 0, .exec noAnswer, .exec noAnswer] = some m ∧
    Runs.run step m [.unwind] = some m' ∧
    m'.invocations = [⟨[{ thrownFrame with catchErrors := [] }], none, [1, 0], .null, false⟩] := by
  have hrun : Runs.run step (Machine.start [throwing] [])
      [.runModule 0, .exec noAnswer, .exec noAnswer] = some
        { modules := [throwing]
          heap := { scopes := [[], []], calls := [], functions := [], caches := [[]], frames := 1 }
          invocations := [⟨[thrownFrame], some .null, [1, 0], .null, false⟩] } := by
    decide
  obtain ⟨m', g', hunwind, rfl, rfl, _⟩ := (exception_delivery hrun rfl rfl).1 [] thrownFrame []
    ⟨10, [1, 0], 0, []⟩ [] rfl (fun f hf => (List.not_mem_nil hf).elim) rfl
  exact ⟨_, _, hrun, hunwind, rfl⟩

end Chloride
