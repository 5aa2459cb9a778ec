import Chloride.Runtime.Machine

/-!
# Invariants of frames

What holds of a frame when it is made, and is kept by the handlers, by the passing of a result and by
the delivery of an error, holds of every frame of every reachable machine. `FrameInvariant` lists
these obligations once, in terms of `Control`, and `FrameInvariant.reachable` is the induction over
the steps. The heap only grows, so a fact about the things a frame points to is kept by what the
other frames do (`FrameInvariant.grow`).

The first use is the shape of a frame: its register array has the length its module asks for, and
every catcher of a frame names that frame, which makes an error go where its catcher was pushed.
-/

namespace Chloride

/-! ## Growth of the heap -/

/-- Nothing in the heap goes away, and a call instance keeps its site. -/
structure Heap.Grows (h h' : Heap) : Prop where
  frames : h.frames ≤ h'.frames
  scopes : h.scopes.length ≤ h'.scopes.length
  sites : h.sites <+: h'.sites
  caches : h.caches.length ≤ h'.caches.length

theorem Heap.Grows.refl (h : Heap) : h.Grows h := ⟨le_rfl, le_rfl, List.prefix_rfl, le_rfl⟩

theorem Control.grows {site : ℕ} {h h' : Heap} {f f' : Frame} {i : Instr}
    (hc : Control site h h' f f' i) : h.Grows h' := by
  refine ⟨hc.frames.ge, ?_, ?_, ?_⟩
  · rw [hc.scopes]
    unfold Instr.scopesAfter
    split <;> omega
  · rw [hc.sites]
    unfold Instr.sitesAfter
    split
    · exact List.prefix_append _ _
    · exact List.prefix_rfl
  · rw [hc.caches, Instr.length_cachesAfter]

theorem Heap.grows_enter (h : Heap) (arguments : List (UInt64 × Value)) :
    h.Grows (h.enter arguments) :=
  ⟨Nat.le_succ _, by simp [Heap.enter], List.prefix_rfl, le_rfl⟩

theorem Heap.grows_enterModule (h : Heap) : h.Grows h.enterModule :=
  ⟨Nat.le_succ _, by simp [Heap.enterModule], List.prefix_rfl, by simp [Heap.enterModule]⟩

/-! ## The shape of a frame -/

/-- The register array is as long as the module asks for, and the catchers are the frame's own. -/
structure Frame.Shaped (f : Frame) : Prop where
  registers : f.registers.length = f.module.registerCount
  owner : ∀ c ∈ f.catchErrors, c.stackFrame = f.id

theorem Frame.Shaped.registers_pos {f : Frame} (h : f.Shaped) : 0 < f.registers.length := by
  rw [h.registers]
  exact f.module.registerCount_pos

/-- A catcher that is there after an instruction was there before or names the frame. -/
theorem Instr.owner_catchersAfter {f : Frame} {i : Instr}
    (h : ∀ c ∈ f.catchErrors, c.stackFrame = f.id) :
    ∀ c ∈ i.catchersAfter f, c.stackFrame = f.id := by
  intro c hc
  cases i with
  | exceptionCatcherPush target =>
    rcases List.mem_cons.mp hc with rfl | hc
    · rfl
    · exact h c hc
  | op o =>
    cases o with
    | exceptionCatcherPop => exact h c (List.mem_of_mem_tail hc)
    | _ => exact h c hc
  | _ => exact h c hc

/-! ## The ways an unwinding goes -/

/-- The frame after its catcher took an error. -/
def Frame.resume (f : Frame) (c : ErrorCatch) (cs : List ErrorCatch) (e : Value) : Frame :=
  { f with
    registers := f.registers.set 0 e
    ip := c.jumpTo
    stack := c.stack
    callInstance := c.callInstance
    catchErrors := cs }

/-- The frame with a result in register 0. -/
def Frame.receive (f : Frame) (v : Value) : Frame :=
  { f with registers := f.registers.set 0 v }

theorem Frame.receive_sameControl (f : Frame) (v : Value) : f.SameControl (f.receive v) :=
  ⟨_, List.length_set, rfl⟩

theorem Frame.Shaped.read_zero {f : Frame} (h : f.Shaped) : ∃ v, f.read 0 = some v :=
  ⟨_, List.getElem?_eq_getElem h.registers_pos⟩

theorem Frame.Shaped.write_zero {f : Frame} (h : f.Shaped) (v : Value) :
    f.write 0 v = some (f.receive v) := by
  unfold Frame.write
  rw [if_pos (show (0 : UInt8).toNat < f.registers.length from h.registers_pos)]
  rfl

/-- The last catcher of the running frame takes the error. -/
theorem Invocation.unwind_catch {inv : Invocation} {f : Frame} {below : List Frame} {e : Value}
    {c : ErrorCatch} {cs : List ErrorCatch} (hframes : inv.frames = f :: below)
    (hshaped : f.Shaped) (herr : inv.err = some e) (hcatch : f.catchErrors = c :: cs) :
    inv.unwind = some { inv with frames := f.resume c cs e :: below, err := none } := by
  unfold Invocation.unwind
  rw [hframes, herr]
  dsimp only
  rw [hcatch]
  dsimp only
  -- The frame that the catcher names is the running one.
  have howner := hshaped.owner c (by rw [hcatch]; exact List.mem_cons_self)
  rw [List.dropWhile_cons_of_neg (by simpa using howner.symm)]
  unfold Frame.write
  dsimp only
  rw [if_pos (show (0 : UInt8).toNat < f.registers.length from hshaped.registers_pos)]
  rfl

/-- Without a catcher for an error, the running frame is dropped, and its result handed down. -/
theorem Invocation.unwind_drop {inv : Invocation} {f : Frame} {below : List Frame}
    (hframes : inv.frames = f :: below) (hdrop : inv.err = none ∨ f.catchErrors = []) :
    inv.unwind = (f.read 0).bind fun result =>
      match below with
      | [] => some { inv with frames := [], result := result }
      | g :: rest => (g.write 0 result).bind fun g => some { inv with frames := g :: rest } := by
  unfold Invocation.unwind
  rw [hframes]
  dsimp only
  rcases hdrop with herr | hcatch
  · rw [herr]
    cases below <;> rfl
  · cases inv.err <;> rw [hcatch] <;> cases below <;> rfl

/-- The ways an unwinding goes: a catcher takes the error, the last frame is dropped, or a frame is
dropped that has one below it. -/
theorem Invocation.unwind_cases {inv inv' : Invocation} (hshaped : ∀ f ∈ inv.frames, f.Shaped)
    (h : inv.unwind = some inv') :
    (∃ f below e c cs, inv.frames = f :: below ∧ inv.err = some e ∧ f.catchErrors = c :: cs ∧
      inv' = { inv with frames := f.resume c cs e :: below, err := none }) ∨
    (∃ f v, inv.frames = [f] ∧ inv' = { inv with frames := [], result := v }) ∨
    (∃ f g rest v, inv.frames = f :: g :: rest ∧
      inv' = { inv with frames := g.receive v :: rest }) := by
  cases hframes : inv.frames with
  | nil =>
    unfold Invocation.unwind at h
    rw [hframes] at h
    cases h
  | cons f below =>
    rw [hframes] at hshaped
    by_cases hdrop : inv.err = none ∨ f.catchErrors = []
    · rw [Invocation.unwind_drop hframes hdrop, Option.bind_eq_some_iff] at h
      obtain ⟨v, _, h⟩ := h
      cases below with
      | nil => exact Or.inr (Or.inl ⟨f, v, rfl, (Option.some.inj h).symm⟩)
      | cons g rest =>
        have hg := hshaped g (List.mem_cons_of_mem _ List.mem_cons_self)
        dsimp only at h
        rw [hg.write_zero] at h
        exact Or.inr (Or.inr ⟨f, g, rest, v, rfl, (Option.some.inj h).symm⟩)
    · rw [not_or] at hdrop
      obtain ⟨e, herr⟩ := Option.ne_none_iff_exists'.mp hdrop.1
      obtain ⟨c, cs, hcatch⟩ := List.exists_cons_of_ne_nil hdrop.2
      rw [Invocation.unwind_catch hframes (hshaped f List.mem_cons_self) herr hcatch] at h
      exact Or.inl ⟨f, below, e, c, cs, rfl, herr, hcatch, (Option.some.inj h).symm⟩

/-! ## The induction -/

/-- The obligations of an invariant `P` of frames and `Q` of functions. -/
structure FrameInvariant (modules : List Module) (P : Heap → Frame → Prop)
    (Q : FunctionObject → Prop) : Prop where
  shaped : ∀ {h f}, P h f → f.Shaped
  grow : ∀ {h h' f}, h.Grows h' → P h f → P h' f
  write : ∀ {h f f'}, f.SameControl f' → P h f → P h f'
  module : ∀ {h module}, module ∈ modules → P h.enterModule (module.frame h)
  function : ∀ {h f fn arguments cDepth}, P h f → Q fn →
    P (h.enter arguments) (fn.frame h f.loadNumberCache cDepth)
  exec : ∀ {h h' f f₁ f' i}, P h f → f.fetch = some (i, f₁) → Control f.ip h h' f₁ f' i → P h' f'
  catches : ∀ {h f c cs}, P h f → f.catchErrors = c :: cs →
    P h { f with catchErrors := cs, stack := c.stack, callInstance := c.callInstance, ip := c.jumpTo }
  made : ∀ {h f f₁ i fn}, P h f → f.fetch = some (i, f₁) →
    fn ∈ i.functionsAfter f₁ h.functions → fn ∈ h.functions ∨ Q fn

/-- A machine all of whose frames and functions have the properties. -/
structure Machine.All (modules : List Module) (P : Heap → Frame → Prop) (Q : FunctionObject → Prop)
    (m : Machine) : Prop where
  modules : m.modules = modules
  frames : ∀ inv ∈ m.invocations, ∀ f ∈ inv.frames, P m.heap f
  functions : ∀ fn ∈ m.heap.functions, Q fn

/-- The instruction that calls an Argon function is executed in the frame of the caller. -/
theorem Control.of_call (h : Heap) (f : Frame) (site : ℕ) {id : ℕ} {previous : List ℕ}
    (hcalls : f.callInstance = id :: previous) :
    Control site h h f { f with callInstance := previous } (.op .call) := by
  refine ⟨rfl, rfl, rfl, rfl, rfl, rfl, rfl, ?_, rfl, Or.inl rfl, rfl, rfl, rfl, rfl, rfl⟩
  show previous = f.callInstance.tail
  rw [hcalls]
  rfl

theorem Frame.fetch_eq {f f₁ : Frame} {i : Instr} (h : f.fetch = some (i, f₁)) :
    ∃ ip, f₁ = { f with ip := ip } := by
  unfold Frame.fetch at h
  simp only [Option.map_eq_some_iff, Prod.mk.injEq] at h
  obtain ⟨⟨j, rest⟩, _, _, rfl⟩ := h
  exact ⟨_, rfl⟩

namespace FrameInvariant

variable {modules : List Module} {P : Heap → Frame → Prop} {Q : FunctionObject → Prop}

/-- What one unwinding keeps. -/
theorem unwind (H : FrameInvariant modules P Q) {h : Heap} {inv inv' : Invocation}
    (hall : ∀ f ∈ inv.frames, P h f) (hunwind : inv.unwind = some inv') :
    ∀ f ∈ inv'.frames, P h f := by
  rcases Invocation.unwind_cases (fun f hf => H.shaped (hall f hf)) hunwind with
    ⟨f, below, e, c, cs, hframes, _, hcatch, rfl⟩ | ⟨f, v, _, rfl⟩ | ⟨f, g, rest, v, hframes, rfl⟩
  · rw [hframes] at hall
    intro k hk
    rcases List.mem_cons.mp hk with rfl | hk
    · refine H.write ?_ (H.catches (hall f List.mem_cons_self) hcatch)
      exact ⟨_, List.length_set, rfl⟩
    · exact hall k (List.mem_cons_of_mem _ hk)
  · exact fun k hk => (List.not_mem_nil hk).elim
  · rw [hframes] at hall
    intro k hk
    rcases List.mem_cons.mp hk with rfl | hk
    · exact H.write (g.receive_sameControl v) (hall g (List.mem_cons_of_mem _ List.mem_cons_self))
    · exact hall k (List.mem_cons_of_mem _ (List.mem_cons_of_mem _ hk))

/-- What one step keeps. -/
theorem transition (H : FrameInvariant modules P Q) {m m' : Machine} {input : Input}
    (hm : m.All modules P Q)
    (ht : Transition m input m') : m'.All modules P Q := by
  obtain ⟨hmodules, hall, hfunctions⟩ := hm
  cases ht with
  -- The frame of the module is new.
  | runModule hmodule _ =>
    refine ⟨hmodules, fun inv hinv => ?_, hfunctions⟩
    rcases List.mem_cons.mp hinv with rfl | hinv
    · intro f hf
      rw [List.mem_singleton.mp hf]
      exact H.module (hmodules ▸ hmodule)
    · exact fun f hf => H.grow m.heap.grows_enterModule (hall inv hinv f hf)
  -- The frame that waits for an answer gets it in a register.
  | @leave inv rest rest' hinvs hempty hleave =>
    rw [hinvs] at hall
    generalize inv.returns = returns at hleave
    refine ⟨hmodules, fun inv' hinv => ?_, hfunctions⟩
    cases hleave with
    | empty => cases hinv
    | keep => exact hall _ (List.mem_cons_of_mem _ hinv)
    | answer hframes hwrite =>
      rcases List.mem_cons.mp hinv with rfl | hinv
      · have hcaller := hall _ (List.mem_cons_of_mem _ List.mem_cons_self)
        rw [hframes] at hcaller
        intro f hf
        rcases List.mem_cons.mp hf with rfl | hf
        · exact H.write (Frame.write_sameControl hwrite) (hcaller _ List.mem_cons_self)
        · exact hcaller f (List.mem_cons_of_mem _ hf)
      · exact hall _ (List.mem_cons_of_mem _ (List.mem_cons_of_mem _ hinv))
  -- The running frame changes as its instruction says; the heap grows for the others.
  | exec hinvs hframes _ hfetch hexec =>
    have hcontrol := execInstr_control hexec
    rw [hinvs] at hall
    have htop := hall _ List.mem_cons_self
    rw [hframes] at htop
    have hf := htop _ List.mem_cons_self
    refine ⟨hmodules, fun inv hinv => ?_, fun fn hfn => ?_⟩
    · rcases List.mem_cons.mp hinv with rfl | hinv
      · intro k hk
        rcases List.mem_cons.mp hk with rfl | hk
        · exact H.exec hf hfetch hcontrol
        · exact H.grow hcontrol.grows (htop k (List.mem_cons_of_mem _ hk))
      · exact fun k hk => H.grow hcontrol.grows (hall inv (List.mem_cons_of_mem _ hinv) k hk)
    · have hmade : fn ∈ Instr.functionsAfter _ _ _ := hcontrol.functions ▸ hfn
      exact (H.made hf hfetch hmade).elim (hfunctions fn) id
  -- The frame of the function is new, and its caller has executed `OP_CALL`.
  | @call inv rest f f₁ frames fn n arguments id previous hinvs hframes _ hfetch hfn hcalls =>
    rw [hinvs] at hall
    have htop := hall _ List.mem_cons_self
    rw [hframes] at htop
    have hgrows := m.heap.grows_enter arguments
    refine ⟨hmodules, fun inv' hinv => ?_, hfunctions⟩
    rcases List.mem_cons.mp hinv with rfl | hinv
    · intro k hk
      rcases List.mem_cons.mp hk with rfl | hk
      · exact H.function (htop f List.mem_cons_self) (hfunctions _ hfn)
      rcases List.mem_cons.mp hk with rfl | hk
      · obtain ⟨ip, hip⟩ := Frame.fetch_eq hfetch
        have hcalls₁ : f₁.callInstance = id :: previous := by rw [hip]; exact hcalls
        exact H.grow hgrows (H.exec (htop f List.mem_cons_self) hfetch
          (Control.of_call m.heap f₁ f.ip hcalls₁))
      · exact H.grow hgrows (htop k (List.mem_cons_of_mem _ hk))
    · exact fun k hk => H.grow hgrows (hall inv' (List.mem_cons_of_mem _ hinv) k hk)
  -- The frame of the function is new and its caller waits.
  | @argonCall inv rest f frames fn n arguments hinvs hframes _ hfn _ =>
    have hf : P m.heap f := hall inv (by rw [hinvs]; exact List.mem_cons_self) f
      (by rw [hframes]; exact List.mem_cons_self)
    refine ⟨hmodules, fun inv' hinv => ?_, hfunctions⟩
    rcases List.mem_cons.mp hinv with rfl | hinv
    · intro k hk
      rw [List.mem_singleton.mp hk]
      exact H.function hf (hfunctions _ hfn)
    · exact fun k hk => H.grow (m.heap.grows_enter arguments) (hall inv' (hinvs ▸ hinv) k hk)
  | @interrupt inv rest f frames instance_ hinvs hframes _ =>
    rw [hinvs] at hall
    refine ⟨hmodules, fun inv' hinv => ?_, hfunctions⟩
    rcases List.mem_cons.mp hinv with rfl | hinv
    · exact hall inv List.mem_cons_self
    · exact hall inv' (List.mem_cons_of_mem _ hinv)
  | unwind hinvs hframes _ hunwind =>
    rw [hinvs] at hall
    refine ⟨hmodules, fun inv hinv => ?_, hfunctions⟩
    rcases List.mem_cons.mp hinv with rfl | hinv
    · exact H.unwind (hall _ List.mem_cons_self) hunwind
    · exact hall inv (List.mem_cons_of_mem _ hinv)

/-- An invariant of frames holds in every reachable machine. -/
theorem reachable (H : FrameInvariant modules P Q) {m : Machine} (hm : m.Reachable modules) :
    m.All modules P Q := by
  refine Runs.Reachable.invariant ?_ ?_ hm
  · rintro _ ⟨globals, rfl⟩
    exact ⟨rfl, fun inv hinv => (List.not_mem_nil hinv).elim,
      fun fn hfn => (List.not_mem_nil hfn).elim⟩
  · exact fun s i s' hs hstep => H.transition hs (transition_of_step hstep)

/-- An invariant that relies on one that is known. -/
theorem strengthen (H : FrameInvariant modules P Q) {P' : Heap → Frame → Prop}
    {Q' : FunctionObject → Prop}
    (grow : ∀ {h h' f}, h.Grows h' → P h f → P' h f → P' h' f)
    (write : ∀ {h f f'}, f.SameControl f' → P h f → P' h f → P' h f')
    (module : ∀ {h module}, module ∈ modules → P' h.enterModule (module.frame h))
    (function : ∀ {h f fn arguments cDepth}, P h f → P' h f → Q fn → Q' fn →
      P' (h.enter arguments) (fn.frame h f.loadNumberCache cDepth))
    (exec : ∀ {h h' f f₁ f' i}, P h f → P' h f → f.fetch = some (i, f₁) →
      Control f.ip h h' f₁ f' i → P' h' f')
    (catches : ∀ {h f c cs}, P h f → P' h f → f.catchErrors = c :: cs → P' h { f with
      catchErrors := cs, stack := c.stack, callInstance := c.callInstance, ip := c.jumpTo })
    (made : ∀ {h f f₁ i fn}, P h f → P' h f → f.fetch = some (i, f₁) →
      fn ∈ i.functionsAfter f₁ h.functions → fn ∈ h.functions ∨ Q' fn) :
    FrameInvariant modules (fun h f => P h f ∧ P' h f)
      (fun fn => Q fn ∧ Q' fn) where
  shaped hf := H.shaped hf.1
  grow hgrows hf := ⟨H.grow hgrows hf.1, grow hgrows hf.1 hf.2⟩
  write hsame hf := ⟨H.write hsame hf.1, write hsame hf.1 hf.2⟩
  module hmodule := ⟨H.module hmodule, module hmodule⟩
  function hf hfn := ⟨H.function hf.1 hfn.1, function hf.1 hf.2 hfn.1 hfn.2⟩
  exec hf hfetch hc := ⟨H.exec hf.1 hfetch hc, exec hf.1 hf.2 hfetch hc⟩
  catches hf hcatch := ⟨H.catches hf.1 hcatch, catches hf.1 hf.2 hcatch⟩
  made hf hfetch hfn := by
    rcases H.made hf.1 hfetch hfn with hmem | hq
    · exact Or.inl hmem
    · rcases made hf.1 hf.2 hfetch hfn with hmem | hq'
      · exact Or.inl hmem
      · exact Or.inr ⟨hq, hq'⟩

end FrameInvariant

/-! ## The invariant of shapes -/

theorem Frame.shaped_invariant (modules : List Module) :
    FrameInvariant modules (fun _ => Frame.Shaped) (fun _ => True) where
  shaped hf := hf
  grow _ hf := hf
  write hsame hf := by
    obtain ⟨registers, hlength, rfl⟩ := hsame
    exact ⟨hlength.trans hf.registers, hf.owner⟩
  module _ := ⟨List.length_replicate, by simp [Module.frame]⟩
  function _ _ := ⟨List.length_replicate, by simp [FunctionObject.frame]⟩
  exec hf hfetch hc := by
    obtain ⟨ip, rfl⟩ := Frame.fetch_eq hfetch
    refine ⟨?_, ?_⟩
    · rw [hc.registers, hc.module]
      exact hf.registers
    · rw [hc.catchers, hc.id]
      exact Instr.owner_catchersAfter hf.owner
  catches hf hcatch := ⟨hf.registers, fun c hc => hf.owner c (hcatch ▸ List.mem_cons_of_mem _ hc)⟩
  made _ _ _ := Or.inr trivial

end Chloride
