import Chloride.Runtime.Unwinding

/-!
# The scopes that a machine names

Every scope that a frame, a catcher or a function names is in the heap: the pointers to scopes are
good in every reachable state. Scopes are only added, so what names them stays good by
`Heap.Grows`, and the only new names are those of the scopes that a step adds.
-/

namespace Chloride

/-- The scopes of a chain are in the heap. -/
def Heap.HasScopes (h : Heap) (stack : List ℕ) : Prop := ∀ id ∈ stack, id < h.scopes.length

theorem Heap.HasScopes.mono {h h' : Heap} {stack : List ℕ} (hstack : h.HasScopes stack)
    (hgrows : h.Grows h') : h'.HasScopes stack :=
  fun id hid => (hstack id hid).trans_le hgrows.scopes

theorem Heap.HasScopes.tail {h : Heap} {stack : List ℕ} (hstack : h.HasScopes stack) :
    h.HasScopes stack.tail := fun id hid => hstack id (List.mem_of_mem_tail hid)

/-- A chain with a scope that has just been added. -/
theorem Heap.HasScopes.cons {h h' : Heap} {stack : List ℕ} (hstack : h.HasScopes stack)
    (hscopes : h'.scopes.length = h.scopes.length + 1) :
    h'.HasScopes (h.scopes.length :: stack) := by
  intro id hid
  rcases List.mem_cons.mp hid with rfl | hid
  · omega
  · have hlt := hstack id hid
    omega

/-- The chains of a frame: its own, and those its catchers go back to. -/
structure Frame.Placed (h : Heap) (f : Frame) : Prop where
  stack : h.HasScopes f.stack
  catchers : ∀ c ∈ f.catchErrors, h.HasScopes c.stack

/-- All chains of a machine, and the global scope. -/
structure Machine.Placed (m : Machine) : Prop where
  frames : ∀ inv ∈ m.invocations, ∀ f ∈ inv.frames, f.Placed m.heap
  functions : ∀ fn ∈ m.heap.functions, m.heap.HasScopes fn.stack
  globals : 0 < m.heap.scopes.length

theorem Frame.Placed.mono {h h' : Heap} {f : Frame} (hf : f.Placed h) (hgrows : h.Grows h') :
    f.Placed h' := ⟨hf.stack.mono hgrows, fun c hc => (hf.catchers c hc).mono hgrows⟩

theorem Frame.Placed.sameControl {h : Heap} {f f' : Frame} (hf : f.Placed h)
    (hsame : f.SameControl f') : f'.Placed h := by
  obtain ⟨registers, _, rfl⟩ := hsame
  exact ⟨hf.stack, hf.catchers⟩

/-- A frame stays good under the instruction that it executes. -/
theorem Frame.Placed.control {site : ℕ} {h h' : Heap} {f f' : Frame} {i : Instr} (hf : f.Placed h)
    (hc : Control site h h' f f' i) : f'.Placed h' := by
  constructor
  · rw [hc.stack]
    have hscopes := hc.scopes
    unfold Instr.stackAfter
    unfold Instr.scopesAfter at hscopes
    split
    -- A block begins, and a block ends.
    · exact hf.stack.cons hscopes
    · exact hf.stack.tail.mono hc.grows
    · exact hf.stack.mono hc.grows
  · intro c hmem
    rw [hc.catchers] at hmem
    rcases Instr.mem_catchersAfter hmem with hmem | ⟨target, _, hnew⟩
    · exact (hf.catchers c hmem).mono hc.grows
    · rw [hnew]
      exact hf.stack.mono hc.grows

/-- A function that an instruction makes has the chain of the frame. -/
theorem Instr.hasScopes_functionsAfter {h : Heap} {f : Frame} {i : Instr} (hf : h.HasScopes f.stack)
    (hfunctions : ∀ fn ∈ h.functions, h.HasScopes fn.stack) :
    ∀ fn ∈ i.functionsAfter f h.functions, h.HasScopes fn.stack := by
  intro fn hfn
  unfold Instr.functionsAfter at hfn
  split at hfn
  · split at hfn
    · rcases List.mem_append.mp hfn with hfn | hfn
      · exact hfunctions fn hfn
      · rw [List.mem_singleton.mp hfn]
        exact hf
    · exact hfunctions fn hfn
  · exact hfunctions fn hfn

/-- What the frames of a `runtime` call are after an unwinding. -/
theorem Invocation.placed_unwind {h : Heap} {inv inv' : Invocation}
    (hshaped : ∀ f ∈ inv.frames, f.Shaped) (hplaced : ∀ f ∈ inv.frames, f.Placed h)
    (hunwind : inv.unwind = some inv') : ∀ f ∈ inv'.frames, f.Placed h := by
  rcases Invocation.unwind_cases hshaped hunwind with
    ⟨f, below, e, c, cs, hframes, _, hcatch, rfl⟩ | ⟨f, v, _, rfl⟩ | ⟨f, g, rest, v, hframes, rfl⟩
  · rw [hframes] at hplaced
    have hf := hplaced f List.mem_cons_self
    intro g hg
    rcases List.mem_cons.mp hg with rfl | hg
    · exact ⟨hf.catchers c (by rw [hcatch]; exact List.mem_cons_self),
        fun d hd => hf.catchers d (by rw [hcatch]; exact List.mem_cons_of_mem _ hd)⟩
    · exact hplaced g (List.mem_cons_of_mem _ hg)
  · exact fun g hg => (List.not_mem_nil hg).elim
  · rw [hframes] at hplaced
    intro k hk
    rcases List.mem_cons.mp hk with rfl | hk
    · exact (hplaced g (List.mem_cons_of_mem _ List.mem_cons_self)).sameControl
        (g.receive_sameControl v)
    · exact hplaced k (List.mem_cons_of_mem _ (List.mem_cons_of_mem _ hk))

theorem Machine.Placed.step {m m' : Machine} {input : Input} (hm : m.Placed) (hshaped : m.Shaped)
    (ht : Transition m input m') : m'.Placed := by
  obtain ⟨hframes₀, hfunctions, hglobals⟩ := hm
  cases ht with
  | @runModule n module hmodule _ =>
    have hgrows := m.heap.grows_enterModule
    have hlength : m.heap.enterModule.scopes.length = m.heap.scopes.length + 1 :=
      List.length_append
    have hfresh : m.heap.HasScopes [0] := by simpa [Heap.HasScopes] using hglobals
    refine ⟨?_, fun fn hfn => (hfunctions fn hfn).mono hgrows, hglobals.trans_le hgrows.scopes⟩
    intro inv hinv f hf
    rcases List.mem_cons.mp hinv with rfl | hinv
    · rw [List.mem_singleton.mp hf]
      exact ⟨hfresh.cons hlength, fun c hc => (List.not_mem_nil hc).elim⟩
    · exact (hframes₀ inv hinv f hf).mono hgrows
  | @leave inv rest rest' hinvs hempty hleave =>
    refine ⟨?_, hfunctions, hglobals⟩
    rw [hinvs] at hframes₀
    have hrest : ∀ inv ∈ rest, ∀ f ∈ inv.frames, f.Placed m.heap :=
      fun inv hinv => hframes₀ inv (List.mem_cons_of_mem _ hinv)
    generalize inv.returns = returns at hleave
    cases hleave with
    | empty => exact fun inv hinv => (List.not_mem_nil hinv).elim
    | keep => exact hrest
    | @answer caller rest f g frames hframes hwrite =>
      have hcaller := hrest caller List.mem_cons_self
      rw [hframes] at hcaller
      intro inv hinv k hk
      rcases List.mem_cons.mp hinv with rfl | hinv
      · rcases List.mem_cons.mp hk with rfl | hk
        · exact (hcaller f List.mem_cons_self).sameControl (Frame.write_sameControl hwrite)
        · exact hcaller k (List.mem_cons_of_mem _ hk)
      · exact hrest inv (List.mem_cons_of_mem _ hinv) k hk
  | @exec inv rest f f₁ f' frames a i heap err hinvs hframes _ hfetch hexec =>
    have hcontrol := execInstr_control hexec
    have hgrows := hcontrol.grows
    rw [hinvs] at hframes₀
    have htop := hframes₀ inv List.mem_cons_self
    rw [hframes] at htop
    obtain ⟨ip, rfl⟩ := Frame.fetch_eq hfetch
    have hf := htop f List.mem_cons_self
    have hf₁ : Frame.Placed m.heap { f with ip := ip } := ⟨hf.stack, hf.catchers⟩
    refine ⟨?_, ?_, hglobals.trans_le hgrows.scopes⟩
    · intro inv' hinv g hg
      rcases List.mem_cons.mp hinv with rfl | hinv
      · rcases List.mem_cons.mp hg with rfl | hg
        · exact hf₁.control hcontrol
        · exact (htop g (List.mem_cons_of_mem _ hg)).mono hgrows
      · exact (hframes₀ inv' (List.mem_cons_of_mem _ hinv) g hg).mono hgrows
    · intro fn hfn
      rw [hcontrol.functions] at hfn
      exact (Instr.hasScopes_functionsAfter hf₁.stack hfunctions fn hfn).mono hgrows
  | @call inv rest f f₁ frames fn n arguments id previous hinvs hframes _ hfetch hfn _ =>
    have hgrows := m.heap.grows_enter arguments
    have hlength : (m.heap.enter arguments).scopes.length = m.heap.scopes.length + 1 :=
      List.length_append
    rw [hinvs] at hframes₀
    have htop := hframes₀ inv List.mem_cons_self
    rw [hframes] at htop
    obtain ⟨ip, rfl⟩ := Frame.fetch_eq hfetch
    have hf := (htop f List.mem_cons_self).mono hgrows
    refine ⟨?_, fun g hg => (hfunctions g hg).mono hgrows, hglobals.trans_le hgrows.scopes⟩
    intro inv' hinv g hg
    rcases List.mem_cons.mp hinv with rfl | hinv
    · -- the frame that is called, the frame that calls, and those below
      rcases List.mem_cons.mp hg with rfl | hg
      · exact ⟨(hfunctions fn hfn).cons hlength, fun c hc => (List.not_mem_nil hc).elim⟩
      · rcases List.mem_cons.mp hg with rfl | hg
        · exact ⟨hf.stack, hf.catchers⟩
        · exact (htop g (List.mem_cons_of_mem _ hg)).mono hgrows
    · exact (hframes₀ inv' (List.mem_cons_of_mem _ hinv) g hg).mono hgrows
  | @argonCall inv rest f frames fn n arguments hinvs _ _ hfn _ =>
    have hgrows := m.heap.grows_enter arguments
    have hlength : (m.heap.enter arguments).scopes.length = m.heap.scopes.length + 1 :=
      List.length_append
    rw [hinvs] at hframes₀
    refine ⟨?_, fun g hg => (hfunctions g hg).mono hgrows, hglobals.trans_le hgrows.scopes⟩
    intro inv' hinv g hg
    rcases List.mem_cons.mp hinv with rfl | hinv
    · rw [List.mem_singleton.mp hg]
      exact ⟨(hfunctions fn hfn).cons hlength, fun c hc => (List.not_mem_nil hc).elim⟩
    · exact (hframes₀ inv' hinv g hg).mono hgrows
  | @interrupt inv rest f frames instance_ hinvs =>
    rw [hinvs] at hframes₀
    refine ⟨?_, hfunctions, hglobals⟩
    intro inv' hinv
    rcases List.mem_cons.mp hinv with rfl | hinv
    · exact hframes₀ inv List.mem_cons_self
    · exact hframes₀ inv' (List.mem_cons_of_mem _ hinv)
  | @unwind inv inv' rest f frames hinvs _ _ hunwind =>
    have htop : ∀ f ∈ inv.frames, f.Shaped := hshaped inv (by rw [hinvs]; exact List.mem_cons_self)
    rw [hinvs] at hframes₀
    refine ⟨?_, hfunctions, hglobals⟩
    intro k hk
    rcases List.mem_cons.mp hk with rfl | hk
    · exact Invocation.placed_unwind htop (hframes₀ inv List.mem_cons_self) hunwind
    · exact hframes₀ k (List.mem_cons_of_mem _ hk)

/-- The scopes that a reachable machine names are in its heap. -/
theorem Machine.Reachable.placed {modules : List Module} {m : Machine}
    (hm : m.Reachable modules) : m.Placed := by
  induction hm with
  | init h =>
    obtain ⟨globals, rfl⟩ := h
    exact ⟨fun inv hinv => (List.not_mem_nil hinv).elim, fun fn hfn => (List.not_mem_nil hfn).elim,
      Nat.one_pos⟩
  | step hs hstep ih =>
    exact ih.step (Machine.Reachable.shaped hs) (transition_of_step hstep)

end Chloride
