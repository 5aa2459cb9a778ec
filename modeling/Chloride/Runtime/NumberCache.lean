import Chloride.Runtime.Unwinding

/-!
# The number cache

`OP_LOAD_NUMBER` keeps the numbers it has built in a cache of the frame, under `make_id` of its
operands. The operands are places in the constants of the module whose code runs, but the cache is
handed from a caller to the function it calls (`run_call`), which may be code of another module.
`loads_iff` says exactly when every load of a run gives the number of its own module: when no two
literals that are loaded through one cache have one key and different numbers.

An entry of a cache never changes and comes from the first load of its key (`Transition.cached`,
`Transition.cached_origin`), so what a later load finds is the number of that first literal.
-/

namespace Chloride

/-- The number that a cache has for a key. -/
def Heap.cached (h : Heap) (cache : ℕ) (key : UInt64) : Option Number :=
  find (h.caches.getD cache []) key

/-- A register of the running frame. -/
def Machine.register (m : Machine) (register : UInt8) : Option Value :=
  match m.invocations with
  | [] => none
  | inv :: _ => inv.frames.head?.bind fun f => f.read register

/-- The running frame is at an `OP_LOAD_NUMBER`. -/
def Machine.Loading (m : Machine) (f : Frame) (toRegister : UInt8) (number : NumberOperand) : Prop :=
  ∃ inv rest frames f₁, m.invocations = inv :: rest ∧ inv.frames = f :: frames ∧ inv.Running f ∧
    f.fetch = some (.loadNumber toRegister number, f₁)

/-- An executed `OP_LOAD_NUMBER`: the state before it, the state after it, the frame and the
operands. -/
structure Load where
  before : Machine
  after : Machine
  frame : Frame
  toRegister : UInt8
  number : NumberOperand

/-- The load is a step of the run. -/
def Load.In (l : Load) (start : Machine) (inputs : List Input) : Prop :=
  ∃ earlier a later, inputs = earlier ++ .exec a :: later ∧
    Runs.run step start earlier = some l.before ∧ step l.before (.exec a) = some l.after ∧
    l.before.Loading l.frame l.toRegister l.number

/-- The number of the literal, from the constants of the module whose code runs. -/
def Load.literal (l : Load) : Option Number := l.frame.module.numberAt l.number

/-! ## One load -/

/-- The running frame is at one instruction. -/
theorem Machine.Loading.unique {m : Machine} {f f' : Frame} {r r' : UInt8}
    {number number' : NumberOperand} (h : m.Loading f r number) (h' : m.Loading f' r' number') :
    f = f' ∧ r = r' ∧ number = number' := by
  obtain ⟨inv, rest, frames, f₁, hinvs, hframes, _, hfetch⟩ := h
  obtain ⟨inv', rest', frames', f₁', hinvs', hframes', _, hfetch'⟩ := h'
  rw [hinvs] at hinvs'
  cases hinvs'
  rw [hframes] at hframes'
  cases hframes'
  rw [hfetch] at hfetch'
  cases hfetch'
  exact ⟨rfl, rfl, rfl⟩

/-- A step at a running frame with an answer of objects executes the instruction. -/
theorem exec_of_step {m m' : Machine} {inv : Invocation} {rest : List Invocation} {f f₁ : Frame}
    {frames : List Frame} {a : Answer} {i : Instr} (hinvs : m.invocations = inv :: rest)
    (hframes : inv.frames = f :: frames) (hrun : inv.Running f) (hfetch : f.fetch = some (i, f₁))
    (hstep : step m (.exec a) = some m') :
    ∃ heap f' err, execInstr m.heap inv.stack f.ip f₁ a i = some (heap, f', err) ∧
      m' = { m with
        heap := heap
        invocations := { inv with frames := f' :: frames, err := err } :: rest } := by
  unfold step at hstep
  rw [hinvs] at hstep
  dsimp only at hstep
  rw [hframes] at hstep
  dsimp only at hstep
  rw [if_pos hrun] at hstep
  simp only [Option.bind_eq_bind, Option.bind_eq_some_iff, Option.pure_def, Option.some.injEq,
    hfetch] at hstep
  obtain ⟨_, rfl, ⟨heap, f', err⟩, hexec, rfl⟩ := hstep
  exact ⟨heap, f', err, hexec, rfl⟩

/-- What a load puts in its register: the number that the cache has, if it has one for the key, and
the number of the literal otherwise, which the cache has from then on. -/
theorem execLoadNumber_spec {h h' : Heap} {f f' : Frame} {toRegister : UInt8}
    {number : NumberOperand} {err : Option Value}
    (hexec : execLoadNumber h f toRegister number = some (h', f', err)) :
    ∃ n, f'.read toRegister = some (.number n) ∧
      (number.cacheKey = none ∧ f.module.numberAt number = some n ∨
        ∃ key, number.cacheKey = some key ∧
          (h.cached f.loadNumberCache key = some n ∨
            h.cached f.loadNumberCache key = none ∧ f.module.numberAt number = some n)) := by
  unfold execLoadNumber at hexec
  split at hexec
  case h_1 hkey =>
    simp only [Option.bind_eq_bind, Option.bind_eq_some_iff, Option.pure_def, Option.some.injEq,
      Prod.mk.injEq] at hexec
    obtain ⟨n, hn, g, hg, rfl, rfl, rfl⟩ := hexec
    exact ⟨n, Frame.read_write hg, Or.inl ⟨hkey, hn⟩⟩
  case h_2 key hkey =>
    split at hexec
    -- The number is the one in the cache, whatever the literal says.
    case h_1 n hfind =>
      simp only [Option.bind_eq_bind, Option.bind_eq_some_iff, Option.pure_def, Option.some.injEq,
        Prod.mk.injEq] at hexec
      obtain ⟨g, hg, rfl, rfl, rfl⟩ := hexec
      exact ⟨n, Frame.read_write hg, Or.inr ⟨key, hkey, Or.inl hfind⟩⟩
    case h_2 hfind =>
      simp only [Option.bind_eq_bind, Option.bind_eq_some_iff, Option.pure_def, Option.some.injEq,
        Prod.mk.injEq] at hexec
      obtain ⟨n, hn, g, hg, rfl, rfl, rfl⟩ := hexec
      exact ⟨n, Frame.read_write hg, Or.inr ⟨key, hkey, Or.inr ⟨hfind, hn⟩⟩⟩

/-! ## The entries of the caches over a run -/

/-- The cache of every frame is there. -/
theorem Frame.cache_invariant (modules : List Module) :
    FrameInvariant modules (fun h f => f.Shaped ∧ f.loadNumberCache < h.caches.length)
      (fun _ => True ∧ True) := by
  refine (Frame.shaped_invariant modules).strengthen ?_ ?_ ?_ ?_ ?_ ?_ fun _ _ _ _ => Or.inr trivial
  · exact fun hgrows _ hf => hf.trans_le hgrows.caches
  · rintro h f _ ⟨registers, _, rfl⟩ _ hf
    exact hf
  · intro h module _
    simp [Module.frame, Heap.enterModule]
  · exact fun _ hf _ _ => hf
  · intro h h' f f₁ f' i _ hf hfetch hc
    obtain ⟨ip, rfl⟩ := Frame.fetch_eq hfetch
    rw [hc.cache]
    exact hf.trans_le hc.grows.caches
  · exact fun _ hf _ => hf

/-- The caches after a step: as they were, with a new one, or as the load of a number leaves them. -/
theorem Transition.caches {m m' : Machine} {input : Input} (ht : Transition m input m') :
    m'.heap.caches = m.heap.caches ∨ m'.heap.caches = m.heap.caches ++ [[]] ∨
      ∃ f r number a, input = .exec a ∧ m.Loading f r number ∧
        m'.heap.caches = (Instr.loadNumber r number).cachesAfter f m.heap.caches := by
  cases ht with
  | runModule => exact Or.inr (Or.inl rfl)
  | @exec inv rest f f₁ f' frames a i heap err hinvs hframes hrun hfetch hexec =>
    have hcontrol := execInstr_control hexec
    obtain ⟨ip, rfl⟩ := Frame.fetch_eq hfetch
    cases i with
    | loadNumber r number =>
      exact Or.inr (Or.inr ⟨f, r, number, a, rfl,
        ⟨inv, rest, frames, _, hinvs, hframes, hrun, hfetch⟩, hcontrol.caches⟩)
    | _ => exact Or.inl hcontrol.caches
  | _ => exact Or.inl rfl

theorem find_modify (caches : List (List (UInt64 × Number))) (cache cache' : ℕ) (key key' : UInt64)
    (n : Number) (hcache : cache < caches.length) :
    find ((caches.modify cache fun c => put c key n).getD cache' []) key' =
      if cache = cache' ∧ key = key' then some n else find (caches.getD cache' []) key' := by
  rw [List.getD_eq_getElem?_getD, List.getD_eq_getElem?_getD, List.getElem?_modify]
  by_cases hc : cache = cache'
  · subst hc
    rw [List.getElem?_eq_getElem hcache]
    simp [find_put]
  · simp [hc]

/-- What the caches have after a load: the entry of the literal if its key was not found, and all
that was there. -/
theorem find_cachesAfter {f : Frame} {caches : List (List (UInt64 × Number))} {r : UInt8}
    {number : NumberOperand} (hcache : f.loadNumberCache < caches.length) (cache : ℕ)
    (key : UInt64) (n : Number) :
    find (((Instr.loadNumber r number).cachesAfter f caches).getD cache []) key = some n ↔
      find (caches.getD cache []) key = some n ∨
        find (caches.getD cache []) key = none ∧ cache = f.loadNumberCache ∧
          number.cacheKey = some key ∧ f.module.numberAt number = some n := by
  unfold Instr.cachesAfter
  dsimp only
  split
  case h_1 key₀ n₀ hkey hnumber =>
    rw [hkey, hnumber]
    split
    -- The literal was found, so nothing is cached.
    case h_1 n₁ hfind =>
      refine ⟨Or.inl, fun h => h.elim id ?_⟩
      rintro ⟨hnone, rfl, hkey', _⟩
      rw [← Option.some.inj hkey', hfind] at hnone
      cases hnone
    -- The literal is cached, under its key and in the cache of the frame.
    case h_2 hfind =>
      rw [find_modify caches _ _ _ _ _ hcache]
      split
      case isTrue heq =>
        obtain ⟨rfl, rfl⟩ := heq
        rw [hfind]
        simp
      case isFalse hne =>
        refine ⟨Or.inl, fun h => h.elim id ?_⟩
        rintro ⟨_, rfl, hkey', _⟩
        exact (hne ⟨rfl, Option.some.inj hkey'⟩).elim
  -- A literal without a key is not cached.
  case h_2 hnone =>
    refine ⟨Or.inl, fun h => h.elim id ?_⟩
    rintro ⟨_, _, hkey, hnumber⟩
    exact (hnone key n hkey hnumber).elim

/-- The load of a reachable state has its cache. -/
theorem Machine.Loading.cache_lt {modules : List Module} {m : Machine} {f : Frame} {r : UInt8}
    {number : NumberOperand} (h : m.Loading f r number) (hm : m.Reachable modules) :
    f.loadNumberCache < m.heap.caches.length := by
  obtain ⟨inv, rest, frames, f₁, hinvs, hframes, _, _⟩ := h
  have hall := ((Frame.cache_invariant modules).reachable hm).frames inv
    (by rw [hinvs]; exact List.mem_cons_self) f (by rw [hframes]; exact List.mem_cons_self)
  exact hall.2

theorem cached_append_nil (caches : List (List (UInt64 × Number))) (cache : ℕ) (key : UInt64) :
    find ((caches ++ [[]]).getD cache []) key = find (caches.getD cache []) key := by
  rw [List.getD_eq_getElem?_getD, List.getD_eq_getElem?_getD, List.getElem?_append]
  split
  · rfl
  case isFalse hge =>
    rw [List.getElem?_eq_none (Nat.le_of_not_lt hge)]
    cases cache - caches.length <;> rfl

/-- An entry of a cache stays. -/
theorem Transition.cached {modules : List Module} {m m' : Machine} {input : Input}
    (ht : Transition m input m') (hm : m.Reachable modules) {cache : ℕ} {key : UInt64} {n : Number}
    (h : m.heap.cached cache key = some n) : m'.heap.cached cache key = some n := by
  unfold Heap.cached at h ⊢
  rcases ht.caches with heq | heq | ⟨f, r, number, a, _, hload, heq⟩
  · rw [heq, h]
  · rw [heq, cached_append_nil, h]
  · rw [heq]
    exact (find_cachesAfter (hload.cache_lt hm) cache key n).mpr (Or.inl h)

/-- An entry of a cache that was not there comes from the load of its literal. -/
theorem Transition.cached_origin {modules : List Module} {m m' : Machine} {input : Input}
    (ht : Transition m input m') (hm : m.Reachable modules) {cache : ℕ} {key : UInt64} {n : Number}
    (h : m'.heap.cached cache key = some n) :
    m.heap.cached cache key = some n ∨ ∃ f r number a, input = .exec a ∧ m.Loading f r number ∧
      cache = f.loadNumberCache ∧ number.cacheKey = some key ∧
      f.module.numberAt number = some n := by
  unfold Heap.cached at h ⊢
  rcases ht.caches with heq | heq | ⟨f, r, number, a, hinput, hload, heq⟩
  · exact Or.inl (heq ▸ h)
  · rw [heq, cached_append_nil] at h
    exact Or.inl h
  · rw [heq] at h
    rcases (find_cachesAfter (hload.cache_lt hm) cache key n).mp h with h | ⟨_, hcache, hkey, hn⟩
    · exact Or.inl h
    · exact Or.inr ⟨f, r, number, a, hinput, hload, hcache, hkey, hn⟩

/-! ## All loads of a run -/

/-- The register and the cache after a load. -/
theorem Load.In.spec {modules : List Module} {start : Machine} {inputs : List Input} {l : Load}
    (hl : l.In start inputs) (hstart : start.Reachable modules) :
    ∃ n, l.after.register l.toRegister = some (.number n) ∧
      (l.number.cacheKey = none ∧ l.literal = some n ∨
        ∃ key, l.number.cacheKey = some key ∧
          l.after.heap.cached l.frame.loadNumberCache key = some n ∧
          (l.before.heap.cached l.frame.loadNumberCache key = some n ∨ l.literal = some n)) := by
  obtain ⟨earlier, a, later, _, hrun, hstep, hloading⟩ := hl
  have hreach : l.before.Reachable modules := hstart.run hrun
  have hcache := hloading.cache_lt hreach
  obtain ⟨inv, rest, frames, f₁, hinvs, hframes, hrunning, hfetch⟩ := hloading
  obtain ⟨heap, f', err, hexec, hafter⟩ := exec_of_step hinvs hframes hrunning hfetch hstep
  -- What the handler loaded and what it left in the caches.
  have hcontrol := execInstr_control hexec
  obtain ⟨ip, rfl⟩ := Frame.fetch_eq hfetch
  obtain ⟨n, hread, hspec⟩ := execLoadNumber_spec hexec
  refine ⟨n, by rw [hafter]; exact hread, ?_⟩
  rcases hspec with hnone | ⟨key, hkey, hfound⟩
  · exact Or.inl hnone
  · refine Or.inr ⟨key, hkey, ?_, hfound.imp_right And.right⟩
    rw [hafter]
    show find (heap.caches.getD _ []) key = some n
    rw [hcontrol.caches]
    refine (@find_cachesAfter l.frame _ l.toRegister l.number hcache _ key n).mpr ?_
    exact hfound.imp_right fun h => ⟨h.1, rfl, hkey, h.2⟩

/-- What a cache has in a state of a run comes from an earlier load of the run. -/
theorem exists_load_of_cached {modules : List Module} {globals : List (UInt64 × Value)}
    {inputs : List Input} {m : Machine}
    (hrun : Runs.run step (Machine.start modules globals) inputs = some m) {cache : ℕ}
    {key : UInt64} {n : Number} (h : m.heap.cached cache key = some n) (later : List Input) :
    ∃ l : Load, l.In (Machine.start modules globals) (inputs ++ later) ∧
      l.frame.loadNumberCache = cache ∧ l.number.cacheKey = some key ∧ l.literal = some n := by
  have horigin := Runs.run_origin (Machine.Reachable modules)
    (fun s (x : ℕ × UInt64 × Number) => s.heap.cached x.1 x.2.1 = some x.2.2)
    (fun s i x => ∃ f r number a, i = .exec a ∧ s.Loading f r number ∧ x.1 = f.loadNumberCache ∧
      number.cacheKey = some x.2.1 ∧ f.module.numberAt number = some x.2.2)
    (fun s i s' hs hstep => hs.step hstep)
    (fun s i s' hs hstep x hx => (transition_of_step hstep).cached_origin hs hx)
    (Runs.Reachable.init ⟨globals, rfl⟩) hrun (cache, key, n) h
  rcases horigin with hstart | ⟨earlier, i, later', t, rfl, ht, f, r, number, a, rfl, hload, hcache,
    hkey, hn⟩
  · -- There are no caches at the start.
    cases hstart
  · -- The step that cached the number is a load of the run.
    rw [Runs.run_append] at hrun
    obtain ⟨t', ht', hrest⟩ := hrun
    rw [ht] at ht'
    cases ht'
    obtain ⟨u, hu, _⟩ := Runs.run_cons.mp hrest
    refine ⟨⟨t, u, f, r, number⟩, ⟨earlier, a, later' ++ later, ?_, ht, hu, hload⟩, hcache.symm,
      hkey, hn⟩
    rw [List.append_assoc, List.cons_append]

/-- Of two loads of a run that are not the same, one comes first. -/
theorem Load.In.ordered {start : Machine} {inputs : List Input} {l l' : Load}
    (h : l.In start inputs) (h' : l'.In start inputs) :
    l = l' ∨ (∃ between, Runs.run Chloride.step l.after between = some l'.before) ∨
      ∃ between, Runs.run Chloride.step l'.after between = some l.before := by
  obtain ⟨before, after, f, r, number⟩ := l
  obtain ⟨before', after', f', r', number'⟩ := l'
  obtain ⟨earlier, a, later, hinputs, hrun, hstep, hloading⟩ := h
  obtain ⟨earlier', a', later', hinputs', hrun', hstep', hloading'⟩ := h'
  rcases Runs.run_ordered (hinputs.symm.trans hinputs') hrun hstep hrun' hstep' with
    ⟨hbefore, _, hafter⟩ | hmid
  · dsimp only at hbefore hafter hloading hloading'
    subst hbefore hafter
    obtain ⟨rfl, rfl, rfl⟩ := hloading.unique hloading'
    exact Or.inl rfl
  · exact Or.inr hmid

theorem Load.In.reachable {modules : List Module} {start : Machine} {inputs : List Input} {l : Load}
    (h : l.In start inputs) (hstart : start.Reachable modules) : l.after.Reachable modules := by
  obtain ⟨earlier, a, later, _, hrun, hstep, _⟩ := h
  exact Runs.Reachable.step (Runs.Reachable.run hstart hrun) hstep

/-- What a run finds in a cache it finds there from then on. -/
theorem cached_run {modules : List Module} {m m' : Machine} {inputs : List Input}
    (hm : m.Reachable modules) (hrun : Runs.run step m inputs = some m') {cache : ℕ} {key : UInt64}
    {n : Number} (h : m.heap.cached cache key = some n) : m'.heap.cached cache key = some n := by
  have hstep : ∀ s i s', s.Reachable modules ∧ s.heap.cached cache key = some n →
      step s i = some s' → s'.Reachable modules ∧ s'.heap.cached cache key = some n :=
    fun s i s' hs h => ⟨hs.1.step h, (transition_of_step h).cached hs.1 hs.2⟩
  exact (Runs.run_invariant hstep ⟨hm, h⟩ hrun).2

/-- A load after another one of the same cache and key gives what the first one gave. -/
theorem Load.In.register_eq {modules : List Module} {start : Machine} {inputs : List Input}
    {l l' : Load} (h : l.In start inputs) (h' : l'.In start inputs)
    (hstart : start.Reachable modules) {between : List Input}
    (hbetween : Runs.run Chloride.step l.after between = some l'.before)
    (hcache : l.frame.loadNumberCache = l'.frame.loadNumberCache) {key : UInt64}
    (hkey : l.number.cacheKey = some key) (hkey' : l'.number.cacheKey = some key) :
    l.after.register l.toRegister = l'.after.register l'.toRegister := by
  obtain ⟨n, hread, hspec⟩ := h.spec hstart
  obtain ⟨n', hread', hspec'⟩ := h'.spec hstart
  rcases hspec with ⟨hnone, _⟩ | ⟨k, hk, hcached, _⟩
  · rw [hkey] at hnone
    cases hnone
  rcases hspec' with ⟨hnone, _⟩ | ⟨k', hk', hcached', _⟩
  · rw [hkey'] at hnone
    cases hnone
  cases hkey.symm.trans hk
  cases hkey'.symm.trans hk'
  -- What the first load left in the cache is there still when the second one looks.
  have hbefore := cached_run (h.reachable hstart) hbetween hcached
  obtain ⟨earlier, a, later, _, hrun, hstep, _⟩ := h'
  have hafter := (transition_of_step hstep).cached (Runs.Reachable.run hstart hrun) hbefore
  rw [hcache, hcached'] at hafter
  rw [hread, hread', Option.some.inj hafter]

/-- **The numbers that are loaded.** Every `OP_LOAD_NUMBER` of a run puts the number in its register
that its literal has in the constants of the module whose code runs, if and only if no two literals
that the run loads through one cache have one key and different numbers. -/
theorem loads_iff (modules : List Module) (globals : List (UInt64 × Value)) (inputs : List Input) :
    (∀ l : Load, l.In (Machine.start modules globals) inputs →
      ∃ n, l.literal = some n ∧ l.after.register l.toRegister = some (.number n)) ↔
    ∀ l l' : Load, l.In (Machine.start modules globals) inputs →
      l'.In (Machine.start modules globals) inputs →
      l.frame.loadNumberCache = l'.frame.loadNumberCache →
      l.number.cacheKey = l'.number.cacheKey → l.number.cacheKey ≠ none → l.literal = l'.literal := by
  have hstart : (Machine.start modules globals).Reachable modules := Runs.Reachable.init ⟨globals, rfl⟩
  constructor
  · intro hall l l' h h' hcache hkeys hkey
    obtain ⟨key, hkey⟩ := Option.ne_none_iff_exists'.mp hkey
    have hkey' := hkeys.symm.trans hkey
    obtain ⟨n, hliteral, hread⟩ := hall l h
    obtain ⟨n', hliteral', hread'⟩ := hall l' h'
    -- Two loads with one cache and one key load the same number, the later one what the earlier one
    -- cached.
    have hregister : l.after.register l.toRegister = l'.after.register l'.toRegister := by
      rcases h.ordered h' with rfl | ⟨between, hbetween⟩ | ⟨between, hbetween⟩
      · rfl
      · exact h.register_eq h' hstart hbetween hcache hkey hkey'
      · exact (h'.register_eq h hstart hbetween hcache.symm hkey' hkey).symm
    rw [hread, hread'] at hregister
    cases hregister
    rw [hliteral, hliteral']
  · intro hsame l h
    obtain ⟨n, hread, hspec⟩ := h.spec hstart
    refine ⟨n, ?_, hread⟩
    rcases hspec with ⟨_, hliteral⟩ | ⟨key, hkey, _, hcached | hliteral⟩
    · exact hliteral
    · -- The number was in the cache: an earlier load of the run has put it there.
      obtain ⟨earlier, a, later, hinputs, hrun, _, _⟩ := id h
      obtain ⟨l₀, h₀, hcache₀, hkey₀, hliteral₀⟩ :=
        exists_load_of_cached hrun hcached (.exec a :: later)
      rw [← hinputs] at h₀
      rw [hsame l l₀ h h₀ hcache₀.symm (hkey.trans hkey₀.symm) (by rw [hkey]; simp), hliteral₀]
    · exact hliteral

/-- The literal whose numerator is at the start of the constants, and whose denominator follows. -/
def firstLiteral : NumberOperand := .rational 1 0 false 1 1

/-- A module with a function whose body is the literal `0.25`. -/
def quarterModule : Module where
  registerCount := 1
  registerCount_pos := Nat.one_pos
  bytecode := (Instr.loadFunction 2 1 3 37 0 0).encode
  constants := [1, 4, 102] ++ (Instr.loadNumber 0 firstLiteral).encode

/-- A module that has the literal `0.5`, imports the other module and calls its function. -/
def halfModule : Module where
  registerCount := 1
  registerCount_pos := Nat.one_pos
  bytecode := (Instr.loadNumber 0 firstLiteral).encode ++ (Instr.op .opImport).encode ++
    (Instr.initCall 0).encode ++ (Instr.op .call).encode
  constants := [1, 2]

/-- The inputs until the function is about to load its literal. -/
def crossCall : List Input :=
  [.runModule 0, .exec noAnswer, .runModule 1, .exec noAnswer, .unwind, .leave, .exec noAnswer,
    .exec noAnswer, .call 0 []]

/-- The frame of the function, with the cache of its caller. -/
def quarterFrame : Frame where
  id := 2
  module := quarterModule
  bytecode := (Instr.loadNumber 0 firstLiteral).encode
  registers := [.null]
  ip := 0
  callInstance := []
  catchErrors := []
  loadNumberCache := 0
  cDepth := 0
  stack := [3, 2, 0]
  sourceLocation := ⟨0, 0, 0⟩

/-- The function loads the number of its caller. -/
theorem crossCall_spec : ∃ before after inv rest frames,
    Runs.run step (Machine.start [halfModule, quarterModule] []) crossCall = some before ∧
    before.invocations = inv :: rest ∧ inv.frames = quarterFrame :: frames ∧ inv.err = none ∧
    step before (.exec noAnswer) = some after ∧
    after.register 0 = some (.number (.mpq ⟨1, 2, by decide⟩)) := by
  have hrun : ((Runs.run step (Machine.start [halfModule, quarterModule] []) crossCall).bind
      fun m => m.invocations.head?.map fun inv => (inv.frames.head?, inv.err)) =
      some (some quarterFrame, none) := by
    decide
  have hafter : ((Runs.run step (Machine.start [halfModule, quarterModule] [])
      (crossCall ++ [.exec noAnswer])).bind fun m => m.register 0) =
      some (.number (.mpq ⟨1, 2, by decide⟩)) := by
    decide
  -- The states before the load and after it.
  obtain ⟨after, hafter, hregister⟩ := Option.bind_eq_some_iff.mp hafter
  obtain ⟨before, hbefore, hlast⟩ := Runs.run_append.mp hafter
  obtain ⟨after', hstep, hnil⟩ := Runs.run_cons.mp hlast
  cases hnil
  rw [hbefore, Option.bind_some, Option.map_eq_some_iff] at hrun
  obtain ⟨inv, hinv, htop⟩ := hrun
  obtain ⟨rest, hinvs⟩ := List.head?_eq_some_iff.mp hinv
  rw [Prod.mk.injEq] at htop
  obtain ⟨frames, hframes⟩ := List.head?_eq_some_iff.mp htop.1
  exact ⟨before, after, inv, rest, frames, hbefore, hinvs, hframes, htop.2, hstep, hregister⟩

/-- The function of the module that has `0.25` gives `0.5`, which the module that calls it has in the
same place. -/
theorem exists_load_ne_literal : ∃ l : Load,
    l.In (Machine.start [halfModule, quarterModule] []) (crossCall ++ [.exec noAnswer]) ∧
    l.literal = some (.mpq ⟨1, 4, by decide⟩) ∧
    l.after.register l.toRegister = some (.number (.mpq ⟨1, 2, by decide⟩)) := by
  obtain ⟨before, after, inv, rest, frames, hbefore, hinvs, hframes, herr, hstep, hregister⟩ :=
    crossCall_spec
  have hliteral : quarterModule.numberAt firstLiteral = some (.mpq ⟨1, 4, by decide⟩) := by
    decide
  have hlength : 0 < (Instr.loadNumber 0 firstLiteral).encode.length := by decide
  exact ⟨⟨before, after, quarterFrame, 0, firstLiteral⟩, ⟨crossCall, noAnswer, [], rfl, hbefore,
    hstep, ⟨inv, rest, frames, _, hinvs, hframes, ⟨herr, hlength⟩, rfl⟩⟩, hliteral, hregister⟩

end Chloride
