import Chloride.Logic.Dialogue
import Chloride.Logic.Until
import Chloride.Runtime.ArgumentOrder

/-!
# Evaluations

A run of the machine while one of its frames evaluates an expression, with what the expression asks for: the values of
names, number literals that are not integers of 64 bits, what objects answer to operators, and that a name gets a value.
The handler of an operator may call Argon functions, which run in `runtime` calls of their own before it has its answer;
what they do to the heap is not restricted. `Evaluation.step` is a step of the machine that also writes down each
question with its answer, and `Converses` says that from a state on a frame holds a dialogue, until it is behind the
code or an error is raised.
-/

namespace Chloride

/-! ## Questions -/

/-- What the handler of an instruction asks for. -/
inductive Question where
  | lookup (hash : UInt64)
  | store (hash : UInt64) (v : Value)
  | literal (n : Number)
  | truth (v : Value)
  | negation (v : Value)
  | binary (operation : BinaryOp) (a b : Value)
  deriving DecidableEq

/-- Objects may answer by calling Argon functions. -/
def Question.callsBack : Question → Bool
  | lookup _ | store .. | literal _ => false
  | truth _ | negation _ | binary .. => true

/-- A question with its answer: a value, or the error that is raised. -/
abbrev Exchange := Question × Except Value Value

/-- What an instruction asks in the frame that has come to it. A truth value is its own truth value, and an integer of
64 bits is in the code. -/
def Instr.question (f : Frame) : Instr → Option Question
  | .identifier _ _ hash => some (.lookup hash)
  | .assign _ _ hash fromRegister => return .store hash (← f.read fromRegister)
  | .loadNumber _ number => do
    let _ ← number.cacheKey
    return .literal (← f.module.numberAt number)
  | .op .bool => do
    match ← f.read 0 with
    | .bool _ => none
    | v => some (.truth v)
  | .op .negation => return .negation (← f.read 0)
  | .binary operation registerA registerB _ =>
    return .binary operation (← f.read registerA) (← f.read registerB)
  | _ => none

/-- The register that the answer is in. -/
def Instr.answerRegister : Instr → UInt8
  | .assign _ _ _ fromRegister => fromRegister
  | .binary _ _ _ registerC => registerC
  | .loadNumber toRegister _ => toRegister
  | _ => 0

/-- What an instruction has asked in a frame, with the answer that the frame and the error show afterwards. -/
def Instr.exchange (f f' : Frame) (err : Option Value) (i : Instr) : List Exchange :=
  match i.question f, err, f'.read i.answerRegister with
  | some q, some e, _ => [(q, .error e)]
  | some q, none, some v => [(q, .ok v)]
  | _, _, _ => []

/-! ## The machine with its questions -/

/-- A state of the machine, the frame as it came to the instruction that it is at, what was asked, and the number of
instructions of the frame that were executed. -/
structure Evaluation where
  machine : Machine
  reached : Frame
  exchanges : List Exchange
  executed : ℕ

/-- The frame that runs and its error. -/
def Machine.top (m : Machine) : Option (Frame × Option Value) :=
  match m.invocations with
  | [] => none
  | inv :: _ => inv.frames.head?.map fun f => (f, inv.err)

namespace Evaluation

/-- What the frame is about to ask. -/
def asks (s : Evaluation) : Option Question := do
  let (i, _) ← s.reached.fetch
  i.question s.reached

/-- A step of the machine; the frame that evaluates is in the `runtime` call with the given number, counted from the
first. Only the handlers of operators call functions, and there is no keyboard interrupt. -/
def step (depth : ℕ) (s : Evaluation) (input : Input) : Option Evaluation := do
  let m ← Chloride.step s.machine input
  if s.machine.invocations.length = depth then
    match input with
    | .exec _ =>
      let (i, _) ← s.reached.fetch
      let (f, err) ← m.top
      return ⟨m, f, s.exchanges ++ i.exchange s.reached f err, s.executed + 1⟩
    | .argonCall .. | .runModule _ =>
      if s.asks.any Question.callsBack then return { s with machine := m } else none
    | .interrupt _ => none
    | _ => return { s with machine := m }
  else return { s with machine := m }

/-- It is a step of the machine. -/
theorem machine_step {depth : ℕ} {s s' : Evaluation} {input : Input} (h : s.step depth input = some s') :
    Chloride.step s.machine input = some s'.machine := by
  unfold step at h
  rw [Option.bind_eq_bind, Option.bind_eq_some_iff] at h
  obtain ⟨m, hm, h⟩ := h
  rw [hm]
  refine congrArg some ?_
  split at h
  case isTrue =>
    split at h
    · simp only [Option.bind_eq_bind, Option.bind_eq_some_iff, Option.pure_def, Option.some.injEq] at h
      obtain ⟨_, _, _, _, rfl⟩ := h
      rfl
    · split at h <;> cases h
      rfl
    · split at h <;> cases h
      rfl
    · cases h
    · cases h
      rfl
  case isFalse =>
    cases h
    rfl

/-- A run is a run of the machine. -/
theorem machine_run {depth : ℕ} {s s' : Evaluation} {inputs : List Input}
    (h : Runs.run (step depth) s inputs = some s') : Runs.run Chloride.step s.machine inputs = some s'.machine := by
  induction inputs generalizing s with
  | nil =>
    cases h
    rfl
  | cons input inputs ih =>
    obtain ⟨t, ht, h⟩ := Runs.run_cons.mp h
    exact Runs.run_cons.mpr ⟨t.machine, machine_step ht, ih h⟩

end Evaluation

/-! ## The frame in its surroundings -/

/-- Where a frame is: its `runtime` call, the frames under it and the calls under that one. -/
structure FramePlace where
  invocation : Invocation
  frames : List Frame
  rest : List Invocation

/-- The C stack with the frame in its place. -/
def FramePlace.around (c : FramePlace) (f : Frame) (err : Option Value) : List Invocation :=
  { c.invocation with frames := f :: c.frames, err := err } :: c.rest

/-- The number of `runtime` calls up to the one of the frame. -/
def FramePlace.depth (c : FramePlace) : ℕ := c.rest.length + 1

/-- A call has put its result in register 0, or there was none. -/
def Frame.Answered (f g : Frame) : Prop := g = f ∨ ∃ v, f.write 0 v = some g

/-- A frame that waits for calls. -/
def FramePlace.Waits (c : FramePlace) (f : Frame) (m : Machine) : Prop :=
  ∃ calls g, m.invocations = calls ++ c.around g none ∧ f.Answered g

/-- The frame has come to an instruction. -/
structure Evaluation.At (c : FramePlace) (s : Evaluation) (f : Frame) : Prop where
  invocations : s.machine.invocations = c.around f none
  reached : s.reached = f

theorem Frame.Answered.refl (f : Frame) : f.Answered f := Or.inl rfl

theorem Frame.Answered.write {f g g' : Frame} (h : f.Answered g) {v : Value} (hwrite : g.write 0 v = some g') :
    f.Answered g' := by
  rcases h with rfl | ⟨w, hw⟩
  · exact Or.inr ⟨v, hwrite⟩
  · refine Or.inr ⟨v, ?_⟩
    unfold Frame.write at hw hwrite ⊢
    split at hw
    case isFalse => cases hw
    case isTrue hlt =>
      cases hw
      rw [List.length_set, if_pos hlt] at hwrite
      rw [if_pos hlt]
      simpa using hwrite

theorem Frame.Answered.exists_registers {f g : Frame} (h : f.Answered g) :
    ∃ registers, g = { f with registers := registers } := by
  rcases h with rfl | ⟨v, hv⟩
  · exact ⟨_, rfl⟩
  · obtain ⟨registers, -, rfl⟩ := Frame.write_sameControl hv
    exact ⟨registers, rfl⟩

namespace FramePlace

variable {c : FramePlace} {f : Frame} {m m' : Machine}

theorem length_around (c : FramePlace) (f : Frame) (err : Option Value) : (c.around f err).length = c.depth := rfl

theorem Waits.of_around (h : m.invocations = c.around f none) : c.Waits f m := ⟨[], f, h, .refl f⟩

/-- Without calls the frame runs. -/
theorem Waits.running (h : c.Waits f m) (hdepth : m.invocations.length = c.depth) :
    ∃ g, m.invocations = c.around g none ∧ f.Answered g := by
  obtain ⟨calls, g, hm, hg⟩ := h
  rw [hm, List.length_append, length_around] at hdepth
  have hcalls : calls = [] := List.length_eq_zero_iff.mp (by omega)
  subst hcalls
  exact ⟨g, hm, hg⟩

/-- A call that is made while the frame waits. -/
theorem Waits.push (h : c.Waits f m) {inv : Invocation} (hm : m'.invocations = inv :: m.invocations) :
    c.Waits f m' := by
  obtain ⟨calls, g, hcalls, hg⟩ := h
  exact ⟨inv :: calls, g, by rw [hm, hcalls]; rfl, hg⟩

/-- A call that returns. -/
theorem Waits.leave {result : Value} {returns : Bool} {rest rest' : List Invocation} {calls : List Invocation} {g : Frame}
    (hrest : rest = calls ++ c.around g none) (hg : f.Answered g) (hleave : Leave result returns rest rest')
    (hm : m'.invocations = rest') : c.Waits f m' := by
  cases hleave with
  | empty => cases calls <;> cases hrest
  | keep => exact ⟨calls, g, hm.trans hrest, hg⟩
  | @answer caller rest k k' frames hframes hwrite =>
    cases calls with
    | nil =>
      -- the caller is the frame itself
      obtain ⟨rfl, rfl⟩ := List.cons.inj hrest
      obtain ⟨rfl, rfl⟩ := List.cons.inj hframes
      exact ⟨[], k', hm, hg.write hwrite⟩
    | cons call calls =>
      obtain ⟨rfl, rfl⟩ := List.cons.inj hrest
      exact ⟨_ :: calls, g, hm, hg⟩

/-- While a call runs, the frame waits on. -/
theorem Waits.step (h : c.Waits f m) (hdepth : m.invocations.length ≠ c.depth) {input : Input}
    (hstep : Chloride.step m input = some m') : c.Waits f m' := by
  obtain ⟨calls, g, hm, hg⟩ := h
  obtain ⟨call, calls, rfl⟩ : ∃ call rest, calls = call :: rest := by
    cases calls with
    | nil => exact absurd (congrArg List.length hm) hdepth
    | cons call calls => exact ⟨call, calls, rfl⟩
  have hinvs := hm
  -- Another call on top, or the call on top goes on.
  have hpush : ∀ {m' : Machine} {inv : Invocation}, m'.invocations = inv :: m.invocations → c.Waits f m' :=
    fun hm' => Waits.push ⟨_, g, hinvs, hg⟩ hm'
  have htop : ∀ {m' : Machine} {inv inv' : Invocation} {rest : List Invocation}, m.invocations = inv :: rest →
      m'.invocations = inv' :: rest → c.Waits f m' := by
    intro m' inv inv' rest hinv hm'
    obtain ⟨rfl, rfl⟩ := List.cons.inj (hinvs.symm.trans hinv)
    exact ⟨inv' :: calls, g, hm', hg⟩
  -- every transition of the machine is on the call on top, or puts one on it
  cases transition_of_step hstep with
  | runModule _ _ => exact hpush rfl
  | leave hinv _ hleave =>
    obtain ⟨rfl, rfl⟩ := List.cons.inj (hinvs.symm.trans hinv)
    exact Waits.leave rfl hg hleave rfl
  | exec hinv _ _ _ _ => exact htop hinv rfl
  | call hinv _ _ _ _ _ => exact htop hinv rfl
  | argonCall hinv _ _ _ _ => exact hpush (by rw [hinv])
  | interrupt hinv _ _ => exact htop hinv rfl
  | unwind hinv _ _ _ => exact htop hinv rfl

end FramePlace

/-! ## What holds of an evaluation -/

/-- What an evaluation leaves of a frame: only registers, the instruction pointer and the place in the source change,
and of the registers neither those from 1 to `keep` nor their number. -/
structure Frame.Since (keep : ℕ) (f g : Frame) : Prop where
  others : g = { f with registers := g.registers, ip := g.ip, sourceLocation := g.sourceLocation }
  length : g.registers.length = f.registers.length
  kept : ∀ r : UInt8, 0 < r.toNat → r.toNat < keep → g.read r = f.read r

namespace Frame.Since

variable {keep keep' : ℕ} {f g k : Frame}

theorem refl (keep : ℕ) (f : Frame) : f.Since keep f := ⟨rfl, rfl, fun _ _ _ => rfl⟩

theorem trans (h : f.Since keep g) (h' : g.Since keep k) : f.Since keep k := by
  refine ⟨?_, h'.length.trans h.length, fun r hpos hr => (h'.kept r hpos hr).trans (h.kept r hpos hr)⟩
  rw [h'.others, h.others]

theorem mono (h : f.Since keep' g) (hkeep : keep ≤ keep') : f.Since keep g :=
  ⟨h.others, h.length, fun r hpos hr => h.kept r hpos (hr.trans_le hkeep)⟩

theorem module (h : f.Since keep g) : g.module = f.module := by rw [h.others]

theorem bytecode (h : f.Since keep g) : g.bytecode = f.bytecode := by rw [h.others]

theorem stack (h : f.Since keep g) : g.stack = f.stack := by rw [h.others]

end Frame.Since

/-- In the middle of the evaluation of a dialogue: the frame runs or waits in front of `stop`, it has asked the first
questions, each instruction that was executed has moved it on, and if it runs, it can go on with any answer. -/
structure Inside (c : FramePlace) (stop : ℕ) (d : Dialogue Question Value Value Value) (s : Evaluation) (f : Frame)
    (t : Evaluation) : Prop where
  waits : c.Waits t.reached t.machine
  moved : f.ip ≤ t.reached.ip
  before : t.reached.ip < stop
  executed : t.executed + f.ip ≤ s.executed + t.reached.ip
  exchanges : ∃ l, t.exchanges = s.exchanges ++ l ∧ d.Begins l
  goes : t.machine.invocations.length = c.depth → ∀ a, ∃ t', t.step c.depth (.exec a) = some t'

/-- The end of an evaluation: with a value in register 0 at `stop`, or with an error. -/
structure Finished (c : FramePlace) (keep stop : ℕ) (s : Evaluation) (f : Frame) (l : List Exchange)
    (outcome : Except Value Value) (t : Evaluation) : Prop where
  moved : f.ip ≤ t.reached.ip
  executed : t.executed + f.ip ≤ s.executed + t.reached.ip
  exchanges : t.exchanges = s.exchanges ++ l
  since : f.Since keep t.reached
  outcome : match outcome with
    | .ok v => t.machine.invocations = c.around t.reached none ∧ t.reached.ip = stop ∧ t.reached.read 0 = some v
    | .error e => t.machine.invocations = c.around t.reached (some e) ∧ t.reached.ip ≤ stop

/-- The frame holds a dialogue, until it is at `stop` or an error is raised. -/
def Converses (c : FramePlace) (keep stop : ℕ) (d : Dialogue Question Value Value Value) (s : Evaluation)
    (f : Frame) : Prop :=
  Runs.Until (Evaluation.step c.depth) (Inside c stop d s f)
    (fun t => ∃ l outcome, d.Ends l outcome ∧ Finished c keep stop s f l outcome t) s

namespace Converses

variable {c : FramePlace} {keep keep' stop mid : ℕ} {d : Dialogue Question Value Value Value}
  {k : Value → Dialogue Question Value Value Value} {s : Evaluation} {f : Frame}

/-- The value is in register 0. -/
theorem done (hat : s.At c f) (hip : f.ip = stop) {v : Value} (hv : f.read 0 = some v) :
    Converses c keep stop (pure v) s f := by
  obtain ⟨hinvs, rfl⟩ := hat
  refine .now ⟨[], .ok v, Dialogue.ends_pure v, ?_⟩
  exact ⟨le_rfl, le_rfl, (List.append_nil _).symm, .refl _ _, hinvs, hip, hv⟩

/-- Fewer registers are kept. -/
theorem keeps (h : Converses c keep' stop d s f) (hkeep : keep ≤ keep') : Converses c keep stop d s f := by
  refine Runs.Until.mono h (fun t ht => ht) ?_
  rintro t ⟨l, outcome, hends, ht⟩
  exact ⟨l, outcome, hends, ht.moved, ht.executed, ht.exchanges, ht.since.mono hkeep, ht.outcome⟩

/-- The evaluation of the first part of a dialogue, and of the rest from its value on. -/
theorem bind (h : Converses c keep' mid d s f) (hkeep : keep ≤ keep') (hmid : mid ≤ stop)
    (hnext : ∀ v t g, t.At c g → f.Since keep' g → g.ip = mid → g.read 0 = some v →
      Converses c keep stop (k v) t g) : Converses c keep stop (d >>= k) s f := by
  have hinside : ∀ t, Inside c mid d s f t → Inside c stop (d >>= k) s f t := by
    intro t ht
    obtain ⟨l, hl, hbegins⟩ := ht.exchanges
    exact ⟨ht.waits, ht.moved, ht.before.trans_le hmid, ht.executed, ⟨l, hl, hbegins.bind⟩, ht.goes⟩
  refine (h.mono hinside fun t ht => ht).trans ?_
  rintro t ⟨l, outcome, hends, hfinished⟩
  obtain ⟨hmoved, hexecuted, hexchanges, hsince, houtcome⟩ := hfinished
  cases outcome with
  | error e =>
    obtain ⟨hinvs, hstop⟩ := houtcome
    exact .now ⟨l, .error e, hends.bind_error, hmoved, hexecuted, hexchanges, hsince.mono hkeep, hinvs,
      hstop.trans hmid⟩
  | ok v =>
    obtain ⟨hinvs, hip, hv⟩ := houtcome
    refine (hnext v t t.reached ⟨hinvs, rfl⟩ hsince hip hv).mono ?_ ?_
    · intro u hu
      obtain ⟨l', hl', hbegins⟩ := hu.exchanges
      have hexecuted' := hu.executed
      refine ⟨hu.waits, hmoved.trans hu.moved, hu.before, by omega, ⟨l ++ l', ?_, hends.begins hbegins⟩, hu.goes⟩
      rw [hl', hexchanges, List.append_assoc]
    · rintro u ⟨l', outcome, hends', hu⟩
      have hexecuted' := hu.executed
      refine ⟨l ++ l', outcome, hends.bind hends', hmoved.trans hu.moved, by omega, ?_, ?_, hu.outcome⟩
      · rw [hu.exchanges, hexchanges, List.append_assoc]
      · exact (hsince.mono hkeep).trans hu.since

end Converses

/-! ## One instruction -/

/-- What an instruction makes of a frame that has come to it, whatever the heap and the answers are. The frame may have
waited for calls, if it asks an object. -/
def Instr.Gives (i : Instr) (f : Frame) (R : Frame → Option Value → Prop) : Prop :=
  ∀ g, (g = f ∨ (i.question f).any Question.callsBack ∧ f.Answered g) → ∀ h base a, ∃ h' f' err,
    execInstr h base f.ip { g with ip := f.ip + i.encode.length } a i = some (h', f', err) ∧ R f' err

section

variable {c : FramePlace} {f : Frame} {i : Instr} {code : List UInt8} {m : Machine}

/-- The frame executes the instruction that it is at. -/
theorem step_around (hm : m.invocations = c.around f none) (hcode : f.CodeAt (i.encode ++ code)) {a : Answer}
    {h' : Heap} {f' : Frame} {err : Option Value}
    (hexec : execInstr m.heap c.invocation.stack f.ip { f with ip := f.ip + i.encode.length } a i = some (h', f', err)) :
    step m (.exec a) = some { m with heap := h', invocations := c.around f' err } := by
  have hrunning : Invocation.Running { c.invocation with frames := f :: c.frames, err := none } f := by
    have hlength := hcode.left.length_le
    rw [List.length_drop] at hlength
    have hpos := List.length_pos_of_ne_nil (Instr.encode_ne_nil i)
    exact ⟨rfl, by omega⟩
  unfold step
  rw [hm]
  dsimp only [FramePlace.around]
  rw [if_pos hrunning, hcode.fetch]
  simp only [Option.bind_eq_bind, Option.bind_some, hexec]
  rfl

/-- The other steps of a frame that runs: a call, or a keyboard interrupt. -/
theorem step_around_cases (hm : m.invocations = c.around f none) (hcode : f.CodeAt (i.encode ++ code))
    (hi : i ≠ .op .call) {input : Input} {m' : Machine} (hstep : step m input = some m') :
    (∃ a, input = .exec a) ∨ (∃ v, input = .interrupt v) ∨
      ((∃ function arguments, input = .argonCall function arguments) ∨ ∃ n, input = .runModule n) ∧
        ∃ inv, m'.invocations = inv :: m.invocations := by
  have htop : ∀ {inv : Invocation} {rest : List Invocation}, m.invocations = inv :: rest →
      inv.frames = f :: c.frames ∧ inv.err = none := by
    intro inv rest hinv
    rw [hm] at hinv
    obtain ⟨rfl, -⟩ := List.cons.inj hinv
    exact ⟨rfl, rfl⟩
  cases transition_of_step hstep with
  | exec _ _ _ _ _ => exact Or.inl ⟨_, rfl⟩
  | interrupt _ _ _ => exact Or.inr (Or.inl ⟨_, rfl⟩)
  | runModule _ _ => exact Or.inr (Or.inr ⟨Or.inr ⟨_, rfl⟩, _, rfl⟩)
  | argonCall hinv _ _ _ _ => exact Or.inr (Or.inr ⟨Or.inl ⟨_, _, rfl⟩, _, by rw [hinv]⟩)
  | leave hinv hframes _ =>
    rw [(htop hinv).1] at hframes
    cases hframes
  | call hinv hframes _ hfetch _ _ =>
    rw [(htop hinv).1] at hframes
    obtain ⟨rfl, -⟩ := List.cons.inj hframes
    rw [hcode.fetch] at hfetch
    exact absurd (Prod.mk.inj (Option.some.inj hfetch)).1 hi
  | unwind hinv hframes hrunning _ =>
    rw [(htop hinv).1] at hframes
    obtain ⟨rfl, -⟩ := List.cons.inj hframes
    have hlength := hcode.left.length_le
    rw [List.length_drop] at hlength
    -- the instruction pointer is in the bytecode, so the frame cannot be left
    have hpos := List.length_pos_of_ne_nil (Instr.encode_ne_nil i)
    exact absurd ⟨(htop hinv).2, by omega⟩ hrunning

theorem Frame.Answered.fetch {g : Frame} (h : f.Answered g) (hcode : f.CodeAt (i.encode ++ code)) :
    g.CodeAt (i.encode ++ code) ∧ g.ip = f.ip := by
  obtain ⟨registers, rfl⟩ := h.exists_registers
  exact ⟨hcode, rfl⟩

variable {s : Evaluation} {stop : ℕ} {d : Dialogue Question Value Value Value} {Q : Evaluation → Prop}

/-- While a frame waits for the calls of its instruction. -/
structure AtInstruction (c : FramePlace) (i : Instr) (s : Evaluation) (f : Frame) (t : Evaluation) : Prop where
  reached : t.reached = f
  exchanges : t.exchanges = s.exchanges
  executed : t.executed = s.executed
  waits : c.Waits f t.machine
  quiet : (i.question f).any Question.callsBack = false → t.machine.invocations = c.around f none

/-- The frame that runs when there are no calls. -/
theorem AtInstruction.running {t : Evaluation} (h : AtInstruction c i s f t)
    (hdepth : t.machine.invocations.length = c.depth) : ∃ g, t.machine.invocations = c.around g none ∧
      f.Answered g ∧ (g = f ∨ (i.question f).any Question.callsBack ∧ f.Answered g) := by
  obtain ⟨g, hm, hg⟩ := h.waits.running hdepth
  refine ⟨g, hm, hg, ?_⟩
  cases hany : (i.question f).any Question.callsBack with
  | true => exact Or.inr ⟨rfl, hg⟩
  | false =>
    have hinvs := hm.symm.trans (h.quiet hany)
    unfold FramePlace.around at hinvs
    simp only [List.cons.injEq, Invocation.mk.injEq] at hinvs
    exact Or.inl hinvs.1.1.1

/-- The instruction that a frame is at is executed. -/
theorem AtInstruction.exec {t : Evaluation} (h : AtInstruction c i s f t)
    (hdepth : t.machine.invocations.length = c.depth) (hcode : f.CodeAt (i.encode ++ code))
    {R : Frame → Option Value → Prop} (hgives : i.Gives f R) (a : Answer) :
    ∃ t' f' err, t.step c.depth (.exec a) = some t' ∧ R f' err ∧ t'.machine.invocations = c.around f' err ∧
      t'.reached = f' ∧ t'.exchanges = s.exchanges ++ i.exchange f f' err ∧ t'.executed = s.executed + 1 := by
  obtain ⟨g, hm, hanswered, hg⟩ := h.running hdepth
  obtain ⟨hcode', hip⟩ := hanswered.fetch hcode
  obtain ⟨h', f', err, hexec, hR⟩ := hgives g hg t.machine.heap c.invocation.stack a
  rw [← hip] at hexec
  have hstep := step_around hm hcode' hexec
  refine ⟨⟨{ t.machine with heap := h', invocations := c.around f' err }, f', s.exchanges ++ i.exchange f f' err,
    s.executed + 1⟩, f', err, ?_, hR, rfl, rfl, rfl, rfl⟩
  unfold Evaluation.step
  rw [hstep, Option.bind_eq_bind, Option.bind_some, if_pos hdepth]
  dsimp only
  rw [h.reached, hcode.fetch, h.exchanges, h.executed]
  rfl

/-- What is executed at an instruction, and what holds from there. -/
theorem until_exec (hat : s.At c f) (hcode : f.CodeAt (i.encode ++ code)) (hstop : f.ip + i.encode.length ≤ stop)
    (hi : i ≠ .op .call) {R : Frame → Option Value → Prop} (hgives : i.Gives f R)
    (hnext : ∀ f' err t, R f' err → t.machine.invocations = c.around f' err → t.reached = f' →
      t.exchanges = s.exchanges ++ i.exchange f f' err → t.executed = s.executed + 1 →
        Runs.Until (Evaluation.step c.depth) (Inside c stop d s f) Q t) :
    Runs.Until (Evaluation.step c.depth) (Inside c stop d s f) Q s := by
  have hpos := List.length_pos_of_ne_nil (Instr.encode_ne_nil i)
  have hfetch := hcode.fetch
  refine .loop (I := AtInstruction c i s f) ?_ ?_ ?_
  · intro t ht
    have hreached := ht.reached
    refine ⟨hreached ▸ ht.waits, hreached ▸ le_rfl, by rw [hreached]; omega, ?_, ⟨[], ?_, d.begins_nil⟩, ?_⟩
    · rw [hreached, ht.executed]
    · rw [ht.exchanges, List.append_nil]
    · intro hdepth a
      obtain ⟨t', -, -, hstep, -⟩ := ht.exec hdepth hcode hgives a
      exact ⟨t', hstep⟩
  · intro t input t' ht hstep
    by_cases hdepth : t.machine.invocations.length = c.depth
    · -- The frame runs: it executes the instruction, or a call is made that it waits for.
      obtain ⟨g, hm, hanswered, -⟩ := ht.running hdepth
      have hcall : ∀ {inv : Invocation}, t'.machine.invocations = inv :: t.machine.invocations →
          (if t.asks.any Question.callsBack then some { t with machine := t'.machine } else none) = some t' →
            AtInstruction c i s f t' := by
        intro inv hinvs hif
        split at hif
        case isFalse => cases hif
        case isTrue hasks =>
          have hany : (i.question f).any Question.callsBack = true := by
            unfold Evaluation.asks at hasks
            rw [ht.reached, hfetch] at hasks
            exact hasks
          rw [← Option.some.inj hif]
          exact ⟨ht.reached, ht.exchanges, ht.executed, ht.waits.push hinvs, fun h => by rw [hany] at h; cases h⟩
      have hmachine := Evaluation.machine_step hstep
      rcases step_around_cases hm (hanswered.fetch hcode).1 hi hmachine with
        ⟨a, rfl⟩ | ⟨v, rfl⟩ | ⟨hinput, inv, hinvs⟩
      · obtain ⟨u, f', err, hu, hR, hinvs, hreached, hexchanges, hexecuted⟩ := ht.exec hdepth hcode hgives a
        cases hstep.symm.trans hu
        exact Or.inr (hnext f' err _ hR hinvs hreached hexchanges hexecuted)
      · unfold Evaluation.step at hstep
        rw [hmachine, Option.bind_eq_bind, Option.bind_some, if_pos hdepth] at hstep
        cases hstep
      · refine Or.inl (hcall hinvs ?_)
        unfold Evaluation.step at hstep
        rw [hmachine, Option.bind_eq_bind, Option.bind_some, if_pos hdepth] at hstep
        rcases hinput with ⟨function, arguments, rfl⟩ | ⟨n, rfl⟩
        · exact hstep
        · exact hstep
    · -- A call runs.
      have hmachine := Evaluation.machine_step hstep
      have ht' : t' = { t with machine := t'.machine } := by
        unfold Evaluation.step at hstep
        rw [hmachine, Option.bind_eq_bind, Option.bind_some, if_neg hdepth] at hstep
        exact (Option.some.inj hstep).symm
      have hquiet : (i.question f).any Question.callsBack = true := by
        by_contra hany
        rw [Bool.not_eq_true] at hany
        exact hdepth (by rw [ht.quiet hany]; rfl)
      rw [ht']
      refine Or.inl ⟨ht.reached, ht.exchanges, ht.executed, ht.waits.step hdepth hmachine, fun h => ?_⟩
      rw [hquiet] at h
      cases h
  · exact ⟨hat.reached, rfl, rfl, .of_around hat.invocations, fun _ => hat.invocations⟩

variable {keep : ℕ} {R : Frame → Option Value → Prop}

/-- An instruction that asks nothing, and the dialogue from there. -/
theorem Converses.quiet (hat : s.At c f) (hcode : f.CodeAt (i.encode ++ code))
    (hstop : f.ip + i.encode.length ≤ stop) (hi : i ≠ .op .call) (hquestion : i.question f = none)
    (hgives : i.Gives f R) (hR : ∀ g err, R g err → err = none ∧ f.Since keep g ∧ f.ip < g.ip)
    (hnext : ∀ t g, t.At c g → R g none → Converses c keep stop d t g) : Converses c keep stop d s f := by
  refine until_exec hat hcode hstop hi hgives ?_
  intro g err t hRg hinvs hreached hexchanges hexecuted
  obtain ⟨rfl, hsince, hip⟩ := hR g err hRg
  have hnothing : i.exchange f g none = [] := by
    unfold Instr.exchange
    rw [hquestion]
  rw [hnothing, List.append_nil] at hexchanges
  refine (hnext t g ⟨hinvs, hreached⟩ hRg).mono ?_ ?_
  · intro u hu
    have hexecuted' := hu.executed
    refine ⟨hu.waits, hip.le.trans hu.moved, hu.before, by omega, ?_, hu.goes⟩
    rw [← hexchanges]
    exact hu.exchanges
  · rintro u ⟨l, outcome, hends, hu⟩
    have hexecuted' := hu.executed
    exact ⟨l, outcome, hends, hip.le.trans hu.moved, by omega, hexchanges ▸ hu.exchanges, hsince.trans hu.since,
      hu.outcome⟩

/-- An instruction that asks a question, and the dialogue from its answer on. -/
theorem Converses.ask {q : Question} {k : Value → Dialogue Question Value Value Value} (hat : s.At c f)
    (hcode : f.CodeAt (i.encode ++ code)) (hstop : f.ip + i.encode.length ≤ stop) (hi : i ≠ .op .call)
    (hquestion : i.question f = some q) (hgives : i.Gives f R)
    (hR : ∀ g err, R g err → f.Since keep g ∧ f.ip < g.ip ∧ g.ip ≤ stop ∧ ∃ v, g.read i.answerRegister = some v)
    (hnext : ∀ t g v, t.At c g → R g none → g.read i.answerRegister = some v → Converses c keep stop (k v) t g) :
    Converses c keep stop (Dialogue.question q >>= k) s f := by
  refine until_exec hat hcode hstop hi hgives ?_
  intro g err t hRg hinvs hreached hexchanges hexecuted
  obtain ⟨hsince, hip, hgstop, v, hv⟩ := hR g err hRg
  cases err with
  -- the answer is an error, which ends the dialogue here
  | some e =>
    have hexchange : i.exchange f g (some e) = [(q, .error e)] := by
      unfold Instr.exchange
      rw [hquestion]
    rw [hexchange] at hexchanges
    refine .now ⟨[(q, .error e)], .error e, (Dialogue.ends_question q _).bind_error, ?_⟩
    exact ⟨hreached ▸ hip.le, by rw [hreached]; omega, hexchanges, hreached ▸ hsince, hreached ▸ hinvs, hreached ▸ hgstop⟩
  | none =>
    have hexchange : i.exchange f g none = [(q, .ok v)] := by
      unfold Instr.exchange
      rw [hquestion, hv]
    have hends : (Dialogue.question q : Dialogue Question Value Value Value).Ends [(q, .ok v)] (.ok v) :=
      Dialogue.ends_question q _
    rw [hexchange] at hexchanges
    -- what holds inside and at the end of the rest, with the exchange in front of its own
    refine (hnext t g v ⟨hinvs, hreached⟩ hRg hv).mono ?_ ?_
    · intro u hu
      have hexecuted' := hu.executed
      obtain ⟨l, hl, hbegins⟩ := hu.exchanges
      refine ⟨hu.waits, hip.le.trans hu.moved, hu.before, by omega, ⟨(q, .ok v) :: l, ?_, hends.begins hbegins⟩, hu.goes⟩
      rw [hl, hexchanges, List.append_assoc]
      rfl
    · rintro u ⟨l, outcome, hends', hu⟩
      have hexecuted' := hu.executed
      refine ⟨(q, .ok v) :: l, outcome, hends.bind hends', hip.le.trans hu.moved, by omega, ?_,
        hsince.trans hu.since, hu.outcome⟩
      rw [hu.exchanges, hexchanges, List.append_assoc]
      rfl

end

end Chloride
