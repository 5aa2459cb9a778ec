import Chloride.Containers.Runs
import Chloride.Runtime.Exec

/-!
# The virtual machine

A state of the whole machine: the heap and the C stack of `runtime` calls, each with its own frames.
Frames come and go in three ways. `OP_CALL` pushes the frame of an Argon function on the frames of the
same `runtime` (`run_call` without `CStackFrame`); a handler that calls an Argon function through
`argon_call`, or runs a module it imports, starts a `runtime` of its own; and the end of the code or
an error unwinds.

What comes from outside is the input of a step: the answers of objects, which function a call
resolves to and how its arguments are bound, when a handler calls back, and interrupts. A handler that
calls back does so before it takes its effect; its own answer is free.
-/

namespace Chloride

/-- A `runtime` call on the C stack: its frames, the running one first, its `err`, the scope it was
started with, and what its first frame left in register 0. `returns` tells whether that goes to
register 0 of the caller (`argon_call`). -/
structure Invocation where
  frames : List Frame
  err : Option Value
  stack : List ℕ
  result : Value
  returns : Bool
  deriving DecidableEq

/-- A state of the machine: the translated modules it can run, the heap, and the C stack. -/
structure Machine where
  modules : List Module
  heap : Heap
  invocations : List Invocation
  deriving DecidableEq

/-- The input of a step. -/
inductive Input where
  /-- The next instruction runs, with the answer of the objects it asks. -/
  | exec (a : Answer)
  /-- `OP_CALL` resolves to an Argon function, with its arguments bound. -/
  | call (function : ℕ) (arguments : List (UInt64 × Value))
  /-- The handler of the next instruction calls an Argon function. -/
  | argonCall (function : ℕ) (arguments : List (UInt64 × Value))
  /-- The program starts with a module, or the handler of the next instruction runs one. -/
  | runModule (module : ℕ)
  /-- A `runtime` call that has no frames left returns. -/
  | leave
  /-- A keyboard interrupt is noticed. -/
  | interrupt (instance_ : Value)
  /-- The inner loop has ended: an error is raised, or the code is at its end. -/
  | unwind
  deriving DecidableEq

/-- `MAX_C_STACK_LIMIT`. -/
def maxCStackLimit : ℕ := 64

/-- The condition of the inner loop. -/
def Invocation.Running (inv : Invocation) (f : Frame) : Prop :=
  inv.err = none ∧ f.ip < f.bytecode.length

instance (inv : Invocation) (f : Frame) : Decidable (inv.Running f) :=
  inferInstanceAs (Decidable (_ ∧ _))

/-- The instruction the frame is at, and the frame behind it. -/
def Frame.fetch (f : Frame) : Option (Instr × Frame) :=
  (decode (f.bytecode.drop f.ip)).map fun (i, rest) =>
    (i, { f with ip := f.bytecode.length - rest.length })

/-- A new frame of a function, in a new scope that holds its arguments. -/
def FunctionObject.frame (fn : FunctionObject) (h : Heap) (cache cDepth : ℕ) : Frame where
  id := h.frames
  module := fn.module
  bytecode := fn.bytecode
  registers := List.replicate fn.module.registerCount .null
  ip := 0
  callInstance := []
  catchErrors := []
  loadNumberCache := cache
  cDepth := cDepth
  stack := h.scopes.length :: fn.stack
  sourceLocation := ⟨0, 0, 0⟩

/-- The heap with the new frame and its scope. -/
def Heap.enter (h : Heap) (arguments : List (UInt64 × Value)) : Heap :=
  { h with scopes := h.scopes ++ [arguments], frames := h.frames + 1 }

/-- The first frame of a module, in a new scope on the global one (place 0), with a number cache of
its own: `init_runtime_state`. -/
def Module.frame (m : Module) (h : Heap) : Frame where
  id := h.frames
  module := m
  bytecode := m.bytecode
  registers := List.replicate m.registerCount .null
  ip := 0
  callInstance := []
  catchErrors := []
  loadNumberCache := h.caches.length
  cDepth := 0
  stack := [h.scopes.length, 0]
  sourceLocation := ⟨0, 0, 0⟩

/-- The heap with the first frame of a module. -/
def Heap.enterModule (h : Heap) : Heap :=
  { h with scopes := h.scopes ++ [[]], caches := h.caches ++ [[]], frames := h.frames + 1 }

/-- The end of the outer loop of `runtime`: the last catcher of the running frame takes the error, or
the frame is dropped and register 0 passed down. A catcher names the frame it was pushed in. -/
def Invocation.unwind (inv : Invocation) : Option Invocation :=
  match inv.frames with
  | [] => none
  | f :: below =>
    match inv.err, f.catchErrors with
    | some e, errCatch :: catchErrors =>
      let frames := { f with catchErrors := catchErrors } :: below
      match frames.dropWhile fun g => g.id ≠ errCatch.stackFrame with
      | [] => none
      | g :: rest => do
        let g ← g.write 0 e
        return { inv with
          frames := { g with
            stack := errCatch.stack
            callInstance := errCatch.callInstance
            ip := errCatch.jumpTo } :: rest
          err := none }
    | _, _ => do
      let result ← f.read 0
      match below with
      | [] => return { inv with frames := [], result := result }
      | g :: rest => return { inv with frames := (← g.write 0 result) :: rest }

/-- One step of the machine. -/
def step (m : Machine) (input : Input) : Option Machine :=
  match input, m.invocations with
  | .runModule module, [] => do
    let module ← m.modules[module]?
    let f := module.frame m.heap
    return { m with
      heap := m.heap.enterModule
      invocations := [⟨[f], none, f.stack, .null, false⟩] }
  | _, [] => none
  | .leave, inv :: rest =>
    match inv.frames, rest with
    | [], [] => some { m with invocations := [] }
    | [], caller :: rest =>
      match inv.returns, caller.frames with
      | true, f :: frames => do
        let f ← f.write 0 inv.result
        return { m with invocations := { caller with frames := f :: frames } :: rest }
      | _, _ => some { m with invocations := caller :: rest }
    | _ :: _, _ => none
  | input, inv :: rest =>
    match inv.frames with
    | [] => none
    | f :: frames =>
      if inv.Running f then
        match input with
        | .exec a => do
          let (i, f₁) ← f.fetch
          let (heap, f', err) ← execInstr m.heap inv.stack f.ip f₁ a i
          return { m with
            heap := heap
            invocations := { inv with frames := f' :: frames, err := err } :: rest }
        | .call function arguments => do
          let (i, f₁) ← f.fetch
          let fn ← m.heap.functions[function]?
          match i, f.callInstance with
          | .op .call, _ :: previous =>
            let callee := fn.frame m.heap f.loadNumberCache f.cDepth
            return { m with
              heap := m.heap.enter arguments
              invocations := { inv with
                frames := callee :: { f₁ with callInstance := previous } :: frames } :: rest }
          | _, _ => none
        | .argonCall function arguments => do
          let fn ← m.heap.functions[function]?
          if maxCStackLimit ≤ f.cDepth then none
          else
            let callee := fn.frame m.heap f.loadNumberCache (f.cDepth + 1)
            return { m with
              heap := m.heap.enter arguments
              invocations := ⟨[callee], none, callee.stack, .null, true⟩ :: inv :: rest }
        | .runModule module => do
          let module ← m.modules[module]?
          let f := module.frame m.heap
          return { m with
            heap := m.heap.enterModule
            invocations := ⟨[f], none, f.stack, .null, false⟩ :: inv :: rest }
        | .interrupt instance_ =>
          some { m with invocations := { inv with err := some instance_ } :: rest }
        | _ => none
      else
        match input with
        | .unwind => do return { m with invocations := (← inv.unwind) :: rest }
        | _ => none

/-- The machine with its modules and the names of the global scope. -/
def Machine.start (modules : List Module) (globals : List (UInt64 × Value)) : Machine where
  modules := modules
  heap := { scopes := [globals], calls := [], functions := [], caches := [], frames := 0 }
  invocations := []

/-- The states a machine can get to. -/
def Machine.Reachable (modules : List Module) (m : Machine) : Prop :=
  Runs.Reachable step (fun m => ∃ globals, m = Machine.start modules globals) m

/-! ## What a step can do -/

/-- The C stack below a `runtime` call that returns: the frame that waits for the answer of
`argon_call` gets it in register 0. -/
inductive Leave (result : Value) : Bool → List Invocation → List Invocation → Prop where
  | empty {returns : Bool} : Leave result returns [] []
  | keep {returns : Bool} {caller : Invocation} {rest : List Invocation} :
    Leave result returns (caller :: rest) (caller :: rest)
  | answer {caller : Invocation} {rest : List Invocation} {f f' : Frame} {frames : List Frame} :
    caller.frames = f :: frames → f.write 0 result = some f' →
      Leave result true (caller :: rest) ({ caller with frames := f' :: frames } :: rest)

/-- The ways a step changes the machine. -/
inductive Transition (m : Machine) : Input → Machine → Prop where
  | runModule {n : ℕ} {module : Module} : module ∈ m.modules →
    (m.invocations = [] ∨ ∃ inv rest f frames,
      m.invocations = inv :: rest ∧ inv.frames = f :: frames ∧ inv.Running f) →
    Transition m (.runModule n) { m with
      heap := m.heap.enterModule
      invocations := ⟨[module.frame m.heap], none, (module.frame m.heap).stack, .null, false⟩ ::
        m.invocations }
  | leave {inv : Invocation} {rest rest' : List Invocation} : m.invocations = inv :: rest →
    inv.frames = [] → Leave inv.result inv.returns rest rest' →
    Transition m .leave { m with invocations := rest' }
  | exec {inv : Invocation} {rest : List Invocation} {f f₁ f' : Frame} {frames : List Frame}
      {a : Answer} {i : Instr} {heap : Heap} {err : Option Value} :
    m.invocations = inv :: rest → inv.frames = f :: frames → inv.Running f →
    f.fetch = some (i, f₁) → execInstr m.heap inv.stack f.ip f₁ a i = some (heap, f', err) →
    Transition m (.exec a) { m with
      heap := heap
      invocations := { inv with frames := f' :: frames, err := err } :: rest }
  | call {inv : Invocation} {rest : List Invocation} {f f₁ : Frame} {frames : List Frame}
      {fn : FunctionObject} {n : ℕ} {arguments : List (UInt64 × Value)} {id : ℕ}
      {previous : List ℕ} :
    m.invocations = inv :: rest → inv.frames = f :: frames → inv.Running f →
    f.fetch = some (.op .call, f₁) → fn ∈ m.heap.functions → f.callInstance = id :: previous →
    Transition m (.call n arguments) { m with
      heap := m.heap.enter arguments
      invocations := { inv with
        frames := fn.frame m.heap f.loadNumberCache f.cDepth ::
          { f₁ with callInstance := previous } :: frames } :: rest }
  | argonCall {inv : Invocation} {rest : List Invocation} {f : Frame} {frames : List Frame}
      {fn : FunctionObject} {n : ℕ} {arguments : List (UInt64 × Value)} :
    m.invocations = inv :: rest → inv.frames = f :: frames → inv.Running f →
    fn ∈ m.heap.functions → f.cDepth < maxCStackLimit →
    Transition m (.argonCall n arguments) { m with
      heap := m.heap.enter arguments
      invocations := ⟨[fn.frame m.heap f.loadNumberCache (f.cDepth + 1)], none,
        (fn.frame m.heap f.loadNumberCache (f.cDepth + 1)).stack, .null, true⟩ :: inv :: rest }
  | interrupt {inv : Invocation} {rest : List Invocation} {f : Frame} {frames : List Frame}
      {instance_ : Value} :
    m.invocations = inv :: rest → inv.frames = f :: frames → inv.Running f →
    Transition m (.interrupt instance_)
      { m with invocations := { inv with err := some instance_ } :: rest }
  | unwind {inv inv' : Invocation} {rest : List Invocation} {f : Frame} {frames : List Frame} :
    m.invocations = inv :: rest → inv.frames = f :: frames → ¬inv.Running f →
    inv.unwind = some inv' → Transition m .unwind { m with invocations := inv' :: rest }

/-- Every step is one of these. -/
theorem transition_of_step {m m' : Machine} {input : Input} (h : step m input = some m') :
    Transition m input m' := by
  unfold step at h
  split at h
  -- The program is started.
  case h_1 module hinvs =>
    simp only [Option.bind_eq_bind, Option.bind_eq_some_iff, Option.pure_def,
      Option.some.injEq] at h
    obtain ⟨md, hmd, rfl⟩ := h
    have ht : Transition m (.runModule module) _ :=
      Transition.runModule (List.mem_of_getElem? hmd) (Or.inl hinvs)
    rw [hinvs] at ht
    exact ht
  case h_2 => cases h
  -- A `runtime` call without frames returns.
  case h_3 inv rest hinvs =>
    split at h
    case h_1 hframes =>
      cases h
      exact Transition.leave hinvs hframes Leave.empty
    case h_2 caller rest' hframes =>
      split at h
      case h_1 f frames hreturns hcaller =>
        simp only [Option.bind_eq_bind, Option.bind_eq_some_iff, Option.pure_def,
          Option.some.injEq] at h
        obtain ⟨f', hf', rfl⟩ := h
        exact Transition.leave hinvs hframes (by rw [hreturns]; exact Leave.answer hcaller hf')
      case h_2 =>
        cases h
        exact Transition.leave hinvs hframes Leave.keep
    case h_3 => cases h
  -- A `runtime` call with a frame goes on with it.
  case h_4 inv rest hleave hinvs =>
    split at h
    case h_1 => cases h
    case h_2 f frames hframes =>
      split at h
      -- The frame runs.
      case isTrue hrun =>
        split at h
        case h_1 a =>
          simp only [Option.bind_eq_bind, Option.bind_eq_some_iff, Option.pure_def,
            Option.some.injEq] at h
          obtain ⟨⟨i, f₁⟩, hfetch, ⟨heap, f', err⟩, hexec, rfl⟩ := h
          exact Transition.exec hinvs hframes hrun hfetch hexec
        case h_2 function arguments =>
          simp only [Option.bind_eq_bind, Option.bind_eq_some_iff] at h
          obtain ⟨⟨i, f₁⟩, hfetch, fn, hfn, h⟩ := h
          dsimp only at h hfetch
          split at h
          case h_1 id previous hcalls =>
            cases h
            exact Transition.call hinvs hframes hrun hfetch (List.mem_of_getElem? hfn) hcalls
          case h_2 => cases h
        case h_3 function arguments =>
          simp only [Option.bind_eq_bind, Option.bind_eq_some_iff] at h
          obtain ⟨fn, hfn, h⟩ := h
          split at h
          · cases h
          case isFalse hdepth =>
            cases h
            exact Transition.argonCall hinvs hframes hrun (List.mem_of_getElem? hfn)
              (Nat.lt_of_not_le hdepth)
        case h_4 module =>
          simp only [Option.bind_eq_bind, Option.bind_eq_some_iff, Option.pure_def,
            Option.some.injEq] at h
          obtain ⟨md, hmd, rfl⟩ := h
          have ht : Transition m (.runModule module) _ := Transition.runModule (List.mem_of_getElem? hmd)
            (Or.inr ⟨inv, rest, f, frames, hinvs, hframes, hrun⟩)
          rw [hinvs] at ht
          exact ht
        case h_5 instance_ =>
          cases h
          exact Transition.interrupt hinvs hframes hrun
        case h_6 => cases h
      -- The frame is unwound.
      case isFalse hrun =>
        split at h
        case h_1 =>
          simp only [Option.bind_eq_bind, Option.bind_eq_some_iff, Option.pure_def,
            Option.some.injEq] at h
          obtain ⟨inv', hinv', rfl⟩ := h
          exact Transition.unwind hinvs hframes hrun hinv'
        case h_2 => cases h

end Chloride
