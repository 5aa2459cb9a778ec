import Chloride.Runtime.State

/-!
# The handlers of the dispatch loop

`execInstr` is the handler of an instruction in the frame that runs it: the `DO_` labels of
`runtime` in `src/runtime/runtime.c`, with `runtime_declaration`, `runtime_assignment`,
`load_variable` and `delete_variable`. It gives the heap and the frame afterwards and the error that
was raised, and `none` where the source reads or writes outside of its arrays or follows a null
pointer. A handler that only moves objects is computed; where it asks an object, the answer is used.
-/

namespace Chloride

/-- The operations that put what an object answers in register 0 and can fail. -/
def Op.raises : Op → Bool
  | .bool | .loadGetattributeMethod | .negation | .loadSetattrMethod | .loadDelattrMethod
  | .loadGetitemMethod | .loadSetitemMethod | .loadDelitemMethod | .opImport | .loadIterMethod
  | .loadNextMethod | .loadTemplateMethod => true
  | _ => false

/-- What calls made by a handler leave in register 0 (`argon_call` answers through it). -/
def Frame.clobber (f : Frame) (a : Answer) : Option Frame :=
  match a.register0 with
  | none => some f
  | some v => f.write 0 v

/-- Append arguments to the call instance at the head of the list. -/
def Heap.pushArgs (h : Heap) (callInstance : List ℕ) (items : List Value) : Option Heap :=
  match items, callInstance with
  | [], _ => some h
  | _ :: _, [] => none
  | _ :: _, id :: _ =>
    some { h with calls := h.calls.modify id fun c => { c with args := c.args ++ items } }

/-- Insert keyword arguments in the call instance at the head of the list. -/
def Heap.putKwargs (h : Heap) (callInstance : List ℕ) (entries : List (UInt64 × Value)) :
    Option Heap :=
  match callInstance with
  | [] => none
  | id :: _ =>
    some { h with
      calls := h.calls.modify id fun c =>
        { c with kwargs := entries.foldl (fun kwargs e => put kwargs e.1 e.2) c.kwargs } }

/-- The handlers without operands. -/
def execOp (h : Heap) (base : List ℕ) (f : Frame) (a : Answer) :
    Op → Option (Heap × Frame × Option Value)
  | .bool => do
    match ← f.read 0 with
    | .bool _ => return (h, f, none)
    | _ => return (h, ← f.write 0 a.value, a.err)
  | .newScope =>
    some ({ h with scopes := h.scopes ++ [[]] }, { f with stack := h.scopes.length :: f.stack }, none)
  | .emptyScope =>
    match f.stack with
    | [] => none
    | id :: _ => some (h.setScope id [], f, none)
  | .popScope =>
    match f.stack with
    | [] => none
    | _ :: prev => some (h, { f with stack := prev }, none)
  | .call =>
    match f.callInstance with
    | [] => none
    | _ :: previous => do
      return (h, { ← f.clobber a with callInstance := previous }, a.err)
  | .not => do
    return (h, ← f.write 0 (.bool ((← f.read 0) = .bool false)), none)
  | .exposeAll =>
    match base with
    | [] => none
    | id :: _ =>
      some (h.setScope id (a.entries.foldl (fun vars e => put vars e.1 e.2) (h.scope id)), f, none)
  | .makeRangeInclusive => some (h, f, none)
  | .throw | .quietThrow => do
    let value ← f.read 0
    return (h, f, some (a.err.getD value))
  | .exceptionCatcherPop => some (h, { f with catchErrors := f.catchErrors.tail }, none)
  | .unpackArgs => do
    return (← h.pushArgs f.callInstance a.items, ← f.clobber a, a.err)
  | .unpackKeyWordArgs => do
    return (← h.putKwargs f.callInstance a.entries, ← f.clobber a, a.err)
  | o => do
    return (h, ← f.write 0 a.value, if o.raises then a.err else none)

/-- `DO_LOAD_NUMBER`: a literal that is not a 64-bit integer is looked up in the number cache of the
frame first, and cached when it is not found. -/
def execLoadNumber (h : Heap) (f : Frame) (toRegister : UInt8) (number : NumberOperand) :
    Option (Heap × Frame × Option Value) :=
  match number.cacheKey with
  | none => do
    let n ← f.module.numberAt number
    return (h, ← f.write toRegister (.number n), none)
  | some key =>
    match find (h.caches.getD f.loadNumberCache []) key with
    | some n => do return (h, ← f.write toRegister (.number n), none)
    | none => do
      let n ← f.module.numberAt number
      let f ← f.write toRegister (.number n)
      return ({ h with caches := h.caches.modify f.loadNumberCache fun c => put c key n }, f, none)

/-- The handler of an instruction; `site` is the offset of the instruction, and the frame's
instruction pointer is already behind it. -/
def execInstr (h : Heap) (base : List ℕ) (site : ℕ) (f : Frame) (a : Answer) :
    Instr → Option (Heap × Frame × Option Value)
  | .op o => execOp h base f a o
  | .binary _ registerA registerB registerC => do
    let _ ← f.read registerA
    let _ ← f.read registerB
    return (h, ← (← f.clobber a).write registerC a.value, a.err)
  | .loadString toRegister length offset _ => do
    return (h, ← f.write toRegister (.string (← f.module.arenaGet offset length)), none)
  | .declare _ _ hash fromRegister => do
    let value ← f.read fromRegister
    match f.stack with
    | [] => none
    | id :: _ =>
      let err := if (find (h.scope id) hash).isSome then some a.exception else none
      return (h.setScope id (put (h.scope id) hash value), f, err)
  | .assign _ _ hash fromRegister => do
    let value ← f.read fromRegister
    match h.resolve f.stack hash, f.stack with
    | some (id, _), _ => return (h.setScope id (put (h.scope id) hash value), f, none)
    | none, id :: _ => return (h.setScope id (put (h.scope id) hash value), f, none)
    | none, [] => none
  | .loadNull toRegister => do return (h, ← f.write toRegister .null, none)
  | .loadFunction offset length bytecodeOffset bytecodeLength _ _ => do
    let _ ← f.module.arenaGet offset length
    let bytecode ← f.module.arenaGet bytecodeOffset bytecodeLength
    let function : FunctionObject := { module := f.module, bytecode := bytecode, stack := f.stack }
    return ({ h with functions := h.functions ++ [function] },
      ← f.write 0 (.function h.functions.length), none)
  | .setFunctionParameter .. | .setFunctionPositionalParameter ..
  | .setFunctionKeyWordParameter .. => do
    match ← f.read 0 with
    | .function _ => return (h, f, none)
    | _ => none
  | .setFunctionDefaultParameter funcRegister .. => do
    match ← f.read funcRegister with
    | .function _ => return (h, f, none)
    | _ => none
  | .identifier _ _ hash =>
    match h.resolve f.stack hash with
    | some (_, value) => do return (h, ← f.write 0 value, none)
    | none => some (h, f, some a.exception)
  | .deleteIdentifier _ _ hash =>
    match h.resolve f.stack hash with
    | some (id, _) => some (h.setScope id ((h.scope id).filter fun e => e.1 ≠ hash), f, none)
    | none => some (h, f, some a.exception)
  | .jumpIfFalse fromRegister target => do
    let value ← f.read fromRegister
    return (h, if value = .bool false then { f with ip := target.toNat } else f, none)
  | .jump target => some (h, { f with ip := target.toNat }, none)
  | .initCall length => do
    let call : CallInstance :=
      { site := site
        toCall := ← f.read 0
        args := List.replicate length.toNat .null
        kwargs := [] }
    return ({ h with calls := h.calls ++ [call] },
      { f with callInstance := h.calls.length :: f.callInstance }, none)
  | .insertArg index => do
    let value ← f.read 0
    match f.callInstance with
    | [] => none
    | id :: _ =>
      let call ← h.calls[id]?
      if index.toNat < call.args.length then
        return ({ h with calls := h.calls.set id { call with args := call.args.set index.toNat value } },
          f, none)
      else none
  | .setKeyWordArg _ _ hash => do
    return (← h.putKwargs f.callInstance [(hash, ← f.read 0)], f, none)
  | .sourceLocation line column length =>
    some (h, { f with sourceLocation := ⟨line, column, length⟩ }, none)
  | .loadBool value => do return (h, ← f.write 0 (.bool value), none)
  | .loadNumber toRegister number => execLoadNumber h f toRegister number
  | .copyToRegister fromRegister toRegister => do
    return (h, ← f.write toRegister (← f.read fromRegister), none)
  | .createClass .. => do return (h, ← f.write 0 a.value, none)
  | .expose .. =>
    match a.err with
    | some e => some (h, f, some e)
    | none => do return (h, ← f.write 0 a.value, none)
  | .forLoopJump iterator iteratorNext => do
    let _ ← f.read iterator
    let _ ← f.read iteratorNext
    return (h, ← f.write 0 a.value, a.err)
  | .exceptionCatcherPush jumpTo =>
    let errCatch : ErrorCatch :=
      { jumpTo := jumpTo.toNat
        stack := f.stack
        stackFrame := f.id
        callInstance := f.callInstance }
    some (h, { f with catchErrors := errCatch :: f.catchErrors }, none)
  | .destructureError _ gotRegister => do
    let _ ← f.read gotRegister
    return (h, f, some a.exception)
  | .unpackIterator next => do
    let _ ← f.read next
    return (← h.pushArgs f.callInstance a.items, ← f.clobber a, a.err)

/-! ## What a handler can do to the control state

The scope chain, the call instances, the catchers and the instruction pointer of a frame change in
few ways, and everything else that places the frame does not change at all. -/

/-- The scope chain after an instruction; `fresh` is the place of the next scope. -/
def Instr.stackAfter (fresh : ℕ) (stack : List ℕ) : Instr → List ℕ
  | .op .newScope => fresh :: stack
  | .op .popScope => stack.tail
  | _ => stack

/-- The call instances after an instruction; `fresh` is the place of the next call instance. -/
def Instr.callsAfter (fresh : ℕ) (calls : List ℕ) : Instr → List ℕ
  | .initCall _ => fresh :: calls
  | .op .call => calls.tail
  | _ => calls

/-- The catchers of a frame after an instruction. -/
def Instr.catchersAfter (f : Frame) : Instr → List ErrorCatch
  | .exceptionCatcherPush jumpTo => ⟨jumpTo.toNat, f.stack, f.id, f.callInstance⟩ :: f.catchErrors
  | .op .exceptionCatcherPop => f.catchErrors.tail
  | _ => f.catchErrors

/-- The targets an instruction can set the instruction pointer to. -/
def Instr.target : Instr → Option UInt64
  | .jump target => some target
  | .jumpIfFalse _ target => some target
  | _ => none

/-- The function an instruction makes, if any: the one of `OP_LOAD_FUNCTION`, of the module that runs
and in the scope that runs. -/
def Instr.functionsAfter (f : Frame) (functions : List FunctionObject) :
    Instr → List FunctionObject
  | .loadFunction _ _ bytecodeOffset bytecodeLength _ _ =>
    match f.module.arenaGet bytecodeOffset bytecodeLength with
    | some bytecode => functions ++ [⟨f.module, bytecode, f.stack⟩]
    | none => functions
  | _ => functions

/-- The sites of the call instances after an instruction. -/
def Instr.sitesAfter (site : ℕ) (sites : List ℕ) : Instr → List ℕ
  | .initCall _ => sites ++ [site]
  | _ => sites

/-- The number of scopes after an instruction. -/
def Instr.scopesAfter (scopes : ℕ) : Instr → ℕ
  | .op .newScope => scopes + 1
  | _ => scopes

/-- The number caches after an instruction: a literal that was not found is cached. -/
def Instr.cachesAfter (f : Frame) (caches : List (List (UInt64 × Number))) :
    Instr → List (List (UInt64 × Number))
  | .loadNumber _ number =>
    match number.cacheKey, f.module.numberAt number with
    | some key, some n =>
      match find (caches.getD f.loadNumberCache []) key with
      | some _ => caches
      | none => caches.modify f.loadNumberCache fun c => put c key n
    | _, _ => caches
  | _ => caches

theorem Instr.length_cachesAfter (f : Frame) (caches : List (List (UInt64 × Number))) (i : Instr) :
    (i.cachesAfter f caches).length = caches.length := by
  unfold Instr.cachesAfter
  split
  · split
    · split
      · rfl
      · exact List.length_modify _ _ _
    · rfl
  · rfl

/-- The sites of the call instances there are. -/
def Heap.sites (h : Heap) : List ℕ := h.calls.map CallInstance.site

/-- What an instruction that was executed did to its frame, and which things there are in the heap
afterwards. -/
structure Control (site : ℕ) (h h' : Heap) (f f' : Frame) (i : Instr) : Prop where
  id : f'.id = f.id
  module : f'.module = f.module
  bytecode : f'.bytecode = f.bytecode
  cache : f'.loadNumberCache = f.loadNumberCache
  cDepth : f'.cDepth = f.cDepth
  registers : f'.registers.length = f.registers.length
  stack : f'.stack = i.stackAfter h.scopes.length f.stack
  calls : f'.callInstance = i.callsAfter h.calls.length f.callInstance
  catchers : f'.catchErrors = i.catchersAfter f
  ip : f'.ip = f.ip ∨ ∃ target, i.target = some target ∧ f'.ip = target.toNat
  frames : h'.frames = h.frames
  scopes : h'.scopes.length = i.scopesAfter h.scopes.length
  functions : h'.functions = i.functionsAfter f h.functions
  sites : h'.sites = i.sitesAfter site h.sites
  caches : h'.caches = i.cachesAfter f h.caches

/-- The scopes after an instruction: a new one, one with a variable more or less, or an empty one. -/
def Instr.scopesWritten (h : Heap) (base : List ℕ) (f : Frame) (a : Answer) :
    Instr → List (List (UInt64 × Value))
  | .op .newScope => h.scopes ++ [[]]
  | .op .emptyScope =>
    match f.stack with
    | [] => h.scopes
    | id :: _ => (h.setScope id []).scopes
  | .op .exposeAll =>
    match base with
    | [] => h.scopes
    | id :: _ =>
      (h.setScope id (a.entries.foldl (fun vars e => put vars e.1 e.2) (h.scope id))).scopes
  | .declare _ _ hash fromRegister =>
    match f.read fromRegister, f.stack with
    | some value, id :: _ => (h.setScope id (put (h.scope id) hash value)).scopes
    | _, _ => h.scopes
  | .assign _ _ hash fromRegister =>
    match f.read fromRegister, ((h.resolve f.stack hash).map Prod.fst).or f.stack.head? with
    | some value, some id => (h.setScope id (put (h.scope id) hash value)).scopes
    | _, _ => h.scopes
  | .deleteIdentifier _ _ hash =>
    match h.resolve f.stack hash with
    | some (id, _) => (h.setScope id ((h.scope id).filter fun e => e.1 ≠ hash)).scopes
    | none => h.scopes
  | _ => h.scopes

/-- What an instruction that was executed did: to its frame, to the things in the heap and to the
variables. -/
structure Executed (base : List ℕ) (site : ℕ) (a : Answer) (h h' : Heap) (f f' : Frame)
    (i : Instr) : Prop where
  control : Control site h h' f f' i
  written : h'.scopes = i.scopesWritten h base f a

/-- The frames differ in what the registers hold at most. -/
def Frame.SameControl (f f' : Frame) : Prop :=
  ∃ registers, registers.length = f.registers.length ∧ f' = { f with registers := registers }

theorem Frame.SameControl.refl (f : Frame) : f.SameControl f := ⟨f.registers, rfl, rfl⟩

theorem Frame.SameControl.trans {f g k : Frame} (h : f.SameControl g) (h' : g.SameControl k) :
    f.SameControl k := by
  obtain ⟨registers, hlength, rfl⟩ := h
  obtain ⟨registers', hlength', rfl⟩ := h'
  exact ⟨registers', hlength'.trans hlength, rfl⟩

theorem Frame.write_sameControl {f f' : Frame} {register : UInt8} {v : Value}
    (h : f.write register v = some f') : f.SameControl f' := by
  unfold Frame.write at h
  split at h
  case isTrue hlt => exact ⟨_, List.length_set, (Option.some.inj h).symm⟩
  case isFalse hge => cases h

theorem Frame.clobber_sameControl {f f' : Frame} {a : Answer} (h : f.clobber a = some f') :
    f.SameControl f' := by
  unfold Frame.clobber at h
  split at h
  · rw [← Option.some.inj h]
    exact SameControl.refl f
  · exact Frame.write_sameControl h

/-- The heaps have the same things, which may hold other values. -/
structure Heap.SameShape (h h' : Heap) : Prop where
  frames : h'.frames = h.frames
  scopes : h'.scopes.length = h.scopes.length
  functions : h'.functions = h.functions
  sites : h'.sites = h.sites
  caches : h'.caches = h.caches

theorem Heap.SameShape.refl (h : Heap) : h.SameShape h := ⟨rfl, rfl, rfl, rfl, rfl⟩

theorem Heap.setScope_sameShape (h : Heap) (id : ℕ) (vars : List (UInt64 × Value)) :
    h.SameShape (h.setScope id vars) :=
  ⟨rfl, List.length_set, rfl, rfl, rfl⟩

/-- A call instance that is changed keeps its site. -/
theorem Heap.modify_sameShape (h : Heap) (id : ℕ) (g : CallInstance → CallInstance)
    (hg : ∀ c, (g c).site = c.site) : h.SameShape { h with calls := h.calls.modify id g } := by
  refine ⟨rfl, rfl, rfl, ?_, rfl⟩
  apply List.ext_getElem
  · simp [Heap.sites]
  · intro n hn hn'
    simp only [Heap.sites, List.getElem_map, List.getElem_modify]
    split
    · exact hg _
    · rfl

theorem Heap.setArgs_sameShape {h : Heap} {id : ℕ} {call : CallInstance} (hcall : h.calls[id]? = some call)
    (args : List Value) : h.SameShape { h with calls := h.calls.set id { call with args := args } } := by
  refine ⟨rfl, rfl, rfl, ?_, rfl⟩
  obtain ⟨hid, rfl⟩ := List.getElem?_eq_some_iff.mp hcall
  show (h.calls.set id _).map CallInstance.site = h.calls.map CallInstance.site
  rw [List.map_set, ← List.getElem_map CallInstance.site (h := by simpa using hid), List.set_getElem_self]

theorem Heap.pushArgs_sameShape {h h' : Heap} {callInstance : List ℕ} {items : List Value}
    (hp : h.pushArgs callInstance items = some h') : h.SameShape h' := by
  unfold Heap.pushArgs at hp
  split at hp
  · cases hp
    exact SameShape.refl h
  · cases hp
  · cases hp
    exact h.modify_sameShape _ _ fun _ => rfl

theorem Heap.putKwargs_sameShape {h h' : Heap} {callInstance : List ℕ}
    {entries : List (UInt64 × Value)} (hp : h.putKwargs callInstance entries = some h') :
    h.SameShape h' := by
  unfold Heap.putKwargs at hp
  split at hp
  · cases hp
  · cases hp
    exact h.modify_sameShape _ _ fun _ => rfl

theorem Heap.pushArgs_scopes {h h' : Heap} {callInstance : List ℕ} {items : List Value}
    (hpush : h.pushArgs callInstance items = some h') : h'.scopes = h.scopes := by
  unfold Heap.pushArgs at hpush
  split at hpush
  · cases hpush
    rfl
  · cases hpush
  · cases hpush
    rfl

theorem Heap.putKwargs_scopes {h h' : Heap} {callInstance : List ℕ}
    {entries : List (UInt64 × Value)} (hput : h.putKwargs callInstance entries = some h') :
    h'.scopes = h.scopes := by
  unfold Heap.putKwargs at hput
  split at hput
  · cases hput
  · cases hput
    rfl

/-- An instruction that leaves the control state of its frame alone and makes nothing. -/
def Instr.Quiet : Instr → Prop
  | .op .newScope | .op .popScope | .op .call | .op .exceptionCatcherPop | .initCall _
  | .exceptionCatcherPush _ | .loadFunction .. | .loadNumber .. => False
  | _ => True

/-- A quiet instruction only writes registers and what the heap's things hold. -/
theorem Control.of_sameControl {site : ℕ} {h h' : Heap} {f f' : Frame} {i : Instr}
    (hf : f.SameControl f') (hquiet : i.Quiet) (hheap : h.SameShape h') :
    Control site h h' f f' i := by
  obtain ⟨registers, hlength, rfl⟩ := hf
  obtain ⟨hframes, hscopes, hfunctions, hsites, hcaches⟩ := hheap
  refine ⟨rfl, rfl, rfl, rfl, rfl, hlength, ?_, ?_, ?_, Or.inl rfl, hframes, ?_, ?_, ?_, ?_⟩ <;>
    (try rw [hscopes]) <;> (try rw [hfunctions]) <;> (try rw [hsites]) <;> (try rw [hcaches]) <;>
    (cases i <;> try first | rfl | exact hquiet.elim) <;> rename_i o <;> cases o <;>
    first | rfl | exact hquiet.elim

theorem Executed.of_quiet {base : List ℕ} {site : ℕ} {a : Answer} {h h' : Heap} {f f' : Frame}
    {i : Instr} (hf : f.SameControl f') (hquiet : i.Quiet) (hheap : h.SameShape h')
    (hwritten : h'.scopes = i.scopesWritten h base f a) : Executed base site a h h' f f' i :=
  ⟨Control.of_sameControl hf hquiet hheap, hwritten⟩

theorem execOp_executed {site : ℕ} {h h' : Heap} {base : List ℕ} {f f' : Frame} {a : Answer} {o : Op}
    {err : Option Value} (hexec : execOp h base f a o = some (h', f', err)) :
    Executed base site a h h' f f' (.op o) := by
  cases o with
  -- The operations that change the control state of the frame.
  | newScope =>
    cases hexec
    exact ⟨⟨rfl, rfl, rfl, rfl, rfl, rfl, rfl, rfl, rfl, Or.inl rfl, rfl, List.length_append, rfl,
      rfl, rfl⟩, rfl⟩
  | popScope =>
    simp only [execOp] at hexec
    split at hexec
    · cases hexec
    case h_2 id prev hstack =>
      cases hexec
      exact ⟨⟨rfl, rfl, rfl, rfl, rfl, rfl, by rw [hstack]; rfl, rfl, rfl, Or.inl rfl, rfl, rfl,
        rfl, rfl, rfl⟩, rfl⟩
  | exceptionCatcherPop =>
    cases hexec
    exact ⟨⟨rfl, rfl, rfl, rfl, rfl, rfl, rfl, rfl, rfl, Or.inl rfl, rfl, rfl, rfl, rfl, rfl⟩, rfl⟩
  | call =>
    simp only [execOp] at hexec
    split at hexec
    · cases hexec
    case h_2 id previous hcalls =>
      simp only [Option.bind_eq_bind, Option.bind_eq_some_iff, Option.pure_def, Option.some.injEq,
        Prod.mk.injEq] at hexec
      obtain ⟨g, hg, rfl, rfl, rfl⟩ := hexec
      obtain ⟨registers, hlength, rfl⟩ := Frame.clobber_sameControl hg
      exact ⟨⟨rfl, rfl, rfl, rfl, rfl, hlength, rfl, by rw [hcalls]; rfl, rfl, Or.inl rfl, rfl,
        rfl, rfl, rfl, rfl⟩, rfl⟩
  | bool =>
    simp only [execOp, Option.bind_eq_bind, Option.bind_eq_some_iff] at hexec
    obtain ⟨v, _, hexec⟩ := hexec
    split at hexec
    · cases hexec
      exact Executed.of_quiet (Frame.SameControl.refl _) trivial (Heap.SameShape.refl _) rfl
    · simp only [Option.bind_eq_some_iff, Option.pure_def, Option.some.injEq, Prod.mk.injEq] at hexec
      obtain ⟨g, hg, rfl, rfl, rfl⟩ := hexec
      exact Executed.of_quiet (Frame.write_sameControl hg) trivial (Heap.SameShape.refl _) rfl
  -- The operations that write variables.
  | emptyScope =>
    simp only [execOp] at hexec
    split at hexec
    case h_1 => cases hexec
    case h_2 id prev hstack =>
      cases hexec
      have hwritten : (Instr.op .emptyScope).scopesWritten h base f a = (h.setScope id []).scopes := by
        unfold Instr.scopesWritten
        simp only [hstack]
      exact Executed.of_quiet (Frame.SameControl.refl _) trivial (Heap.setScope_sameShape _ _ _)
        hwritten.symm
  | exposeAll =>
    simp only [execOp] at hexec
    split at hexec
    · cases hexec
    · cases hexec
      exact Executed.of_quiet (Frame.SameControl.refl _) trivial (Heap.setScope_sameShape _ _ _) rfl
  -- Those that fill the call instance, and those that only write register 0.
  | makeRangeInclusive =>
    cases hexec
    exact Executed.of_quiet (Frame.SameControl.refl _) trivial (Heap.SameShape.refl _) rfl
  | unpackArgs =>
    simp only [execOp, Option.bind_eq_bind, Option.bind_eq_some_iff, Option.pure_def,
      Option.some.injEq, Prod.mk.injEq] at hexec
    obtain ⟨k, hk, g, hg, rfl, rfl, rfl⟩ := hexec
    exact Executed.of_quiet (Frame.clobber_sameControl hg) trivial (Heap.pushArgs_sameShape hk)
      (Heap.pushArgs_scopes hk)
  | unpackKeyWordArgs =>
    simp only [execOp, Option.bind_eq_bind, Option.bind_eq_some_iff, Option.pure_def,
      Option.some.injEq, Prod.mk.injEq] at hexec
    obtain ⟨k, hk, g, hg, rfl, rfl, rfl⟩ := hexec
    exact Executed.of_quiet (Frame.clobber_sameControl hg) trivial (Heap.putKwargs_sameShape hk)
      (Heap.putKwargs_scopes hk)
  | throw | quietThrow =>
    simp only [execOp, Option.bind_eq_bind, Option.bind_eq_some_iff, Option.pure_def,
      Option.some.injEq, Prod.mk.injEq] at hexec
    obtain ⟨v, _, rfl, rfl, rfl⟩ := hexec
    exact Executed.of_quiet (Frame.SameControl.refl _) trivial (Heap.SameShape.refl _) rfl
  | not =>
    simp only [execOp, Option.bind_eq_bind, Option.bind_eq_some_iff, Option.pure_def,
      Option.some.injEq, Prod.mk.injEq] at hexec
    obtain ⟨v, _, g, hg, rfl, rfl, rfl⟩ := hexec
    exact Executed.of_quiet (Frame.write_sameControl hg) trivial (Heap.SameShape.refl _) rfl
  | _ =>
    simp only [execOp, Option.bind_eq_bind, Option.bind_eq_some_iff, Option.pure_def,
      Option.some.injEq, Prod.mk.injEq] at hexec
    obtain ⟨g, hg, rfl, rfl, rfl⟩ := hexec
    exact Executed.of_quiet (Frame.write_sameControl hg) trivial (Heap.SameShape.refl _) rfl

theorem execLoadNumber_control {site : ℕ} {h h' : Heap} {f f' : Frame} {toRegister : UInt8}
    {number : NumberOperand} {err : Option Value}
    (hexec : execLoadNumber h f toRegister number = some (h', f', err)) :
    Control site h h' f f' (.loadNumber toRegister number) := by
  -- All three ways only write a register and, at most, the caches.
  have hcontrol : ∀ {g : Frame} {caches}, f.SameControl g →
      caches = (Instr.loadNumber toRegister number).cachesAfter f h.caches →
      Control site h { h with caches := caches } f g (.loadNumber toRegister number) := by
    rintro g caches ⟨registers, hlength, rfl⟩ hcaches
    exact ⟨rfl, rfl, rfl, rfl, rfl, hlength, rfl, rfl, rfl, Or.inl rfl, rfl, rfl, rfl, rfl, hcaches⟩
  unfold execLoadNumber at hexec
  split at hexec
  -- An integer of 64 bits is not cached.
  case h_1 hkey =>
    simp only [Option.bind_eq_bind, Option.bind_eq_some_iff, Option.pure_def, Option.some.injEq,
      Prod.mk.injEq] at hexec
    obtain ⟨n, _, g, hg, rfl, rfl, rfl⟩ := hexec
    exact hcontrol (Frame.write_sameControl hg) (by simp [Instr.cachesAfter, hkey])
  case h_2 key hkey =>
    split at hexec
    -- A literal that is found in the cache.
    case h_1 n hfind =>
      simp only [Option.bind_eq_bind, Option.bind_eq_some_iff, Option.pure_def, Option.some.injEq,
        Prod.mk.injEq] at hexec
      obtain ⟨g, hg, rfl, rfl, rfl⟩ := hexec
      refine hcontrol (Frame.write_sameControl hg) ?_
      cases hnumber : f.module.numberAt number <;>
        simp only [Instr.cachesAfter, hkey, hnumber, hfind]
    -- A literal that is not found, and put there.
    case h_2 hfind =>
      simp only [Option.bind_eq_bind, Option.bind_eq_some_iff, Option.pure_def, Option.some.injEq,
        Prod.mk.injEq] at hexec
      obtain ⟨n, hn, g, hg, rfl, rfl, rfl⟩ := hexec
      obtain ⟨registers, hlength, rfl⟩ := Frame.write_sameControl hg
      refine hcontrol ⟨registers, hlength, rfl⟩ ?_
      simp only [Instr.cachesAfter, hkey, hn, hfind]

theorem execLoadNumber_scopes {h h' : Heap} {f f' : Frame} {toRegister : UInt8}
    {number : NumberOperand} {err : Option Value}
    (hexec : execLoadNumber h f toRegister number = some (h', f', err)) : h'.scopes = h.scopes := by
  unfold execLoadNumber at hexec
  split at hexec
  · simp only [Option.bind_eq_bind, Option.bind_eq_some_iff, Option.pure_def, Option.some.injEq,
      Prod.mk.injEq] at hexec
    obtain ⟨n, _, g, _, rfl, rfl, rfl⟩ := hexec
    rfl
  · split at hexec
    · simp only [Option.bind_eq_bind, Option.bind_eq_some_iff, Option.pure_def, Option.some.injEq,
        Prod.mk.injEq] at hexec
      obtain ⟨g, _, rfl, rfl, rfl⟩ := hexec
      rfl
    · simp only [Option.bind_eq_bind, Option.bind_eq_some_iff, Option.pure_def, Option.some.injEq,
        Prod.mk.injEq] at hexec
      obtain ⟨n, _, g, _, rfl, rfl, rfl⟩ := hexec
      rfl

/-- What a handler can do. -/
theorem execInstr_executed {h h' : Heap} {base : List ℕ} {site : ℕ} {f f' : Frame} {a : Answer}
    {i : Instr} {err : Option Value} (hexec : execInstr h base site f a i = some (h', f', err)) :
    Executed base site a h h' f f' i := by
  cases i with
  | op o => exact execOp_executed hexec
  | loadNumber toRegister number => exact ⟨execLoadNumber_control hexec, execLoadNumber_scopes hexec⟩
  -- The instructions that change the control state of the frame.
  | jump target =>
    cases hexec
    exact ⟨⟨rfl, rfl, rfl, rfl, rfl, rfl, rfl, rfl, rfl, Or.inr ⟨target, rfl, rfl⟩, rfl, rfl,
      rfl, rfl, rfl⟩, rfl⟩
  | jumpIfFalse fromRegister target =>
    simp only [execInstr, Option.bind_eq_bind, Option.bind_eq_some_iff, Option.pure_def,
      Option.some.injEq, Prod.mk.injEq] at hexec
    obtain ⟨v, _, rfl, rfl, rfl⟩ := hexec
    split
    · exact ⟨⟨rfl, rfl, rfl, rfl, rfl, rfl, rfl, rfl, rfl, Or.inr ⟨target, rfl, rfl⟩, rfl, rfl,
      rfl, rfl, rfl⟩, rfl⟩
    · exact Executed.of_quiet (Frame.SameControl.refl _) trivial (Heap.SameShape.refl _) rfl
  | initCall length =>
    simp only [execInstr, Option.bind_eq_bind, Option.bind_eq_some_iff, Option.pure_def,
      Option.some.injEq, Prod.mk.injEq] at hexec
    obtain ⟨v, _, rfl, rfl, rfl⟩ := hexec
    exact ⟨⟨rfl, rfl, rfl, rfl, rfl, rfl, rfl, rfl, rfl, Or.inl rfl, rfl, rfl, rfl,
      List.map_append, rfl⟩, rfl⟩
  | exceptionCatcherPush jumpTo =>
    cases hexec
    exact ⟨⟨rfl, rfl, rfl, rfl, rfl, rfl, rfl, rfl, rfl, Or.inl rfl, rfl, rfl, rfl, rfl, rfl⟩, rfl⟩
  | sourceLocation line column length =>
    cases hexec
    exact ⟨⟨rfl, rfl, rfl, rfl, rfl, rfl, rfl, rfl, rfl, Or.inl rfl, rfl, rfl, rfl, rfl, rfl⟩, rfl⟩
  -- The instructions that write variables.
  | declare length offset hash fromRegister =>
    simp only [execInstr, Option.bind_eq_bind, Option.bind_eq_some_iff] at hexec
    obtain ⟨v, hv, hexec⟩ := hexec
    split at hexec
    case h_1 => cases hexec
    case h_2 id prev hstack =>
      cases hexec
      have hwritten : (Instr.declare length offset hash fromRegister).scopesWritten h base f a =
          (h.setScope id (put (h.scope id) hash v)).scopes := by
        unfold Instr.scopesWritten
        simp only [hv, hstack]
      exact Executed.of_quiet (Frame.SameControl.refl _) trivial (Heap.setScope_sameShape _ _ _)
        hwritten.symm
  | assign length offset hash fromRegister =>
    simp only [execInstr, Option.bind_eq_bind, Option.bind_eq_some_iff] at hexec
    obtain ⟨v, hv, hexec⟩ := hexec
    -- the scope is the one that has the name, and else the innermost one
    have hwritten : ∀ id, ((h.resolve f.stack hash).map Prod.fst).or f.stack.head? = some id →
        (Instr.assign length offset hash fromRegister).scopesWritten h base f a =
          (h.setScope id (put (h.scope id) hash v)).scopes := by
      intro id hid
      unfold Instr.scopesWritten
      simp only [hv, hid]
    split at hexec
    case h_1 id w hresolve =>
      cases hexec
      exact Executed.of_quiet (Frame.SameControl.refl _) trivial (Heap.setScope_sameShape _ _ _)
        (hwritten id (by rw [hresolve]; rfl)).symm
    case h_2 id prev hresolve hstack =>
      cases hexec
      exact Executed.of_quiet (Frame.SameControl.refl _) trivial (Heap.setScope_sameShape _ _ _)
        (hwritten id (by rw [hresolve, hstack]; rfl)).symm
    case h_3 => cases hexec
  -- The instructions that change a function, a call instance or registers.
  | setFunctionParameter | setFunctionPositionalParameter | setFunctionKeyWordParameter
  | setFunctionDefaultParameter =>
    simp only [execInstr, Option.bind_eq_bind, Option.bind_eq_some_iff] at hexec
    obtain ⟨v, _, hexec⟩ := hexec
    split at hexec
    · cases hexec
      exact Executed.of_quiet (Frame.SameControl.refl _) trivial (Heap.SameShape.refl _) rfl
    · cases hexec
  | identifier length offset hash =>
    simp only [execInstr] at hexec
    split at hexec
    · simp only [Option.bind_eq_bind, Option.bind_eq_some_iff, Option.pure_def, Option.some.injEq,
        Prod.mk.injEq] at hexec
      obtain ⟨g, hg, rfl, rfl, rfl⟩ := hexec
      exact Executed.of_quiet (Frame.write_sameControl hg) trivial (Heap.SameShape.refl _) rfl
    · cases hexec
      exact Executed.of_quiet (Frame.SameControl.refl _) trivial (Heap.SameShape.refl _) rfl
  | deleteIdentifier length offset hash =>
    simp only [execInstr] at hexec
    split at hexec
    case h_1 id v hresolve =>
      cases hexec
      have hwritten : (Instr.deleteIdentifier length offset hash).scopesWritten h base f a =
          (h.setScope id ((h.scope id).filter fun e => e.1 ≠ hash)).scopes := by
        unfold Instr.scopesWritten
        simp only [hresolve]
      exact Executed.of_quiet (Frame.SameControl.refl _) trivial (Heap.setScope_sameShape _ _ _)
        hwritten.symm
    case h_2 hresolve =>
      cases hexec
      have hwritten : (Instr.deleteIdentifier length offset hash).scopesWritten h base f a =
          h.scopes := by
        unfold Instr.scopesWritten
        simp only [hresolve]
      exact Executed.of_quiet (Frame.SameControl.refl _) trivial (Heap.SameShape.refl _)
        hwritten.symm
  | insertArg index =>
    simp only [execInstr, Option.bind_eq_bind, Option.bind_eq_some_iff] at hexec
    obtain ⟨v, _, hexec⟩ := hexec
    split at hexec
    · cases hexec
    · simp only [Option.bind_eq_some_iff] at hexec
      obtain ⟨call, hcall, hexec⟩ := hexec
      split at hexec
      · cases hexec
        exact Executed.of_quiet (Frame.SameControl.refl _)
          trivial (Heap.setArgs_sameShape hcall _) rfl
      · cases hexec
  | setKeyWordArg length offset hash =>
    simp only [execInstr, Option.bind_eq_bind, Option.bind_eq_some_iff, Option.pure_def,
      Option.some.injEq, Prod.mk.injEq] at hexec
    obtain ⟨v, _, k, hk, rfl, rfl, rfl⟩ := hexec
    exact Executed.of_quiet (Frame.SameControl.refl _) trivial (Heap.putKwargs_sameShape hk)
      (Heap.putKwargs_scopes hk)
  | expose length offset hash =>
    simp only [execInstr] at hexec
    split at hexec
    · cases hexec
      exact Executed.of_quiet (Frame.SameControl.refl _) trivial (Heap.SameShape.refl _) rfl
    · simp only [Option.bind_eq_bind, Option.bind_eq_some_iff, Option.pure_def, Option.some.injEq,
        Prod.mk.injEq] at hexec
      obtain ⟨g, hg, rfl, rfl, rfl⟩ := hexec
      exact Executed.of_quiet (Frame.write_sameControl hg) trivial (Heap.SameShape.refl _) rfl
  | unpackIterator next =>
    simp only [execInstr, Option.bind_eq_bind, Option.bind_eq_some_iff, Option.pure_def,
      Option.some.injEq, Prod.mk.injEq] at hexec
    obtain ⟨v, _, k, hk, g, hg, rfl, rfl, rfl⟩ := hexec
    exact Executed.of_quiet (Frame.clobber_sameControl hg) trivial (Heap.pushArgs_sameShape hk)
      (Heap.pushArgs_scopes hk)
  | destructureError expected gotRegister =>
    simp only [execInstr, Option.bind_eq_bind, Option.bind_eq_some_iff, Option.pure_def,
      Option.some.injEq, Prod.mk.injEq] at hexec
    obtain ⟨v, _, rfl, rfl, rfl⟩ := hexec
    exact Executed.of_quiet (Frame.SameControl.refl _) trivial (Heap.SameShape.refl _) rfl
  | binary o registerA registerB registerC =>
    simp only [execInstr, Option.bind_eq_bind, Option.bind_eq_some_iff, Option.pure_def,
      Option.some.injEq, Prod.mk.injEq] at hexec
    obtain ⟨_, _, _, _, g, hg, k, hk, rfl, rfl, rfl⟩ := hexec
    exact Executed.of_quiet
      ((Frame.clobber_sameControl hg).trans (Frame.write_sameControl hk)) trivial (Heap.SameShape.refl _) rfl
  | forLoopJump iterator iteratorNext =>
    simp only [execInstr, Option.bind_eq_bind, Option.bind_eq_some_iff, Option.pure_def,
      Option.some.injEq, Prod.mk.injEq] at hexec
    obtain ⟨_, _, _, _, g, hg, rfl, rfl, rfl⟩ := hexec
    exact Executed.of_quiet (Frame.write_sameControl hg) trivial (Heap.SameShape.refl _) rfl
  | loadFunction offset length bytecodeOffset bytecodeLength parameters defaults =>
    simp only [execInstr, Option.bind_eq_bind, Option.bind_eq_some_iff, Option.pure_def,
      Option.some.injEq, Prod.mk.injEq] at hexec
    obtain ⟨_, _, data, hdata, g, hg, rfl, rfl, rfl⟩ := hexec
    obtain ⟨registers, hlength, rfl⟩ := Frame.write_sameControl hg
    refine ⟨⟨rfl, rfl, rfl, rfl, rfl, hlength, rfl, rfl, rfl, Or.inl rfl, rfl, rfl, ?_, rfl, rfl⟩,
      rfl⟩
    simp only [Instr.functionsAfter, hdata]
  | loadString | copyToRegister =>
    simp only [execInstr, Option.bind_eq_bind, Option.bind_eq_some_iff, Option.pure_def,
      Option.some.injEq, Prod.mk.injEq] at hexec
    obtain ⟨_, _, g, hg, rfl, rfl, rfl⟩ := hexec
    exact Executed.of_quiet (Frame.write_sameControl hg) trivial (Heap.SameShape.refl _) rfl
  | loadNull | loadBool | createClass =>
    simp only [execInstr, Option.bind_eq_bind, Option.bind_eq_some_iff, Option.pure_def,
      Option.some.injEq, Prod.mk.injEq] at hexec
    obtain ⟨g, hg, rfl, rfl, rfl⟩ := hexec
    exact Executed.of_quiet (Frame.write_sameControl hg) trivial (Heap.SameShape.refl _) rfl

/-- What a handler can do to the control state of its frame. -/
theorem execInstr_control {h h' : Heap} {base : List ℕ} {site : ℕ} {f f' : Frame} {a : Answer}
    {i : Instr} {err : Option Value} (hexec : execInstr h base site f a i = some (h', f', err)) :
    Control site h h' f f' i :=
  (execInstr_executed hexec).control

end Chloride
