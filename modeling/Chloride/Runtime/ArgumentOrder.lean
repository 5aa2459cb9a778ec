import Chloride.Containers.Commuting
import Chloride.Runtime.Machine
import Chloride.Translator.CallCode

/-!
# The order of arguments

What a function that is called gets for the arguments of a call, through the parser, the translator and
the virtual machine. The code of a call hands over its arguments kind after kind (`callCode`), and each
instruction changes the call instance that `OP_INIT_CALL` opened; the evaluation of an argument is a
run of the machine that leaves the open call instances as they are.

`argument_order_iff` compares what the call instance holds at `OP_CALL` with the arguments in the order
of the source.
-/

namespace Chloride

/-! ## Running the code of a call -/

/-- The frame that runs, without an error. -/
def Machine.At (m : Machine) (f : Frame) : Prop :=
  ∃ inv rest frames, m.invocations = inv :: rest ∧ inv.frames = f :: frames ∧ inv.err = none

/-- The code that a frame is at. -/
def Frame.CodeAt (f : Frame) (code : List UInt8) : Prop := code <+: f.bytecode.drop f.ip

/-- A run that takes the frame some bytes further and leaves its open call instances as they are. -/
def Keeps (n : ℕ) (m m' : Machine) : Prop :=
  ∃ inputs f f', Runs.run step m inputs = some m' ∧ m.At f ∧ m'.At f' ∧ f'.bytecode = f.bytecode ∧
    f'.ip = f.ip + n ∧ f'.callInstance = f.callInstance ∧
    ∀ id ∈ f.callInstance, m'.heap.calls[id]? = m.heap.calls[id]?

/-- A run that evaluates an expression with some bytes of code. -/
def Evaluates (n : ℕ) (value : Value) (m m' : Machine) : Prop :=
  Keeps n m m' ∧ ∃ f, m'.At f ∧ f.read 0 = some value

/-- An instruction that raises no error. -/
def Executes (a : Answer) (m m' : Machine) : Prop := step m (.exec a) = some m' ∧ ∃ f, m'.At f

/-- An argument with its code, its value, and the answer to the instruction that hands it over: the
elements of a spread. -/
structure Evaluated extends CodedArgument where
  value : Value
  answer : Answer

/-- The instructions for spreads call `__iter__` and `__next__`. -/
def Argument.asks : Argument → Bool
  | spread _ | keywordSpread _ => true
  | _ => false

/-- The evaluation of arguments, each with the instruction that hands it over. -/
inductive Hands : Machine → List Evaluated → Machine → Prop where
  | nil {m : Machine} : Hands m [] m
  | cons {m m₁ m₂ m₃ m' : Machine} {e : Evaluated} {es : List Evaluated} :
    Evaluates e.code.length e.value m m₁ → (if e.argument.asks then Keeps 0 m₁ m₂ else m₂ = m₁) →
    Executes e.answer m₂ m₃ → Hands m₃ es m' → Hands m (e :: es) m'

/-- A run from `OP_INIT_CALL` to `OP_CALL`. -/
def BuildsCall (es : List Evaluated) (m m' : Machine) : Prop :=
  ∃ a a' a'' a''' m₁ m₂ m₃ m₄, Executes a m m₁ ∧ Executes a' m₁ m₂ ∧
    Hands m₂ ((evaluationOrder (fun e : Evaluated => e.argument) es).map Prod.fst) m₃ ∧
    Executes a'' m₃ m₄ ∧ Executes a''' m₄ m'

/-- The frame is at the `OP_CALL` of a call instance, which it opened on top of those it had. -/
def Machine.Calls (m : Machine) (f : Frame) (c : CallInstance) : Prop :=
  ∃ g id, m.At g ∧ g.CodeAt (Instr.op .call).encode ∧ g.callInstance = id :: f.callInstance ∧
    m.heap.calls[id]? = some c

/-! ## The arguments that are handed over -/

section

variable (siphash : List UInt8 → UInt64)

/-- The positional arguments that an argument stands for. -/
def Evaluated.values (e : Evaluated) : List Value :=
  match e.argument with
  | .positional _ => [e.value]
  | .spread _ => e.answer.items
  | _ => []

/-- The keyword arguments that an argument stands for. -/
def Evaluated.entries (e : Evaluated) : List (UInt64 × Value) :=
  match e.argument with
  | .keyword name _ => [(siphash name, e.value)]
  | .keywordSpread _ => e.answer.entries
  | _ => []

/-- The positional arguments in the order of the source. -/
def sourceArgs (es : List Evaluated) : List Value := es.flatMap Evaluated.values

/-- The keyword arguments, of which a later one replaces an earlier one with its name. -/
def sourceKwargs (es : List Evaluated) : List (UInt64 × Value) :=
  (es.flatMap (Evaluated.entries siphash)).foldl (fun kwargs e => put kwargs e.1 e.2) []

/-- What an instruction makes of the call instance. -/
def CallInstance.receive (c : CallInstance) (e : Evaluated) (i : ℕ) : CallInstance :=
  match e.argument with
  | .positional _ => { c with args := c.args.set i e.value }
  | .spread _ => { c with args := c.args ++ e.answer.items }
  | _ => { c with
      kwargs := (e.entries siphash).foldl (fun kwargs e => put kwargs e.1 e.2) c.kwargs }

end

/-! ## Steps of the machine -/

theorem Machine.At.unique {m : Machine} {f f' : Frame} (h : m.At f) (h' : m.At f') : f = f' := by
  obtain ⟨inv, rest, frames, hinvs, hframes, _⟩ := h
  obtain ⟨inv', rest', frames', hinvs', hframes', _⟩ := h'
  rw [hinvs, List.cons.injEq] at hinvs'
  rw [← hinvs'.1, hframes, List.cons.injEq] at hframes'
  exact hframes'.1

theorem Frame.CodeAt.left {f : Frame} {code code' : List UInt8} (h : f.CodeAt (code ++ code')) :
    f.CodeAt code := (List.prefix_append code code').trans h

/-- The code behind a piece of code. -/
theorem Frame.CodeAt.right {f f' : Frame} {code code' : List UInt8} (h : f.CodeAt (code ++ code'))
    (hbytecode : f'.bytecode = f.bytecode) (hip : f'.ip = f.ip + code.length) : f'.CodeAt code' := by
  obtain ⟨rest, hrest⟩ := h
  have hdrop : f'.bytecode.drop f'.ip = (f.bytecode.drop f.ip).drop code.length := by
    rw [hbytecode, hip, List.drop_drop]
  exact ⟨rest, by rw [hdrop, ← hrest, List.append_assoc, List.drop_left]⟩

/-- The instruction at the start of a piece of code is the one that is fetched. -/
theorem Frame.CodeAt.fetch {f : Frame} {i : Instr} {code : List UInt8}
    (h : f.CodeAt (i.encode ++ code)) :
    f.fetch = some (i, { f with ip := f.ip + i.encode.length }) := by
  obtain ⟨rest, hrest⟩ := h
  rw [List.append_assoc] at hrest
  have hlength := congrArg List.length hrest
  rw [List.length_append, List.length_drop] at hlength
  have hpos : 0 < i.encode.length := List.length_pos_of_ne_nil (Instr.encode_ne_nil i)
  have hip : f.bytecode.length - (code ++ rest).length = f.ip + i.encode.length := by omega
  unfold Frame.fetch
  rw [← hrest, decode_encode, Option.map_some]
  dsimp only
  rw [hip]

/-- What an instruction that is executed does. -/
theorem Executes.exec {m m' : Machine} {a : Answer} (h : Executes a m m') {f : Frame} (hf : m.At f)
    {i : Instr} {code : List UInt8} (hcode : f.CodeAt (i.encode ++ code)) :
    ∃ base f', execInstr m.heap base f.ip { f with ip := f.ip + i.encode.length } a i =
      some (m'.heap, f', none) ∧ m'.At f' := by
  obtain ⟨hstep, g, hg⟩ := h
  have ht := transition_of_step hstep
  obtain ⟨inv, rest, frames, hinvs, hframes, _⟩ := hf
  cases ht with
  | @exec inv' rest' f' f₁ f₂ frames' a i' heap err hinvs' hframes' hrunning hfetch hexec =>
    rw [hinvs, List.cons.injEq] at hinvs'
    rw [← hinvs'.1, hframes, List.cons.injEq] at hframes'
    obtain ⟨rfl, rfl⟩ := hframes'
    rw [hcode.fetch, Option.some.injEq, Prod.mk.injEq] at hfetch
    obtain ⟨rfl, rfl⟩ := hfetch
    -- The machine afterwards has no error.
    obtain ⟨inv'', rest'', frames'', hinvs'', hframes'', herr⟩ := hg
    rw [List.cons.injEq] at hinvs''
    obtain ⟨rfl, rfl⟩ := hinvs''
    dsimp only at herr
    subst herr
    exact ⟨_, f₂, hexec, _, _, _, rfl, rfl, rfl⟩

/-! ## Building a call instance -/

/-- A frame that builds a call: its code, the call instances under the new one, and what that holds. -/
structure Building (m : Machine) (f : Frame) (below : List ℕ) (c : CallInstance) (code : List UInt8) :
    Prop where
  at_ : m.At f
  code : f.CodeAt code
  call : ∃ id, f.callInstance = id :: below ∧ m.heap.calls[id]? = some c

section

variable {siphash : List UInt8 → UInt64} {m m' : Machine} {f : Frame} {below : List ℕ}
  {c : CallInstance} {code : List UInt8}

/-- `OP_INIT_CALL` opens the call instance. -/
theorem Executes.initCall {a : Answer} {length : UInt64} (h : Executes a m m') (hf : m.At f)
    (hcode : f.CodeAt ((Instr.initCall length).encode ++ code)) {callee : Value}
    (hcallee : f.read 0 = some callee) :
    ∃ f', Building m' f' f.callInstance ⟨f.ip, callee, List.replicate length.toNat .null, []⟩ code ∧
      f'.bytecode = f.bytecode := by
  obtain ⟨base, f', hexec, hf'⟩ := h.exec hf hcode
  have hread : Frame.read { f with ip := f.ip + (Instr.initCall length).encode.length } 0 =
      some callee := hcallee
  unfold execInstr at hexec
  rw [hread] at hexec
  obtain ⟨hheap, hframe⟩ := Prod.mk.inj (Option.some.inj hexec)
  obtain ⟨rfl, _⟩ := Prod.mk.inj hframe
  refine ⟨_, ⟨hf', hcode.right rfl rfl, m.heap.calls.length, rfl, ?_⟩, rfl⟩
  rw [← hheap]
  exact List.getElem?_concat_length

/-- An instruction that changes neither the call instances nor where the frame is. -/
theorem Building.quiet {i : Instr} (hb : Building m f below c (i.encode ++ code)) {a : Answer}
    (hi : ∀ h base site g h' g', execInstr h base site g a i = some (h', g', none) →
      h'.calls = h.calls ∧ g'.callInstance = g.callInstance ∧ g'.bytecode = g.bytecode ∧ g'.ip = g.ip)
    (h : Executes a m m') : ∃ f', Building m' f' below c code := by
  obtain ⟨base, f', hexec, hf'⟩ := h.exec hb.at_ hb.code
  obtain ⟨hcalls, hinstance, hbytecode, hip⟩ := hi _ _ _ _ _ _ hexec
  obtain ⟨id, hid, hc⟩ := hb.call
  exact ⟨f', hf', hb.code.right hbytecode hip, id, hinstance.trans hid, by rw [hcalls, hc]⟩

theorem newScope_quiet {a : Answer} {h h' : Heap} {base : List ℕ} {site : ℕ} {g g' : Frame}
    (hexec : execInstr h base site g a (.op .newScope) = some (h', g', none)) :
    h'.calls = h.calls ∧ g'.callInstance = g.callInstance ∧ g'.bytecode = g.bytecode ∧ g'.ip = g.ip := by
  cases hexec
  exact ⟨rfl, rfl, rfl, rfl⟩

theorem popScope_quiet {a : Answer} {h h' : Heap} {base : List ℕ} {site : ℕ} {g g' : Frame}
    (hexec : execInstr h base site g a (.op .popScope) = some (h', g', none)) :
    h'.calls = h.calls ∧ g'.callInstance = g.callInstance ∧ g'.bytecode = g.bytecode ∧ g'.ip = g.ip := by
  unfold execInstr execOp at hexec
  dsimp only at hexec
  split at hexec
  case h_1 => cases hexec
  case h_2 =>
    cases hexec
    exact ⟨rfl, rfl, rfl, rfl⟩

theorem sourceLocation_quiet {a : Answer} {line column length : UInt64} {h h' : Heap} {base : List ℕ}
    {site : ℕ} {g g' : Frame}
    (hexec : execInstr h base site g a (.sourceLocation line column length) = some (h', g', none)) :
    h'.calls = h.calls ∧ g'.callInstance = g.callInstance ∧ g'.bytecode = g.bytecode ∧ g'.ip = g.ip := by
  cases hexec
  exact ⟨rfl, rfl, rfl, rfl⟩

theorem Heap.pushArgs_call {h h' : Heap} {id : ℕ} {items : List Value}
    (hpush : h.pushArgs (id :: below) items = some h') (hc : h.calls[id]? = some c) :
    h'.calls[id]? = some { c with args := c.args ++ items } := by
  cases items with
  | nil =>
    cases hpush
    rw [List.append_nil]
    exact hc
  | cons item items =>
    cases hpush
    exact (List.getElem?_modify_eq _ _ _).trans (by rw [hc]; rfl)

theorem Heap.putKwargs_call {h h' : Heap} {id : ℕ} {entries : List (UInt64 × Value)}
    (hput : h.putKwargs (id :: below) entries = some h') (hc : h.calls[id]? = some c) :
    h'.calls[id]? = some { c with
      kwargs := entries.foldl (fun kwargs e => put kwargs e.1 e.2) c.kwargs } := by
  cases hput
  exact (List.getElem?_modify_eq _ _ _).trans (by rw [hc]; rfl)

/-- What the instruction behind an argument makes of the call instance. -/
theorem execInstr_receive {e : Evaluated} {i : ℕ} (hi : i < 2 ^ 64) {h h' : Heap} {base : List ℕ}
    {site : ℕ} {g g' : Frame}
    (hexec : execInstr h base site g e.answer (e.instr siphash i) = some (h', g', none))
    (hread : e.argument.asks = false → g.read 0 = some e.value) {id : ℕ}
    (hid : g.callInstance = id :: below) (hc : h.calls[id]? = some c) :
    h'.calls[id]? = some (c.receive siphash e i) ∧ g'.callInstance = g.callInstance ∧
      g'.bytecode = g.bytecode ∧ g'.ip = g.ip := by
  unfold CodedArgument.instr at hexec
  unfold CallInstance.receive Evaluated.entries
  cases hargument : e.argument with
  | positional v =>
    rw [hargument] at hexec hread
    have hindex : (u64 i).toNat = i := UInt64.toNat_ofNat_of_lt' hi
    unfold execInstr at hexec
    rw [hread rfl, hid] at hexec
    dsimp only [Option.bind_eq_bind, Option.bind_some] at hexec
    rw [hc] at hexec
    dsimp only [Option.bind_some] at hexec
    rw [hindex] at hexec
    split at hexec
    case isTrue =>
      cases hexec
      refine ⟨?_, hid.symm ▸ rfl, rfl, rfl⟩
      exact List.getElem?_set_self (List.getElem?_eq_some_iff.mp hc).1
    case isFalse => cases hexec
  | spread v =>
    rw [hargument] at hexec
    unfold execInstr execOp at hexec
    rw [hid] at hexec
    simp only [Option.bind_eq_bind, Option.bind_eq_some_iff, Option.pure_def, Option.some.injEq,
      Prod.mk.injEq] at hexec
    obtain ⟨h₁, hpush, g₁, hclobber, rfl, rfl, _⟩ := hexec
    obtain ⟨registers, _, rfl⟩ := Frame.clobber_sameControl hclobber
    exact ⟨Heap.pushArgs_call hpush hc, hid.symm ▸ rfl, rfl, rfl⟩
  | keyword name v =>
    rw [hargument] at hexec hread
    unfold execInstr at hexec
    rw [hread rfl, hid] at hexec
    simp only [Option.bind_eq_bind, Option.bind_some, Option.bind_eq_some_iff, Option.pure_def,
      Option.some.injEq, Prod.mk.injEq] at hexec
    obtain ⟨h₁, hput, rfl, rfl, _⟩ := hexec
    exact ⟨Heap.putKwargs_call hput hc, hid.symm ▸ rfl, rfl, rfl⟩
  | keywordSpread v =>
    rw [hargument] at hexec
    unfold execInstr execOp at hexec
    rw [hid] at hexec
    simp only [Option.bind_eq_bind, Option.bind_eq_some_iff, Option.pure_def, Option.some.injEq,
      Prod.mk.injEq] at hexec
    obtain ⟨h₁, hput, g₁, hclobber, rfl, rfl, _⟩ := hexec
    obtain ⟨registers, _, rfl⟩ := Frame.clobber_sameControl hclobber
    exact ⟨Heap.putKwargs_call hput hc, hid.symm ▸ rfl, rfl, rfl⟩

/-- A run that only moves on. -/
theorem Building.keeps {n : ℕ} {code' : List UInt8} (hb : Building m f below c (code' ++ code))
    (hn : code'.length = n) (h : Keeps n m m') : ∃ f', Building m' f' below c code := by
  obtain ⟨inputs, g, f', _, hg, hf', hbytecode, hip, hinstance, hcalls⟩ := h
  obtain rfl := hg.unique hb.at_
  obtain ⟨id, hid, hc⟩ := hb.call
  refine ⟨f', hf', hb.code.right hbytecode (hn ▸ hip), id, hinstance.trans hid, ?_⟩
  rw [hcalls id (hid ▸ List.mem_cons_self), hc]

/-- An argument is evaluated and handed over. -/
theorem Building.hand {e : Evaluated} {i : ℕ} (hi : i < 2 ^ 64) {m₁ m₂ : Machine}
    (hb : Building m f below c (e.bytes siphash i ++ code)) (hvalue : Evaluates e.code.length e.value m m₁)
    (hasks : if e.argument.asks then Keeps 0 m₁ m₂ else m₂ = m₁) (hexec : Executes e.answer m₂ m') :
    ∃ f', Building m' f' below (c.receive siphash e i) code := by
  unfold CodedArgument.bytes at hb
  rw [List.append_assoc] at hb
  obtain ⟨hkeeps, g, hg, hread⟩ := hvalue
  obtain ⟨f₁, hb₁⟩ := hb.keeps rfl hkeeps
  obtain rfl := hg.unique hb₁.at_
  -- A spread calls back before it is handed over, and its value is no longer there.
  have hb₂ : ∃ f₂, Building m₂ f₂ below c ((e.instr siphash i).encode ++ code) ∧
      (e.argument.asks = false → f₂.read 0 = some e.value) := by
    by_cases hask : e.argument.asks = true
    · rw [if_pos hask] at hasks
      have hb₁' : Building m₁ g below c ([] ++ ((e.instr siphash i).encode ++ code)) := hb₁
      obtain ⟨f₂, hb₂⟩ := hb₁'.keeps rfl hasks
      exact ⟨f₂, hb₂, fun h => by rw [hask] at h; cases h⟩
    · rw [if_neg hask] at hasks
      subst hasks
      exact ⟨g, hb₁, fun _ => hread⟩
  obtain ⟨f₂, hb₂, hread₂⟩ := hb₂
  obtain ⟨base, f', hexec', hf'⟩ := hexec.exec hb₂.at_ hb₂.code
  obtain ⟨id, hid, hc⟩ := hb₂.call
  obtain ⟨hcall, hinstance, hbytecode, hip⟩ := execInstr_receive hi hexec' hread₂ hid hc
  exact ⟨f', hf', hb₂.code.right hbytecode hip, id, hinstance.trans hid, hcall⟩

/-- All the arguments are handed over. -/
theorem Building.hands {ps : List (Evaluated × ℕ)} (hi : ∀ p ∈ ps, p.2 < 2 ^ 64)
    (hb : Building m f below c ((ps.flatMap fun p => p.1.bytes siphash p.2) ++ code))
    (h : Hands m (ps.map Prod.fst) m') :
    ∃ f', Building m' f' below (ps.foldl (fun c p => c.receive siphash p.1 p.2) c) code := by
  induction ps generalizing m f c with
  | nil =>
    cases h
    exact ⟨f, hb⟩
  | cons p ps ih =>
    rw [List.flatMap_cons, List.append_assoc] at hb
    cases h with
    | cons hvalue hasks hexec hrest =>
      obtain ⟨f₁, hb₁⟩ := hb.hand (hi p List.mem_cons_self) hvalue hasks hexec
      exact ih (fun q hq => hi q (List.mem_cons_of_mem p hq)) hb₁ hrest

/-- What the call instance holds at `OP_CALL`. -/
theorem BuildsCall.received {es : List Evaluated} (h : BuildsCall es m m') (hf : m.At f)
    {line column : UInt64}
    (hcode : f.CodeAt (callCode siphash (es.map Evaluated.toCodedArgument) line column))
    {callee : Value} (hcallee : f.read 0 = some callee) (hlength : es.length < 2 ^ 64) :
    ∃ f', Building m' f' f.callInstance
      ((evaluationOrder (fun e : Evaluated => e.argument) es).foldl
        (fun c p => c.receive siphash p.1 p.2)
        ⟨f.ip, callee, List.replicate
          (Kinds.ofKind (fun e : Evaluated => e.argument.kind) .positional es).length .null, []⟩)
      (Instr.op .call).encode := by
  obtain ⟨a, a', a'', a''', m₁, m₂, m₃, m₄, hinit, hscope, hhands, hpop, hlocation⟩ := h
  have hlt : (Kinds.ofKind (fun e : Evaluated => e.argument.kind) .positional es).length < 2 ^ 64 :=
    (List.length_filter_le _ _).trans_lt hlength
  have hpositional : Kinds.ofKind (fun a : CodedArgument => a.argument.kind) .positional
      (es.map Evaluated.toCodedArgument) =
      (Kinds.ofKind (fun e : Evaluated => e.argument.kind) .positional es).map
        Evaluated.toCodedArgument := (Kinds.map_ofKind _ _ _ _).symm
  unfold callCode at hcode
  rw [evaluationOrder_map, List.flatMap_map, hpositional, List.length_map] at hcode
  simp only [List.append_assoc] at hcode
  obtain ⟨f₁, hb₁, _⟩ := hinit.initCall hf hcode hcallee
  rw [UInt64.toNat_ofNat_of_lt' hlt] at hb₁
  obtain ⟨f₂, hb₂⟩ := hb₁.quiet (fun _ _ _ _ _ _ => newScope_quiet) hscope
  have hindex : ∀ p ∈ evaluationOrder (fun e : Evaluated => e.argument) es, p.2 < 2 ^ 64 := by
    intro p hp
    rcases List.mem_append.mp hp with hp | hp
    · exact (List.snd_lt_of_mem_zipIdx hp).trans hlt
    · obtain ⟨e, _, rfl⟩ := List.mem_map.mp hp
      exact Nat.two_pow_pos 64
  obtain ⟨f₃, hb₃⟩ := hb₂.hands hindex hhands
  obtain ⟨f₄, hb₄⟩ := hb₃.quiet (fun _ _ _ _ _ _ => popScope_quiet) hpop
  exact hb₄.quiet (fun _ _ _ _ _ _ => sourceLocation_quiet) hlocation

end

/-! ## The arguments in both orders -/

/-- The kind of an argument that is evaluated. -/
def Evaluated.kind (e : Evaluated) : CallStage := e.argument.kind

/-- What an argument that is not positional adds to the call instance. -/
theorem CallInstance.receive_other {siphash : List UInt8 → UInt64} (c : CallInstance) {e : Evaluated}
    (i : ℕ) (h : e.kind ≠ .positional) :
    c.receive siphash e i = { c with
      args := c.args ++ e.values
      kwargs := (e.entries siphash).foldl (fun kwargs e => put kwargs e.1 e.2) c.kwargs } := by
  unfold Evaluated.kind Argument.kind at h
  unfold receive Evaluated.values Evaluated.entries
  cases hargument : e.argument with
  | positional v => rw [hargument] at h; exact absurd rfl h
  | spread v => rfl
  | keyword name v => dsimp only; rw [List.append_nil]
  | keywordSpread v => dsimp only; rw [List.append_nil]

theorem foldl_receive_others {siphash : List UInt8 → UInt64} {es : List Evaluated}
    (h : ∀ e ∈ es, e.kind ≠ .positional) (c : CallInstance) :
    (es.map fun e => (e, 0)).foldl (fun c p => c.receive siphash p.1 p.2) c = { c with
      args := c.args ++ es.flatMap Evaluated.values
      kwargs := (es.flatMap (Evaluated.entries siphash)).foldl (fun kwargs e => put kwargs e.1 e.2)
        c.kwargs } := by
  induction es generalizing c with
  | nil => rw [List.flatMap_nil, List.append_nil]; rfl
  | cons e es ih =>
    rw [List.map_cons, List.foldl_cons, ih fun e he => h e (List.mem_cons_of_mem _ he),
      CallInstance.receive_other c 0 (h e List.mem_cons_self), List.flatMap_cons, List.flatMap_cons,
      List.foldl_append, List.append_assoc]

/-- The positional arguments fill the places that `OP_INIT_CALL` made. -/
theorem foldl_receive_positional {siphash : List UInt8 → UInt64} {es : List Evaluated}
    (h : ∀ e ∈ es, e.kind = .positional) {c : CallInstance} {filled free : List Value}
    (hargs : c.args = filled ++ free) (hfree : free.length = es.length) :
    (es.zipIdx filled.length).foldl (fun c p => c.receive siphash p.1 p.2) c =
      { c with args := filled ++ es.flatMap Evaluated.values } := by
  induction es generalizing c filled free with
  | nil =>
    rw [List.length_eq_zero_iff.mp hfree] at hargs
    rw [List.flatMap_nil, ← hargs]
    rfl
  | cons e es ih =>
    obtain ⟨w, free, rfl⟩ := List.exists_cons_of_length_eq_add_one hfree
    have hkind := h e List.mem_cons_self
    have hreceive : c.receive siphash e filled.length =
        { c with args := c.args.set filled.length e.value } ∧ e.values = [e.value] := by
      unfold CallInstance.receive Evaluated.values
      unfold Evaluated.kind Argument.kind at hkind
      cases hargument : e.argument with
      | positional v => exact ⟨rfl, rfl⟩
      | spread v => rw [hargument] at hkind; cases hkind
      | keyword name v => rw [hargument] at hkind; cases hkind
      | keywordSpread v => rw [hargument] at hkind; cases hkind
    have hset : c.args.set filled.length e.value = (filled ++ [e.value]) ++ free := by
      rw [hargs, List.set_append_right _ _ le_rfl, Nat.sub_self, List.set_cons_zero, List.append_assoc,
        List.singleton_append]
    have hlength : (filled ++ [e.value]).length = filled.length + 1 := by
      rw [List.length_append, List.length_singleton]
    have hrest := ih (fun e he => h e (List.mem_cons_of_mem _ he))
      (c := { c with args := c.args.set filled.length e.value }) hset (Nat.succ.inj hfree)
    rw [hlength] at hrest
    rw [List.zipIdx_cons, List.foldl_cons, hreceive.1, hrest, List.flatMap_cons, hreceive.2,
      List.append_assoc]

/-- Arguments with no spread among them stand for their values. -/
theorem flatMap_values_of_no_spread {es : List Evaluated}
    (h : Kinds.ofKind Evaluated.kind .vArg es = []) :
    es.flatMap Evaluated.values =
      (Kinds.ofKind Evaluated.kind .positional es).flatMap Evaluated.values := by
  induction es with
  | nil => rfl
  | cons e es ih =>
    by_cases hkind : e.kind = .positional
    · rw [Kinds.ofKind_cons_other es (by rw [hkind]; decide)] at h
      rw [Kinds.ofKind_cons_same es hkind, List.flatMap_cons, List.flatMap_cons, ih h]
    · have hspread : e.kind ≠ .vArg := by
        intro hspread
        rw [Kinds.ofKind_cons_same es hspread] at h
        cases h
      have hnil : e.values = [] := by
        unfold Evaluated.values
        unfold Evaluated.kind Argument.kind at hkind hspread
        cases hargument : e.argument with
        | positional v => rw [hargument] at hkind; exact absurd rfl hkind
        | spread v => rw [hargument] at hspread; exact absurd rfl hspread
        | keyword name v => rfl
        | keywordSpread v => rfl
      rw [Kinds.ofKind_cons_other es hspread] at h
      rw [Kinds.ofKind_cons_other es hkind, List.flatMap_cons, hnil, List.nil_append, ih h]

section

variable (siphash : List UInt8 → UInt64)

/-- Arguments without `**` among them stand for their keywords. -/
theorem flatMap_entries_of_no_spread {es : List Evaluated}
    (h : Kinds.ofKind Evaluated.kind .kwArg es = []) :
    es.flatMap (Evaluated.entries siphash) =
      (Kinds.ofKind Evaluated.kind .kwargs es).flatMap (Evaluated.entries siphash) := by
  induction es with
  | nil => rfl
  | cons e es ih =>
    by_cases hkind : e.kind = .kwargs
    · rw [Kinds.ofKind_cons_other es (by rw [hkind]; decide)] at h
      rw [Kinds.ofKind_cons_same es hkind, List.flatMap_cons, List.flatMap_cons, ih h]
    · have hspread : e.kind ≠ .kwArg := by
        intro hspread
        rw [Kinds.ofKind_cons_same es hspread] at h
        cases h
      have hnil : e.entries siphash = [] := by
        unfold Evaluated.entries
        unfold Evaluated.kind Argument.kind at hkind hspread
        cases hargument : e.argument with
        | positional v => rfl
        | spread v => rfl
        | keyword name v => rw [hargument] at hkind; exact absurd rfl hkind
        | keywordSpread v => rw [hargument] at hspread; exact absurd rfl hspread
      rw [Kinds.ofKind_cons_other es hspread] at h
      rw [Kinds.ofKind_cons_other es hkind, List.flatMap_cons, hnil, List.nil_append, ih h]

/-- The elements of the spread. -/
def spreadItems (es : List Evaluated) : List Value :=
  (Kinds.ofKind Evaluated.kind .vArg es).flatMap Evaluated.values

/-- The plain arguments behind the spread. -/
def plainBehindSpread (es : List Evaluated) : List Value :=
  (Kinds.ofKind Evaluated.kind .positional (Kinds.behind Evaluated.kind .vArg es)).flatMap
    Evaluated.values

/-- The entries of the `**` argument. -/
def spreadEntries (es : List Evaluated) : List (UInt64 × Value) :=
  (Kinds.ofKind Evaluated.kind .kwArg es).flatMap (Evaluated.entries siphash)

/-- The keywords behind the `**` argument. -/
def keywordsBehindSpread (es : List Evaluated) : List (UInt64 × Value) :=
  (Kinds.ofKind Evaluated.kind .kwargs (Kinds.behind Evaluated.kind .kwArg es)).flatMap
    (Evaluated.entries siphash)

/-- The elements of the spread and the plain arguments behind it repeat one list, as they do where there
are none of one of them. -/
def SpreadRepeats (es : List Evaluated) : Prop :=
  Commuting.Repeat (spreadItems es) (plainBehindSpread es)

/-- A keyword behind `**` has the value of the last entry with its name, if there is one. -/
def KeywordsAgree (es : List Evaluated) : Prop :=
  ∀ hash v w, find (spreadEntries siphash es).reverse hash = some v →
    find (keywordsBehindSpread siphash es).reverse hash = some w → v = w

/-- A call instance holds the arguments in the order of the source. -/
structure CallInstance.InSourceOrder (c : CallInstance) (es : List Evaluated) : Prop where
  args : c.args = sourceArgs es
  kwargs : ∀ hash, find c.kwargs hash = find (sourceKwargs siphash es) hash

end

section

variable {siphash : List UInt8 → UInt64} {es : List Evaluated}

/-- The positional arguments kind after kind are those of the source if the spread can be moved. -/
theorem values_by_kind_iff (h : (Kinds.ofKind Evaluated.kind .vArg es).length ≤ 1) :
    (Kinds.ofKind Evaluated.kind .positional es).flatMap Evaluated.values ++ spreadItems es =
      sourceArgs es ↔ SpreadRepeats es := by
  unfold SpreadRepeats
  rw [← Commuting.append_comm_iff]
  unfold plainBehindSpread spreadItems sourceArgs
  rcases Kinds.ofKind_split h with ⟨hnil, hbehind⟩ | ⟨before, e, hes, he, hbefore, hafter⟩
  · rw [flatMap_values_of_no_spread hnil, hnil, hbehind]
    exact iff_of_true (List.append_nil _) rfl
  · generalize Kinds.behind Evaluated.kind .vArg es = after at hes hafter
    have hpositional : e.kind ≠ .positional := by rw [he]; decide
    have hspread : Kinds.ofKind Evaluated.kind .vArg es = [e] := by
      rw [hes, Kinds.ofKind_append, hbefore, Kinds.ofKind_cons_same after he, hafter, List.nil_append]
    have hplain : Kinds.ofKind Evaluated.kind .positional es =
        Kinds.ofKind Evaluated.kind .positional before ++
          Kinds.ofKind Evaluated.kind .positional after := by
      rw [hes, Kinds.ofKind_append, Kinds.ofKind_cons_other after hpositional]
    rw [hspread, hplain, hes]
    simp only [List.flatMap_append, List.flatMap_cons, List.flatMap_nil, List.append_nil,
      flatMap_values_of_no_spread hbefore, flatMap_values_of_no_spread hafter, List.append_assoc,
      List.append_cancel_left_eq]
    exact eq_comm

/-- The keyword arguments kind after kind are those of the source if the keywords agree. -/
theorem entries_by_kind_iff (h : (Kinds.ofKind Evaluated.kind .kwArg es).length ≤ 1) :
    (∀ hash, find (((Kinds.ofKind Evaluated.kind .kwargs es).flatMap (Evaluated.entries siphash) ++
        spreadEntries siphash es).foldl (fun kwargs e => put kwargs e.1 e.2) []) hash =
      find (sourceKwargs siphash es) hash) ↔ KeywordsAgree siphash es := by
  unfold KeywordsAgree keywordsBehindSpread spreadEntries sourceKwargs
  simp only [find_foldl_put]
  rcases Kinds.ofKind_split h with ⟨hnil, hbehind⟩ | ⟨before, e, hes, he, hbefore, hafter⟩
  · rw [flatMap_entries_of_no_spread siphash hnil, hnil, hbehind]
    refine iff_of_true (fun hash => by rw [List.flatMap_nil, List.append_nil]) ?_
    intro hash v w hv
    cases hv
  · generalize Kinds.behind Evaluated.kind .kwArg es = after at hes hafter
    have hkwargs : e.kind ≠ .kwargs := by rw [he]; decide
    have hspread : Kinds.ofKind Evaluated.kind .kwArg es = [e] := by
      rw [hes, Kinds.ofKind_append, hbefore, Kinds.ofKind_cons_same after he, hafter, List.nil_append]
    have hkeywords : Kinds.ofKind Evaluated.kind .kwargs es =
        Kinds.ofKind Evaluated.kind .kwargs before ++ Kinds.ofKind Evaluated.kind .kwargs after := by
      rw [hes, Kinds.ofKind_append, Kinds.ofKind_cons_other after hkwargs]
    rw [hspread, hkeywords, hes]
    simp only [List.flatMap_append, List.flatMap_cons, List.flatMap_nil, List.append_nil,
      flatMap_entries_of_no_spread siphash hbefore, flatMap_entries_of_no_spread siphash hafter,
      List.reverse_append, find_append, Option.or_assoc]
    refine forall_congr' fun hash => ?_
    generalize find (e.entries siphash).reverse hash = entry
    generalize find (List.reverse _) hash = keyword
    generalize (find (List.reverse _) hash).or _ = others
    cases entry with
    | none => exact iff_of_true rfl fun v w hv => by cases hv
    | some v =>
      cases keyword with
      | none => exact iff_of_true rfl fun v w _ hw => by cases hw
      | some w =>
        show some v = some w ↔ _
        rw [Option.some.injEq]
        constructor
        · intro heq v' w' hv hw
          cases hv
          cases hw
          exact heq
        · exact fun hall => hall v w rfl rfl

/-- What an argument of a kind stands for is empty if all of that kind are. -/
theorem flatMap_ofKind_nil {β : Type*} {kind : CallStage} {f : Evaluated → List β}
    (h : ∀ e : Evaluated, e.kind = kind → f e = []) :
    (Kinds.ofKind Evaluated.kind kind es).flatMap f = [] := by
  refine List.flatMap_eq_nil_iff.mpr fun e he => h e ?_
  exact of_decide_eq_true (List.mem_filter.mp he).2

theorem Evaluated.values_of_keyword {e : Evaluated} (h : e.kind = .kwargs ∨ e.kind = .kwArg) :
    e.values = [] := by
  unfold kind Argument.kind at h
  unfold values
  cases hargument : e.argument with
  | positional v => rw [hargument] at h; rcases h with h | h <;> cases h
  | spread v => rw [hargument] at h; rcases h with h | h <;> cases h
  | keyword name v => rfl
  | keywordSpread v => rfl

theorem Evaluated.entries_of_spread (siphash : List UInt8 → UInt64) {e : Evaluated}
    (h : e.kind = .vArg) : e.entries siphash = [] := by
  unfold kind Argument.kind at h
  unfold entries
  cases hargument : e.argument with
  | positional v => rfl
  | spread v => rfl
  | keyword name v => rw [hargument] at h; cases h
  | keywordSpread v => rw [hargument] at h; cases h

/-- The call instance at `OP_CALL` holds the arguments kind after kind. -/
theorem foldl_receive (site : ℕ) (callee : Value) :
    (evaluationOrder (fun e : Evaluated => e.argument) es).foldl
      (fun (c : CallInstance) p => c.receive siphash p.1 p.2)
      ⟨site, callee, List.replicate (Kinds.ofKind Evaluated.kind .positional es).length .null, []⟩ =
    ⟨site, callee,
      (Kinds.ofKind Evaluated.kind .positional es).flatMap Evaluated.values ++ spreadItems es,
      ((Kinds.ofKind Evaluated.kind .kwargs es).flatMap (Evaluated.entries siphash) ++
        spreadEntries siphash es).foldl (fun kwargs e => put kwargs e.1 e.2) []⟩ := by
  have hpositional : ∀ e ∈ Kinds.ofKind Evaluated.kind .positional es, e.kind = .positional :=
    fun e he => of_decide_eq_true (List.mem_filter.mp he).2
  have hother : ∀ e ∈ Kinds.byKind Evaluated.kind [.vArg, .kwargs, .kwArg] es,
      e.kind ≠ .positional := by
    intro e he
    obtain ⟨kind, hkind, he⟩ := List.mem_flatMap.mp he
    rw [of_decide_eq_true (List.mem_filter.mp he).2]
    rintro rfl
    revert hkind
    decide
  have hplaces := @foldl_receive_positional siphash _ hpositional
    ⟨site, callee, List.replicate (Kinds.ofKind Evaluated.kind .positional es).length .null, []⟩
    [] _ (List.nil_append _).symm List.length_replicate
  have hvalues : (Kinds.byKind Evaluated.kind [.vArg, .kwargs, .kwArg] es).flatMap Evaluated.values =
      spreadItems es := by
    unfold Kinds.byKind spreadItems
    simp only [List.flatMap_cons, List.flatMap_nil, List.flatMap_append, List.append_nil,
      flatMap_ofKind_nil fun e he => Evaluated.values_of_keyword (.inl he),
      flatMap_ofKind_nil fun e he => Evaluated.values_of_keyword (.inr he)]
  have hentries : (Kinds.byKind Evaluated.kind [.vArg, .kwargs, .kwArg] es).flatMap
      (Evaluated.entries siphash) =
      (Kinds.ofKind Evaluated.kind .kwargs es).flatMap (Evaluated.entries siphash) ++
        spreadEntries siphash es := by
    unfold Kinds.byKind spreadEntries
    simp only [List.flatMap_cons, List.flatMap_nil, List.flatMap_append, List.append_nil,
      flatMap_ofKind_nil fun e he => Evaluated.entries_of_spread siphash he,
      List.nil_append]
  unfold evaluationOrder
  rw [List.foldl_append]
  refine (congrArg (List.foldl _ · _) hplaces).trans ?_
  refine (foldl_receive_others hother _).trans ?_
  rw [hvalues, hentries, List.nil_append]

/-- A call holds one spread of each kind at most. -/
theorem ParsedCall.Holds.spreads {call : ParsedCall} {as : List Argument} (h : call.Holds as)
    (hes : es.map (fun e => e.argument) = as) :
    (Kinds.ofKind Evaluated.kind .vArg es).length ≤ 1 ∧
      (Kinds.ofKind Evaluated.kind .kwArg es).length ≤ 1 := by
  have hlength : ∀ {β : Type} (o : Option β), o.toList.length ≤ 1 := by
    intro β o
    cases o with
    | none => exact Nat.zero_le 1
    | some b => exact le_rfl
  have hkind : ∀ kind, (Kinds.ofKind Evaluated.kind kind es).length =
      (Kinds.ofKind Argument.kind kind as).length := by
    intro kind
    rw [← hes, ← Kinds.map_ofKind, List.length_map]
    rfl
  rw [hkind, hkind, ← map_filterMap_spread, ← map_filterMap_keywordSpread, List.length_map,
    List.length_map, ← h.vArg, ← h.kwArg]
  exact ⟨hlength _, hlength _⟩

/-- The call instance has the arguments in the order of the source in these cases only. -/
theorem BuildsCall.inSourceOrder_iff {call : ParsedCall} {as : List Argument} {m m' : Machine}
    {f : Frame} {line column : UInt64} {callee : Value} (h : BuildsCall es m m')
    (hholds : call.Holds as) (hes : es.map (fun e => e.argument) = as) (hf : m.At f)
    (hcode : f.CodeAt (callCode siphash (es.map Evaluated.toCodedArgument) line column))
    (hcallee : f.read 0 = some callee) (hlength : es.length < 2 ^ 64) :
    ∃ c, m'.Calls f c ∧ c.toCall = callee ∧
      (c.InSourceOrder siphash es ↔ SpreadRepeats es ∧ KeywordsAgree siphash es) := by
  obtain ⟨f', hb⟩ := h.received hf hcode hcallee hlength
  obtain ⟨id, hid, hc⟩ := hb.call
  have hreceived := @foldl_receive siphash es f.ip callee
  refine ⟨_, ⟨f', id, hb.at_, hb.code, hid, hc.trans (congrArg some hreceived)⟩, rfl, ?_⟩
  obtain ⟨hvArg, hkwArg⟩ := hholds.spreads hes
  rw [← values_by_kind_iff hvArg, ← entries_by_kind_iff hkwArg]
  exact ⟨fun h => ⟨h.args, h.kwargs⟩, fun h => ⟨h.1, h.2⟩⟩

end

/-! ## The result -/

section

variable {siphash : List UInt8 → UInt64} {readName : ParsedValue → Option Name} {tokens : List Token}
  {parseToken : Parse (Option ParsedValue)}

/-- A call that is parsed and translated, and whose arguments are evaluated, each of them once, calls
with the arguments in the order of the source if and only if the spread can be moved behind the plain
arguments that follow it, and no keyword behind `**` has another value there. -/
theorem argument_order_iff {rounds i k n : ℕ} {toCall : ParsedValue} {call : ParsedCall}
    {t t' : Translated}
    (hparse : parseCall siphash readName tokens parseToken rounds toCall i = .ok (call, k))
    (htranslate : translateParsed siphash call.value t = some (n, t')) (herr : t'.err = none) :
    ∃ as, ArgumentsAt tokens parseToken (i + 1) as k ∧
      (∃ (code : List UInt8) (cs : List CodedArgument), cs.map CodedArgument.argument = as ∧
        t'.bytecode = t.bytecode ++ code ++ callCode siphash cs call.line call.column) ∧
      ∀ (es : List Evaluated) (m m' : Machine) (f : Frame) (callee : Value),
        es.map (fun e => e.argument) = as → es.length < 2 ^ 64 → m.At f →
        f.CodeAt (callCode siphash (es.map Evaluated.toCodedArgument) call.line call.column) →
        f.read 0 = some callee → BuildsCall es m m' →
        ((evaluationOrder (fun e : Evaluated => e.argument) es).map Prod.fst).Perm es ∧
          ∃ c, m'.Calls f c ∧ c.toCall = callee ∧
            (c.InSourceOrder siphash es ↔ SpreadRepeats es ∧ KeywordsAgree siphash es) := by
  obtain ⟨_, as, has, hholds⟩ := parseCall_arguments hparse
  obtain ⟨code, cs, hcs, hbytecode⟩ := translateParsedCall_code hholds htranslate herr
  refine ⟨as, has, ⟨code, cs, hcs, hbytecode⟩, ?_⟩
  intro es m m' f callee hes hlength hf hcode hcallee hbuilds
  refine ⟨evaluationOrder_perm _ es, ?_⟩
  exact hbuilds.inSourceOrder_iff hholds hes hf hcode hcallee hlength

end

/-! ## A spread before a plain argument -/

/-- The tokens of `(*"a", true)`. -/
def spreadTokens : List Token :=
  [⟨.lparen, 1, 2, 1, [40]⟩, ⟨.star, 1, 3, 1, [42]⟩, ⟨.string, 1, 4, 3, [34, 97, 34]⟩,
    ⟨.comma, 1, 7, 1, [44]⟩, ⟨.true_, 1, 9, 4, [116, 114, 117, 101]⟩, ⟨.rparen, 1, 13, 1, [41]⟩]

/-- What `parse_token` does at its strings and constants. -/
def spreadParseToken : Parse (Option ParsedValue) := do
  let token ← currentToken spreadTokens
  nextToken
  match token.type with
  | .string => return some (.string [97])
  | .true_ => return some (.boolean true)
  | _ => return none

/-- A hash that tells names of one letter apart. -/
def letterHash (data : List UInt8) : UInt64 := (data.headD 0).toUInt64

/-- The tree of `f(*"a", true)`. -/
def spreadCall : ParsedCall :=
  ⟨.identifier ⟨[102], 1, 1⟩, [.boolean true], [], some (.string [97]), none, .notAllowed, 1, 2⟩

theorem spreadCall_parse : parseCall letterHash (fun _ => some []) spreadTokens spreadParseToken 2
    (.identifier ⟨[102], 1, 1⟩) 0 = .ok (spreadCall, 6) := by
  rfl

/-- The arguments with their code, as they are evaluated. -/
def spreadArguments : List Evaluated :=
  [⟨⟨.spread (.string [97]), (Instr.loadString 0 1 1 97).encode, 0⟩, .string [97],
      ⟨.null, none, .null, none, [.string [97]], []⟩⟩,
    ⟨⟨.positional (.boolean true), (Instr.loadBool true).encode, 0⟩, .bool true,
      ⟨.null, none, .null, none, [], []⟩⟩]

/-- The code of `f`. -/
def spreadCallee : List UInt8 :=
  (Instr.sourceLocation 1 1 1).encode ++ (Instr.identifier 1 0 102).encode

def spreadCode : List UInt8 :=
  callCode letterHash (spreadArguments.map Evaluated.toCodedArgument) 1 2

theorem spreadCall_translate : ∃ t, translateParsed letterHash spreadCall.value initTranslator =
    some (0, t) ∧ t.err = none ∧ t.bytecode = spreadCallee ++ spreadCode := by
  have h : (translateParsed letterHash spreadCall.value initTranslator).map
      (fun r => (r.1, r.2.err, r.2.bytecode)) = some (0, none, spreadCallee ++ spreadCode) := by
    decide
  obtain ⟨⟨n, t⟩, ht, heq⟩ := Option.map_eq_some_iff.mp h
  obtain ⟨hn, hrest⟩ := Prod.mk.inj heq
  obtain ⟨herr, hcode⟩ := Prod.mk.inj hrest
  dsimp only at hn herr hcode
  subst hn
  exact ⟨t, ht, herr, hcode⟩

def spreadModule : Module where
  registerCount := 1
  registerCount_pos := Nat.one_pos
  bytecode := spreadCallee ++ spreadCode
  constants := [102, 97]

/-- The frame that runs the call. -/
def spreadFrame (ip : ℕ) (register : Value) (stack callInstance : List ℕ) (column : UInt64) : Frame where
  id := 0
  module := spreadModule
  bytecode := spreadModule.bytecode
  registers := [register]
  ip := ip
  callInstance := callInstance
  catchErrors := []
  loadNumberCache := 0
  cDepth := 0
  stack := stack
  sourceLocation := ⟨1, column, 1⟩

/-- The call instance with some arguments; the value of `f` is the object 0. -/
def spreadInstance (args : List Value) : CallInstance := ⟨50, .object 0, args, []⟩

/-- The run from `OP_INIT_CALL` to `OP_CALL`: the frames before each instruction. -/
def spreadFrames : ℕ → Frame
  | 0 => spreadFrame 50 (.object 0) [1, 0] [] 1
  | 1 => spreadFrame 59 (.object 0) [1, 0] [0] 1
  | 2 => spreadFrame 60 (.object 0) [2, 1, 0] [0] 1
  | 3 => spreadFrame 62 (.bool true) [2, 1, 0] [0] 1
  | 4 => spreadFrame 71 (.bool true) [2, 1, 0] [0] 1
  | 5 => spreadFrame 97 (.string [97]) [2, 1, 0] [0] 1
  | 6 => spreadFrame 98 (.string [97]) [2, 1, 0] [0] 1
  | 7 => spreadFrame 99 (.string [97]) [1, 0] [0] 1
  | _ => spreadFrame 124 (.string [97]) [1, 0] [0] 2

def spreadCalls : ℕ → List CallInstance
  | 0 => []
  | 1 | 2 | 3 => [spreadInstance [.null]]
  | 4 | 5 => [spreadInstance [.bool true]]
  | _ => [spreadInstance [.bool true, .string [97]]]

def spreadMachine (n : ℕ) : Machine where
  modules := [spreadModule]
  heap := ⟨[[(102, .object 0)], []] ++ if 2 ≤ n then [[]] else [], spreadCalls n, [], [[]], 1⟩
  invocations := [⟨[spreadFrames n], none, [1, 0], .null, false⟩]

theorem spreadMachine_at (n : ℕ) : (spreadMachine n).At (spreadFrames n) := ⟨_, _, _, rfl, rfl, rfl⟩

/-- The answers to the instructions; only `OP_UNPACK_ARGS` asks something. -/
def spreadAnswer (n : ℕ) : Answer :=
  ⟨.null, none, .null, none, if n = 5 then [.string [97]] else [], []⟩

set_option maxRecDepth 5000 in
theorem spreadMachine_step : ∀ n < 8,
    step (spreadMachine n) (.exec (spreadAnswer n)) = some (spreadMachine (n + 1)) := by
  decide

theorem spreadMachine_executes {n : ℕ} (h : n < 8) :
    Executes (spreadAnswer n) (spreadMachine n) (spreadMachine (n + 1)) :=
  ⟨spreadMachine_step n h, _, spreadMachine_at (n + 1)⟩

/-- A constant is loaded. -/
theorem spreadMachine_keeps {n : ℕ} (h : n < 8) {k : ℕ}
    (hip : (spreadFrames (n + 1)).ip = (spreadFrames n).ip + k)
    (hbytecode : (spreadFrames (n + 1)).bytecode = (spreadFrames n).bytecode)
    (hinstance : (spreadFrames (n + 1)).callInstance = (spreadFrames n).callInstance)
    (hcalls : spreadCalls (n + 1) = spreadCalls n) :
    Keeps k (spreadMachine n) (spreadMachine (n + 1)) := by
  have hrun : Runs.run step (spreadMachine n) [.exec (spreadAnswer n)] = some (spreadMachine (n + 1)) :=
    Runs.run_cons.mpr ⟨_, spreadMachine_step n h, rfl⟩
  refine ⟨_, _, _, hrun, spreadMachine_at n, spreadMachine_at (n + 1), hbytecode, hip, hinstance, ?_⟩
  intro id _
  show (spreadCalls (n + 1))[id]? = (spreadCalls n)[id]?
  rw [hcalls]

theorem spreadArguments_buildsCall : BuildsCall spreadArguments (spreadMachine 0) (spreadMachine 8) := by
  have hpositional : Evaluates 2 (.bool true) (spreadMachine 2) (spreadMachine 3) :=
    ⟨spreadMachine_keeps (by decide) rfl rfl rfl rfl, _, spreadMachine_at 3, rfl⟩
  have hspread : Evaluates 26 (.string [97]) (spreadMachine 4) (spreadMachine 5) :=
    ⟨spreadMachine_keeps (by decide) rfl rfl rfl rfl, _, spreadMachine_at 5, rfl⟩
  -- A string has no function of the program to call.
  have hasks : Keeps 0 (spreadMachine 5) (spreadMachine 5) :=
    ⟨[], _, _, rfl, spreadMachine_at 5, spreadMachine_at 5, rfl, rfl, rfl, fun _ _ => rfl⟩
  refine ⟨_, _, _, _, _, _, _, _, spreadMachine_executes (n := 0) (by decide),
    spreadMachine_executes (n := 1) (by decide), ?_, spreadMachine_executes (n := 6) (by decide),
    spreadMachine_executes (n := 7) (by decide)⟩
  refine .cons hpositional rfl (spreadMachine_executes (n := 3) (by decide)) ?_
  exact .cons hspread hasks (spreadMachine_executes (n := 5) (by decide)) .nil

theorem spreadFrames_codeAt : (spreadFrames 0).CodeAt spreadCode := by
  unfold Frame.CodeAt
  decide

/-- The arguments of `(*"a", true)`. -/
theorem spreadTokens_arguments : ArgumentsAt spreadTokens spreadParseToken 1
    (spreadArguments.map fun e => e.argument) 6 := by
  have hnot : ∀ {i : ℕ} {type : TokenType},
      (spreadTokens[i]?).all (fun token => token.type ≠ type) = true →
        ¬TokenAt spreadTokens i type := by
    rintro i type h ⟨token, htoken, htype⟩
    rw [htoken] at h
    exact of_decide_eq_true h htype
  have hspread : ArgumentAt spreadTokens spreadParseToken 1 (.spread (.string [97])) 3 :=
    .spread ⟨_, rfl, rfl⟩ (hnot rfl) rfl
  have hpositional : ArgumentAt spreadTokens spreadParseToken 4 (.positional (.boolean true)) 5 :=
    .positional (hnot rfl) (fun h => hnot rfl h.1) rfl
  have hrest : ArgumentsAt spreadTokens spreadParseToken 4 [.positional (.boolean true)] 6 :=
    .last (i := 4) (j := 5) (hnot rfl) hpositional ⟨_, rfl, rfl⟩
  exact .cons (i := 1) (j := 3) (hnot rfl) hspread ⟨_, rfl, rfl⟩ hrest

/-- The theorem, of this call. -/
theorem argument_order_spread : ∃ c, (spreadMachine 8).Calls (spreadFrames 0) c ∧
    (c.InSourceOrder letterHash spreadArguments ↔
      SpreadRepeats spreadArguments ∧ KeywordsAgree letterHash spreadArguments) := by
  obtain ⟨t, htranslate, herr, _⟩ := spreadCall_translate
  obtain ⟨as, has, _, h⟩ := argument_order_iff spreadCall_parse htranslate herr
  have hes : spreadArguments.map (fun e => e.argument) = as := spreadTokens_arguments.unique has |>.1
  obtain ⟨_, c, hcalls, _, hiff⟩ := h spreadArguments (spreadMachine 0) (spreadMachine 8)
    (spreadFrames 0) (.object 0) hes (by decide) (spreadMachine_at 0) spreadFrames_codeAt rfl
    spreadArguments_buildsCall
  exact ⟨c, hcalls, hiff⟩

/-- `f(*"a", true)` calls `f` with `true` first. -/
theorem not_forall_inSourceOrder : ¬∀ (siphash : List UInt8 → UInt64)
    (readName : ParsedValue → Option Name) (tokens : List Token)
    (parseToken : Parse (Option ParsedValue)) (rounds i k n : ℕ) (toCall : ParsedValue)
    (call : ParsedCall) (t t' : Translated) (as : List Argument) (code : List UInt8)
    (es : List Evaluated) (m m' : Machine) (f : Frame) (callee : Value),
    parseCall siphash readName tokens parseToken rounds toCall i = .ok (call, k) →
    ArgumentsAt tokens parseToken (i + 1) as k →
    translateParsed siphash call.value t = some (n, t') → t'.err = none →
    es.map (fun e => e.argument) = as →
    t'.bytecode = t.bytecode ++ code ++
      callCode siphash (es.map Evaluated.toCodedArgument) call.line call.column →
    m.At f → f.CodeAt (callCode siphash (es.map Evaluated.toCodedArgument) call.line call.column) →
    f.read 0 = some callee → BuildsCall es m m' →
    ∃ c, m'.Calls f c ∧ c.InSourceOrder siphash es := by
  intro h
  obtain ⟨t, htranslate, herr, hbytecode⟩ := spreadCall_translate
  obtain ⟨c, ⟨g, id, hg, _, hid, hc⟩, horder⟩ := h letterHash (fun _ => some []) spreadTokens
    spreadParseToken 2 0 6 0 _ spreadCall initTranslator t _ spreadCallee spreadArguments
    (spreadMachine 0) (spreadMachine 8) (spreadFrames 0) (.object 0) spreadCall_parse
    spreadTokens_arguments htranslate herr rfl hbytecode (spreadMachine_at 0) spreadFrames_codeAt rfl
    spreadArguments_buildsCall
  -- The call instance is the only one that there is.
  obtain rfl := hg.unique (spreadMachine_at 8)
  have hinstance : [0] = id :: (spreadFrames 0).callInstance := hid
  rw [List.cons.injEq] at hinstance
  obtain rfl := hinstance.1
  have hargs : c = spreadInstance [.bool true, .string [97]] := (Option.some.inj hc).symm
  have hwrong := horder.args
  rw [hargs] at hwrong
  revert hwrong
  decide

end Chloride
