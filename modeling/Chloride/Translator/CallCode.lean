import Chloride.Containers.Kinds
import Chloride.Parser.Call
import Chloride.Translator.Growth

/-!
# The code of a call

What `translate_parsed_call` emits: the arguments are taken kind after kind, and behind the code of
each stands the instruction that hands it to the call. `translateParsedCall_code` is the result.
-/

namespace Chloride

/-- The stage of the parser that an argument belongs to. -/
def Argument.kind : Argument → CallStage
  | positional _ => .positional
  | spread _ => .vArg
  | keyword _ _ => .kwargs
  | keywordSpread _ => .kwArg

/-- The members of a list of arguments in the order in which they are evaluated, with the places of
the positional ones. -/
def evaluationOrder {α : Type*} (argument : α → Argument) (xs : List α) : List (α × ℕ) :=
  (Kinds.ofKind (fun x => (argument x).kind) .positional xs).zipIdx ++
    (Kinds.byKind (fun x => (argument x).kind) [.vArg, .kwargs, .kwArg] xs).map fun x => (x, 0)

/-- Every argument is evaluated once. -/
theorem evaluationOrder_perm {α : Type*} (argument : α → Argument) (xs : List α) :
    ((evaluationOrder argument xs).map Prod.fst).Perm xs := by
  have hfst : (evaluationOrder argument xs).map Prod.fst =
      Kinds.byKind (fun x => (argument x).kind) [.positional, .vArg, .kwargs, .kwArg] xs := by
    unfold evaluationOrder
    rw [List.map_append, List.zipIdx_map_fst, List.map_map]
    have hid : (Prod.fst ∘ fun x : α => (x, 0)) = id := rfl
    rw [hid, List.map_id]
    rfl
  rw [hfst]
  have hall : ∀ kind : CallStage, kind ∈ [CallStage.positional, .vArg, .kwargs, .kwArg] := by
    intro kind
    cases kind <;> decide
  exact Kinds.byKind_perm (by decide) fun x _ => hall _

theorem evaluationOrder_map {α β : Type*} (argument : α → Argument) (f : β → α) (ys : List β) :
    evaluationOrder argument (ys.map f) =
      (evaluationOrder (fun y => argument (f y)) ys).map fun p => (f p.1, p.2) := by
  have hkind : ∀ kind, Kinds.ofKind (fun x => (argument x).kind) kind (ys.map f) =
      (Kinds.ofKind (fun y => (argument (f y)).kind) kind ys).map f := fun kind =>
    (Kinds.map_ofKind (fun x => (argument x).kind) f kind ys).symm
  unfold evaluationOrder Kinds.byKind
  rw [hkind, List.zipIdx_map, List.map_append, List.map_map, List.map_flatMap, List.map_flatMap]
  simp only [hkind, List.map_map]
  rfl

/-- An argument with its code, and the place of its name in the constants. -/
structure CodedArgument where
  argument : Argument
  code : List UInt8
  position : UInt64

section

variable (siphash : List UInt8 → UInt64)

/-- The instruction that hands an argument to the call. -/
def CodedArgument.instr (a : CodedArgument) (i : ℕ) : Instr :=
  match a.argument with
  | .positional _ => .insertArg (u64 i)
  | .spread _ => .op .unpackArgs
  | .keyword name _ => .setKeyWordArg (u64 name.length) a.position (siphash name)
  | .keywordSpread _ => .op .unpackKeyWordArgs

/-- The code of an argument with its instruction. -/
def CodedArgument.bytes (a : CodedArgument) (i : ℕ) : List UInt8 :=
  a.code ++ (a.instr siphash i).encode

/-- The code of a call behind that of the object that is called. -/
def callCode (as : List CodedArgument) (line column : UInt64) : List UInt8 :=
  (Instr.initCall (u64 (Kinds.ofKind (fun a => a.argument.kind) .positional as).length)).encode ++
    (Instr.op .newScope).encode ++
    ((evaluationOrder CodedArgument.argument as).flatMap fun p => p.1.bytes siphash p.2) ++
    (Instr.op .popScope).encode ++ (Instr.sourceLocation line column 1).encode ++
    (Instr.op .call).encode

end

/-! ## Steps of the translator -/

section

variable {α β : Type} {t t' : Translated}

theorem Translate.bind_some {x : Translate α} {f : α → Translate β} {b : β} :
    (x >>= f) t = some (b, t') ↔ ∃ a u, x t = some (a, u) ∧ f a u = some (b, t') := by
  show (x t >>= fun p => f p.1 p.2) = _ ↔ _
  rw [Option.bind_eq_bind, Option.bind_eq_some_iff]
  constructor
  · rintro ⟨⟨a, u⟩, hx, hf⟩
    exact ⟨a, u, hx, hf⟩
  · rintro ⟨a, u, hx, hf⟩
    exact ⟨(a, u), hx, hf⟩

theorem Translate.pure_some {a b : α} : (pure a : Translate α) t = some (b, t') ↔ a = b ∧ t = t' := by
  show some (a, t) = _ ↔ _
  rw [Option.some.injEq, Prod.mk.injEq]

theorem isError_some {b : Bool} : isError t = some (b, t') ↔ t.err.isSome = b ∧ t = t' :=
  Translate.pure_some

theorem push_some {i : Instr} {n : ℕ} (h : push i t = some (n, t')) :
    t'.bytecode = t.bytecode ++ i.encode := by
  unfold push at h
  obtain ⟨offset, u, hsize, h⟩ := Translate.bind_some.mp h
  obtain ⟨_, rfl⟩ := Translate.pure_some.mp hsize
  obtain ⟨_, v, hmodify, h⟩ := Translate.bind_some.mp h
  obtain ⟨_, rfl⟩ := Translate.pure_some.mp h
  cases hmodify
  rfl

/-- A change of the state that is not one of the code. -/
theorem modify_some {g : Translated → Translated} {u : Unit}
    (h : (modify g : Translate Unit) t = some (u, t')) : t' = g t := by
  cases h
  rfl

theorem setRegisters_bytecode {count : UInt8} {u : Unit} (h : setRegisters count t = some (u, t')) :
    t'.bytecode = t.bytecode := by
  rw [modify_some h]
  split
  · rfl
  · rfl

theorem arenaPush_bytecode {siphash : List UInt8 → UInt64} {data : List UInt8} {n : ℕ}
    (h : arenaPush siphash data t = some (n, t')) : t'.bytecode = t.bytecode := by
  unfold arenaPush at h
  obtain ⟨_, u, hget, h⟩ := Translate.bind_some.mp h
  obtain ⟨_, rfl⟩ := Translate.pure_some.mp hget
  obtain ⟨_, v, hmodify, h⟩ := Translate.bind_some.mp h
  obtain ⟨_, rfl⟩ := Translate.pure_some.mp h
  rw [modify_some hmodify]

end

/-- A loop that appends code for each member. -/
theorem forEach_code {α β γ : Type} {body : ℕ → α → Translate Bool} {f : α → γ} {g : β → γ}
    {c : β → ℕ → List UInt8} {xs : List α}
    (hbody : ∀ i, ∀ x ∈ xs, ∀ t t', body i x t = some (true, t') →
      ∃ y, g y = f x ∧ t'.bytecode = t.bytecode ++ c y i) {i : ℕ} {t t' : Translated}
    (h : forEach body i xs t = some (true, t')) :
    ∃ ys : List β, ys.map g = xs.map f ∧
      t'.bytecode = t.bytecode ++ (ys.zipIdx i).flatMap fun p => c p.1 p.2 := by
  induction xs generalizing i t with
  | nil =>
    obtain ⟨_, rfl⟩ := Translate.pure_some.mp h
    exact ⟨[], rfl, (List.append_nil _).symm⟩
  | cons x xs ih =>
    unfold forEach at h
    obtain ⟨b, u, hx, h⟩ := Translate.bind_some.mp h
    cases b with
    | false => obtain ⟨hfalse, _⟩ := Translate.pure_some.mp h; cases hfalse
    | true =>
      obtain ⟨y, hy, hu⟩ := hbody i x List.mem_cons_self t u hx
      obtain ⟨ys, hys, ht'⟩ := ih (fun i x hx => hbody i x (List.mem_cons_of_mem _ hx)) h
      refine ⟨y :: ys, by rw [List.map_cons, List.map_cons, hy, hys], ?_⟩
      rw [ht', hu, List.zipIdx_cons, List.flatMap_cons, List.append_assoc]

theorem forEach_map {α β : Type} (body : ℕ → β → Translate Bool) (f : α → β) (i : ℕ) (xs : List α) :
    forEach body i (xs.map f) = forEach (fun i x => body i (f x)) i xs := by
  induction xs generalizing i with
  | nil => rfl
  | cons x xs ih =>
    rw [List.map_cons, forEach, forEach]
    refine congrArg (body i (f x) >>= ·) (funext fun b => ?_)
    rw [ih]

/-- A loop that is left early after an error. -/
theorem forEach_false {α : Type} {body : ℕ → α → Translate Bool} {xs : List α}
    (hbody : ∀ i, ∀ x ∈ xs, ∀ t t', body i x t = some (false, t') → t'.err.isSome) {i : ℕ}
    {t t' : Translated} (h : forEach body i xs t = some (false, t')) : t'.err.isSome := by
  induction xs generalizing i t with
  | nil => obtain ⟨hfalse, _⟩ := Translate.pure_some.mp h; cases hfalse
  | cons x xs ih =>
    unfold forEach at h
    obtain ⟨b, u, hx, h⟩ := Translate.bind_some.mp h
    cases b with
    | false =>
      obtain ⟨_, rfl⟩ := Translate.pure_some.mp h
      exact hbody i x List.mem_cons_self t u hx
    | true => exact ih (fun i x hx => hbody i x (List.mem_cons_of_mem _ hx)) h

/-! ## The call -/

section

variable {siphash : List UInt8 → UInt64}

theorem translateParsed_call (line column : UInt64) (toCall : ParsedValue) (args : List ParsedValue)
    (vArg : Option ParsedValue) (kwargs : List (Name × ParsedValue)) (kwArg : Option ParsedValue) :
    translateParsed siphash (.call line column toCall args vArg kwargs kwArg) =
      translateParsedCall siphash line column (translateParsed siphash toCall)
        (args.map (translateParsed siphash)) (vArg.map (translateParsed siphash))
        (kwargs.map fun e => (e.1, translateParsed siphash e.2))
        (kwArg.map (translateParsed siphash)) := by
  unfold translateParsed
  rw [ParsedValue.fold, foldList_eq, foldOption_eq, foldOption_eq, foldNamed_eq]
  rfl

/-- The body of the loop over the positional arguments. -/
theorem translateArg_code {v : ParsedValue} {i : ℕ} {b : Bool} {t t' : Translated}
    (h : (do
      let _ ← translateParsed siphash v
      if ← isError then return false
      let _ ← push (.insertArg (u64 i))
      return true : Translate Bool) t = some (b, t')) :
    if b then ∃ y : CodedArgument, y.argument = .positional v ∧
      t'.bytecode = t.bytecode ++ y.bytes siphash i
    else t'.err.isSome := by
  obtain ⟨n, u, hpart, h⟩ := Translate.bind_some.mp h
  obtain ⟨code, hcode⟩ := translateParsed_code siphash hpart
  obtain ⟨failed, _, herror, h⟩ := Translate.bind_some.mp h
  obtain ⟨hfailed, rfl⟩ := isError_some.mp herror
  cases failed with
  | true =>
    obtain ⟨rfl, rfl⟩ := Translate.pure_some.mp h
    exact hfailed
  | false =>
    obtain ⟨m, w, hpush, h⟩ := Translate.bind_some.mp h
    obtain ⟨rfl, rfl⟩ := Translate.pure_some.mp h
    refine ⟨⟨.positional v, code, 0⟩, rfl, ?_⟩
    rw [push_some hpush, hcode, List.append_assoc]
    rfl

/-- The body of the loop over the keywords. -/
theorem translateKeyword_code {e : Name × ParsedValue} {b : Bool} {t t' : Translated}
    (h : (do
      let _ ← translateParsed siphash e.2
      if ← isError then return false
      let identifierPos ← arenaPush siphash e.1
      setRegisters 1
      let _ ← push (.setKeyWordArg (u64 e.1.length) (u64 identifierPos) (siphash e.1))
      return true : Translate Bool) t = some (b, t')) :
    if b then ∃ y : CodedArgument, y.argument = .keyword e.1 e.2 ∧
      t'.bytecode = t.bytecode ++ y.bytes siphash 0
    else t'.err.isSome := by
  obtain ⟨n, u, hpart, h⟩ := Translate.bind_some.mp h
  obtain ⟨code, hcode⟩ := translateParsed_code siphash hpart
  obtain ⟨failed, _, herror, h⟩ := Translate.bind_some.mp h
  obtain ⟨hfailed, rfl⟩ := isError_some.mp herror
  cases failed with
  | true =>
    obtain ⟨rfl, rfl⟩ := Translate.pure_some.mp h
    exact hfailed
  | false =>
    obtain ⟨identifierPos, w, harena, h⟩ := Translate.bind_some.mp h
    obtain ⟨_, w', hregisters, h⟩ := Translate.bind_some.mp h
    obtain ⟨m, w'', hpush, h⟩ := Translate.bind_some.mp h
    obtain ⟨rfl, rfl⟩ := Translate.pure_some.mp h
    refine ⟨⟨.keyword e.1 e.2, code, u64 identifierPos⟩, rfl, ?_⟩
    rw [push_some hpush, setRegisters_bytecode hregisters, arenaPush_bytecode harena, hcode,
      List.append_assoc]
    rfl

/-- A spread argument, if there is one, with what follows. -/
theorem translateSpread_code {spread : Option ParsedValue} (argument : ParsedValue → Argument)
    {i : Instr} (hi : ∀ v code, (CodedArgument.mk (argument v) code 0).instr siphash 0 = i)
    {next : Translate ℕ} {t t' : Translated} {n : ℕ}
    (h : (match spread.map (translateParsed siphash) with
      | some part => do
        let _ ← part
        let _ ← push i
        next
      | _ => next : Translate ℕ) t = some (n, t')) :
    ∃ (ys : List CodedArgument) (u : Translated), ys.map CodedArgument.argument = spread.toList.map argument ∧
      u.bytecode = t.bytecode ++ (ys.flatMap fun y => y.bytes siphash 0) ∧
      next u = some (n, t') := by
  cases spread with
  | none => exact ⟨[], t, rfl, (List.append_nil _).symm, h⟩
  | some v =>
    obtain ⟨m, u, hpart, h⟩ := Translate.bind_some.mp h
    obtain ⟨code, hcode⟩ := translateParsed_code siphash hpart
    obtain ⟨m', w, hpush, h⟩ := Translate.bind_some.mp h
    refine ⟨[⟨argument v, code, 0⟩], w, rfl, ?_, h⟩
    rw [push_some hpush, hcode, List.flatMap_singleton, CodedArgument.bytes, hi, List.append_assoc]

/-- The parts of the code of a call, kind after kind. -/
theorem translateParsedCall_parts {line column : UInt64} {toCall : ParsedValue}
    {args : List ParsedValue} {vArg : Option ParsedValue} {kwargs : List (Name × ParsedValue)}
    {kwArg : Option ParsedValue} {t t' : Translated} {n : ℕ}
    (h : translateParsed siphash (.call line column toCall args vArg kwargs kwArg) t = some (n, t'))
    (herr : t'.err = none) :
    ∃ (code : List UInt8) (parts : CallStage → List CodedArgument),
      (parts .positional).map CodedArgument.argument = args.map Argument.positional ∧
      (parts .vArg).map CodedArgument.argument = vArg.toList.map Argument.spread ∧
      (parts .kwargs).map CodedArgument.argument = kwargs.map (fun e => Argument.keyword e.1 e.2) ∧
      (parts .kwArg).map CodedArgument.argument = kwArg.toList.map Argument.keywordSpread ∧
      t'.bytecode = t.bytecode ++ code ++ ((Instr.initCall (u64 args.length)).encode ++
        (Instr.op .newScope).encode ++
        ((parts .positional).zipIdx.flatMap fun p => p.1.bytes siphash p.2) ++
        ((parts .vArg).flatMap fun y => y.bytes siphash 0) ++
        ((parts .kwargs).flatMap fun y => y.bytes siphash 0) ++
        ((parts .kwArg).flatMap fun y => y.bytes siphash 0) ++
        (Instr.op .popScope).encode ++ (Instr.sourceLocation line column 1).encode ++
        (Instr.op .call).encode) := by
  rw [translateParsed_call] at h
  unfold translateParsedCall at h
  obtain ⟨_, t₁, hregisters, h⟩ := Translate.bind_some.mp h
  obtain ⟨first, t₂, hcallee, h⟩ := Translate.bind_some.mp h
  obtain ⟨code, hcode⟩ := translateParsed_code siphash hcallee
  obtain ⟨failed, _, herror, h⟩ := Translate.bind_some.mp h
  obtain ⟨hfailed, rfl⟩ := isError_some.mp herror
  cases failed with
  | true =>
    obtain ⟨_, rfl⟩ := Translate.pure_some.mp h
    rw [herr] at hfailed
    cases hfailed
  | false =>
  rw [if_neg Bool.false_ne_true] at h
  obtain ⟨_, t₃, hinit, h⟩ := Translate.bind_some.mp h
  obtain ⟨_, t₄, hscope, h⟩ := Translate.bind_some.mp h
  obtain ⟨_, t₅, henter, h⟩ := Translate.bind_some.mp h
  obtain ⟨old, _, hget, h⟩ := Translate.bind_some.mp h
  obtain ⟨rfl, rfl⟩ := Translate.pure_some.mp hget
  obtain ⟨_, t₆, hclear, h⟩ := Translate.bind_some.mp h
  obtain ⟨done, t₇, hloop, h⟩ := Translate.bind_some.mp h
  rw [forEach_map] at hloop
  cases done with
  | false =>
    have hsome := forEach_false (fun i v hv u u' hbody => translateArg_code hbody) hloop
    obtain ⟨_, t₈, hmodify, h⟩ := Translate.bind_some.mp h
    obtain ⟨_, rfl⟩ := Translate.pure_some.mp h
    rw [modify_some hmodify] at herr
    rw [herr] at hsome
    cases hsome
  | true =>
  rw [if_neg (by decide)] at h
  obtain ⟨positionals, hpositionals, hcode₇⟩ := forEach_code (f := Argument.positional)
    (g := CodedArgument.argument) (c := fun y i => y.bytes siphash i)
    (fun i v hv u u' hbody => translateArg_code (b := true) hbody) hloop
  dsimp only at h
  obtain ⟨spreads, t₈, hspreads, hcode₈, h⟩ :=
    translateSpread_code Argument.spread (fun _ _ => rfl) h
  obtain ⟨done, t₉, hloop', h⟩ := Translate.bind_some.mp h
  rw [forEach_map] at hloop'
  cases done with
  | false =>
    have hsome := forEach_false (fun i e he u u' hbody => translateKeyword_code hbody)
      hloop'
    obtain ⟨_, t₁₀, hmodify, h⟩ := Translate.bind_some.mp h
    obtain ⟨_, rfl⟩ := Translate.pure_some.mp h
    rw [modify_some hmodify] at herr
    rw [herr] at hsome
    cases hsome
  | true =>
  rw [if_neg (by decide)] at h
  obtain ⟨keywords, hkeywords, hcode₉⟩ := forEach_code
    (f := fun e : Name × ParsedValue => Argument.keyword e.1 e.2) (g := CodedArgument.argument)
    (c := fun y _ => y.bytes siphash 0)
    (fun i e he u u' hbody => translateKeyword_code (b := true) hbody) hloop'
  obtain ⟨keywordSpreads, t₁₀, hkeywordSpreads, hcode₁₀, h⟩ :=
    translateSpread_code Argument.keywordSpread (fun _ _ => rfl) h
  obtain ⟨_, t₁₁, hrestore, h⟩ := Translate.bind_some.mp h
  obtain ⟨_, t₁₂, hpop, h⟩ := Translate.bind_some.mp h
  obtain ⟨_, t₁₃, hleave, h⟩ := Translate.bind_some.mp h
  obtain ⟨_, t₁₄, hlocation, h⟩ := Translate.bind_some.mp h
  obtain ⟨_, t₁₅, hcall, h⟩ := Translate.bind_some.mp h
  obtain ⟨_, rfl⟩ := Translate.pure_some.mp h
  refine ⟨code, fun
    | .positional => positionals
    | .vArg => spreads
    | .kwargs => keywords
    | .kwArg => keywordSpreads, hpositionals, hspreads, hkeywords, hkeywordSpreads, ?_⟩
  have hcode₃ : t₃.bytecode = t.bytecode ++ code ++ (Instr.initCall (u64 args.length)).encode := by
    rw [push_some hinit, hcode, setRegisters_bytecode hregisters, List.length_map]
  have hcode₆ : t₆.bytecode = t₃.bytecode ++ (Instr.op .newScope).encode := by
    rw [← push_some hscope, modify_some hclear, modify_some henter]
  have hcode₁₁ : t₁₁.bytecode = t₁₀.bytecode := by
    rw [modify_some hrestore]
  have hcode₁₃ : t₁₃.bytecode = t₁₂.bytecode := by
    rw [modify_some hleave]
  have hzipIdx : ((keywords.zipIdx 0).flatMap fun p => p.1.bytes siphash 0) =
      keywords.flatMap fun y => y.bytes siphash 0 := by
    rw [← List.flatMap_map Prod.fst fun y : CodedArgument => y.bytes siphash 0, List.zipIdx_map_fst]
  rw [push_some hcall, push_some hlocation, hcode₁₃, push_some hpop, hcode₁₁, hcode₁₀, hcode₉, hzipIdx,
    hcode₈, hcode₇, hcode₆, hcode₃]
  simp only [List.append_assoc]

theorem map_filterMap_positional (as : List Argument) :
    (as.filterMap Argument.positional?).map Argument.positional =
      Kinds.ofKind Argument.kind .positional as :=
  Kinds.map_filterMap_eq_ofKind as (fun a ha => by cases a <;> first | rfl | cases ha)
    fun a ha => by cases a <;> first | rfl | exact absurd rfl ha

theorem map_filterMap_spread (as : List Argument) :
    (as.filterMap Argument.spread?).map Argument.spread = Kinds.ofKind Argument.kind .vArg as :=
  Kinds.map_filterMap_eq_ofKind as (fun a ha => by cases a <;> first | rfl | cases ha)
    fun a ha => by cases a <;> first | rfl | exact absurd rfl ha

theorem map_filterMap_keyword (as : List Argument) :
    (as.filterMap Argument.keyword?).map (fun e => Argument.keyword e.1 e.2) =
      Kinds.ofKind Argument.kind .kwargs as :=
  Kinds.map_filterMap_eq_ofKind as (fun a ha => by cases a <;> first | rfl | cases ha)
    fun a ha => by cases a <;> first | rfl | exact absurd rfl ha

theorem map_filterMap_keywordSpread (as : List Argument) :
    (as.filterMap Argument.keywordSpread?).map Argument.keywordSpread =
      Kinds.ofKind Argument.kind .kwArg as :=
  Kinds.map_filterMap_eq_ofKind as (fun a ha => by cases a <;> first | rfl | cases ha)
    fun a ha => by cases a <;> first | rfl | exact absurd rfl ha

/-- The code of a call, with the arguments in the order of the source. -/
theorem translateParsedCall_code {call : ParsedCall} {as : List Argument} (hholds : call.Holds as)
    {t t' : Translated} {n : ℕ} (h : translateParsed siphash call.value t = some (n, t'))
    (herr : t'.err = none) :
    ∃ (code : List UInt8) (cs : List CodedArgument), cs.map CodedArgument.argument = as ∧
      t'.bytecode = t.bytecode ++ code ++ callCode siphash cs call.line call.column := by
  obtain ⟨code, parts, hpositionals, hspreads, hkeywords, hkeywordSpreads, hcode⟩ :=
    translateParsedCall_parts h herr
  rw [hholds.args, map_filterMap_positional] at hpositionals
  rw [hholds.vArg, map_filterMap_spread] at hspreads
  rw [hholds.kwargs, map_filterMap_keyword] at hkeywords
  rw [hholds.kwArg, map_filterMap_keywordSpread] at hkeywordSpreads
  have hparts : ∀ kind,
      (parts kind).map CodedArgument.argument = Kinds.ofKind Argument.kind kind as := by
    intro kind
    cases kind with
    | positional => exact hpositionals
    | vArg => exact hspreads
    | kwargs => exact hkeywords
    | kwArg => exact hkeywordSpreads
  obtain ⟨cs, hcs, hkinds⟩ := Kinds.exists_merge as hparts
  refine ⟨code, cs, hcs, ?_⟩
  have hlength : (parts .positional).length = call.args.length := by
    rw [← List.length_map (f := CodedArgument.argument), hpositionals, hholds.args,
      ← map_filterMap_positional, List.length_map]
  have horder : ((evaluationOrder CodedArgument.argument cs).flatMap fun p => p.1.bytes siphash p.2) =
      ((parts .positional).zipIdx.flatMap fun p => p.1.bytes siphash p.2) ++
        (((parts .vArg).flatMap fun y => y.bytes siphash 0) ++
          (((parts .kwargs).flatMap fun y => y.bytes siphash 0) ++
            ((parts .kwArg).flatMap fun y => y.bytes siphash 0))) := by
    unfold evaluationOrder Kinds.byKind
    rw [List.flatMap_append, List.flatMap_map]
    simp only [hkinds, List.flatMap_cons, List.flatMap_nil, List.flatMap_append, List.append_nil]
  unfold callCode
  rw [hcode, horder, hkinds, hlength]
  simp only [List.append_assoc]

end

end Chloride
