import Chloride.Runtime.Arithmetic
import Chloride.Runtime.ArgumentOrder
import Chloride.Runtime.NumberCache

/-!
# Number literals

What `OP_LOAD_NUMBER` loads for the code and the constants that `translate_parsed_number` writes for a
rational: the bytes of the numerator and the denominator are where the operands say, in the arena at that
time and in every later one, so that `numberAt` has the rational again (`translateParsedNumber_spec`).
The handler looks into the number cache first. `loadsNumber_iff` says when that makes no difference.
-/

namespace Chloride

/-- The frame is at the code that a translation has appended, with the constants that there are in the
end, and has the register. -/
structure Frame.AtLiteral (f : Frame) (toRegister : UInt8) (t t' : Translated) : Prop where
  code : f.CodeAt (t'.bytecode.drop t.bytecode.length)
  constants : t'.constants.data <+: f.module.constants
  register : toRegister.toNat < f.registers.length

/-- The step leaves the rational in the register, normalised. -/
def LoadsNumber (m : Machine) (a : Answer) (toRegister : UInt8) (q : Mpq) : Prop :=
  ∃ (m' : Machine) (c : NumberObject), step m (.exec a) = some m' ∧
    m'.register toRegister = some (.number c.1) ∧ c.1.toRat = q.toRat

/-- The number cache of the frame has another number under the key of the literal that the frame is
at. -/
def Machine.Misfiled (m : Machine) (f : Frame) (q : Mpq) : Prop :=
  ∃ toRegister number f₁ key n, f.fetch = some (.loadNumber toRegister number, f₁) ∧
    number.cacheKey = some key ∧ m.heap.cached f.loadNumberCache key = some n ∧ n ≠ newNumberObject q

/-! ## Import and export -/

theorem mpzImport_append_singleton (data : List UInt8) (b : UInt8) :
    mpzImport (data ++ [b]) = 256 * mpzImport data + b.toNat := by
  unfold mpzImport
  rw [List.foldl_append]
  rfl

theorem mpzImport_reverse_digits {digits : List ℕ} (h : ∀ d ∈ digits, d < 256) :
    mpzImport (digits.map UInt8.ofNat).reverse = Nat.ofDigits 256 digits := by
  induction digits with
  | nil => rfl
  | cons d digits ih =>
    have hd : (UInt8.ofNat d).toNat = d := UInt8.toNat_ofNat_of_lt' (h d (List.mem_cons_self ..))
    rw [List.map_cons, List.reverse_cons, mpzImport_append_singleton,
      ih fun d hd => h d (List.mem_cons_of_mem _ hd), hd, Nat.ofDigits_cons, Nat.add_comm]

/-- What is exported is imported. -/
theorem mpzImport_mpzExport (z : ℤ) : mpzImport (mpzExport z) = z.natAbs := by
  unfold mpzExport
  rw [mpzImport_reverse_digits fun d hd => Nat.digits_lt_base (by decide) hd]
  exact Nat.ofDigits_digits 256 z.natAbs

theorem mpzExport_ne_nil {z : ℤ} (hz : z ≠ 0) : mpzExport z ≠ [] := by
  intro hnil
  have himport := mpzImport_mpzExport z
  rw [hnil] at himport
  exact hz (Int.natAbs_eq_zero.mp himport.symm)

/-! ## Data in the arena -/

/-- The data is in an arena from an offset on. -/
def DataAt (arena : List UInt8) (offset : ℕ) (data : List UInt8) : Prop :=
  offset + data.length ≤ arena.length ∧ (arena.drop offset).take data.length = data

/-- It stays there. -/
theorem DataAt.mono {arena arena' data : List UInt8} {offset : ℕ} (h : DataAt arena offset data)
    (hinitial : arena <+: arena') : DataAt arena' offset data := by
  obtain ⟨rest, rfl⟩ := hinitial
  obtain ⟨hlength, htake⟩ := h
  have hdrop : (arena ++ rest).drop offset = arena.drop offset ++ rest :=
    List.drop_append_of_le_length (by omega)
  refine ⟨by rw [List.length_append]; omega, ?_⟩
  rw [hdrop, List.take_append_of_le_length (by rw [List.length_drop]; omega), htake]

/-- Data that was pushed is in the arena, which has only grown. -/
theorem ConstantArena.push_spec {hash : List UInt8 → UInt64} {arena arena' : ConstantArena}
    {data : List UInt8} {offset : ℕ} (hne : data ≠ [])
    (h : arena.push hash data = (offset, arena')) :
    DataAt arena'.data offset data ∧ arena.data <+: arena'.data := by
  have hadd : DataAt (arena.data ++ data) arena.data.length data := by
    unfold DataAt
    rw [List.length_append, List.drop_left, List.take_length]
    exact ⟨le_refl _, rfl⟩
  unfold ConstantArena.push at h
  dsimp only at h
  split at h
  case h_1 found hfind =>
    split at h
    case isTrue hsame =>
      cases h
      have hlength := congrArg List.length hsame
      have hpos := List.length_pos_of_ne_nil hne
      rw [List.length_take, List.length_drop] at hlength
      exact ⟨⟨by omega, hsame⟩, List.prefix_rfl⟩
    case isFalse =>
      cases h
      exact ⟨hadd, List.prefix_append _ _⟩
  case h_2 =>
    cases h
    exact ⟨hadd, List.prefix_append _ _⟩

theorem arenaPush_spec {siphash : List UInt8 → UInt64} {data : List UInt8} {t t' : Translated} {n : ℕ}
    (hne : data ≠ []) (h : arenaPush siphash data t = some (n, t')) :
    DataAt t'.constants.data n data ∧ t.constants.data <+: t'.constants.data := by
  unfold arenaPush at h
  obtain ⟨_, u, hget, h⟩ := Translate.bind_some.mp h
  obtain ⟨rfl, rfl⟩ := Translate.pure_some.mp hget
  obtain ⟨_, v, hmodify, h⟩ := Translate.bind_some.mp h
  obtain ⟨rfl, rfl⟩ := Translate.pure_some.mp h
  rw [modify_some hmodify]
  exact ConstantArena.push_spec hne rfl

/-- `arena_get` of data that is there, by the operands for its place and its size. -/
theorem Module.arenaGet_of_dataAt {module : Module} {data : List UInt8} {offset : ℕ}
    (h : DataAt module.constants offset data) (hoffset : offset + data.length < 2^64) :
    module.arenaGet (u64 offset) (u64 data.length) = some data := by
  have hpos : (u64 offset).toNat = offset := UInt64.toNat_ofNat_of_lt' (show _ < 2^64 by omega)
  have hsize : (u64 data.length).toNat = data.length := UInt64.toNat_ofNat_of_lt' (show _ < 2^64 by omega)
  unfold Module.arenaGet
  rw [hpos, hsize, if_pos h.1, h.2]

/-! ## The code of a literal -/

theorem push_constants {i : Instr} {n : ℕ} {t t' : Translated} (h : push i t = some (n, t')) :
    t'.constants = t.constants := by
  unfold push at h
  obtain ⟨offset, u, hsize, h⟩ := Translate.bind_some.mp h
  obtain ⟨_, rfl⟩ := Translate.pure_some.mp hsize
  obtain ⟨_, v, hmodify, h⟩ := Translate.bind_some.mp h
  obtain ⟨_, rfl⟩ := Translate.pure_some.mp h
  rw [modify_some hmodify]

/-- A rational that is kept as one is not zero. -/
theorem Mpq.Canonical.num_ne_zero {q : Mpq} (hq : q.Canonical) (h : mpqToInt64 q = none) :
    q.num ≠ 0 := by
  have hnormal : (Number.mpq q).Normal := ⟨hq, h⟩
  exact hnormal.num_ne_zero

/-- The sign and the absolute value. -/
theorem sign_natAbs (z : ℤ) : (if decide (z < 0) then -(z.natAbs : ℤ) else z.natAbs) = z := by
  by_cases hz : z < 0
  · rw [if_pos (decide_eq_true hz)]
    omega
  · rw [if_neg (by simpa using hz)]
    omega

/-- The translation of a rational appends one `OP_LOAD_NUMBER`, whose operands stand for the rational in
every module that has the constants of the translation. -/
theorem translateParsedNumber_spec {siphash : List UInt8 → UInt64} {q : Mpq} (hq : q.Canonical)
    {toRegister : UInt8} {start : ℕ} {t t' : Translated}
    (h : translateParsedNumber siphash q toRegister t = some (start, t'))
    (hsize : t'.constants.data.length < 2^64) :
    ∃ number, t'.bytecode = t.bytecode ++ (Instr.loadNumber toRegister number).encode ∧
      ∀ module : Module, t'.constants.data <+: module.constants →
        module.numberAt number = some (newNumberObject q) := by
  unfold translateParsedNumber at h
  obtain ⟨_, t₁, hregisters, h⟩ := Translate.bind_some.mp h
  have hcode₁ := setRegisters_bytecode hregisters
  cases hint : mpqToInt64 q with
  | some n =>
    -- The compact form.
    rw [hint] at h
    refine ⟨.int64 n.toUInt64, by rw [push_some h, hcode₁], fun module _ => ?_⟩
    unfold Module.numberAt newNumberObject
    rw [hint]
    exact congrArg (some ∘ Number.i64) n.toInt64_toUInt64
  | none =>
    rw [hint] at h
    obtain ⟨numPos, t₂, hnum, h⟩ := Translate.bind_some.mp h
    obtain ⟨hnumAt, _⟩ := arenaPush_spec (mpzExport_ne_nil (hq.num_ne_zero hint)) hnum
    have hcode₂ := arenaPush_bytecode hnum
    by_cases hden : q.den = 1
    · -- Only the numerator is written.
      rw [if_pos hden] at h
      have hconstants := push_constants h
      refine ⟨_, by rw [push_some h, hcode₂, hcode₁], fun module hmodule => ?_⟩
      rw [hconstants] at hmodule hsize
      have hget := Module.arenaGet_of_dataAt (hnumAt.mono hmodule) (by have := hnumAt.1; omega)
      unfold Module.numberAt
      simp only [hget, Option.bind_eq_bind, Option.bind_some, Option.pure_def, mpzImport_mpzExport,
        sign_natAbs]
      exact congrArg (some ∘ newNumberObject) (by cases q; subst hden; rfl)
    · rw [if_neg hden] at h
      obtain ⟨denPos, t₃, hpush, h⟩ := Translate.bind_some.mp h
      have hden0 : (q.den : ℤ) ≠ 0 := by exact_mod_cast q.den_pos.ne'
      obtain ⟨hdenAt, hgrow⟩ := arenaPush_spec (mpzExport_ne_nil hden0) hpush
      have hconstants := push_constants h
      refine ⟨_, by rw [push_some h, arenaPush_bytecode hpush, hcode₂, hcode₁], fun module hmodule => ?_⟩
      rw [hconstants] at hmodule hsize
      have hlength := hgrow.length_le
      have hget := Module.arenaGet_of_dataAt (hnumAt.mono (hgrow.trans hmodule))
        (by have := hnumAt.1; omega)
      have hget' := Module.arenaGet_of_dataAt (hdenAt.mono hmodule) (by have := hdenAt.1; omega)
      have himport : mpzImport (mpzExport q.den) = q.den := mpzImport_mpzExport q.den
      unfold Module.numberAt
      simp only [hget, hget', Option.bind_eq_bind, Option.bind_some, Option.pure_def,
        mpzImport_mpzExport, sign_natAbs, himport]
      exact dif_pos q.den_pos

/-! ## Its execution -/

/-- The number that a literal with the value `c` gives a frame: the one that its cache has under the key
of the literal, if it has one. -/
def Heap.numberFor (h : Heap) (f : Frame) (number : NumberOperand) (c : Number) : Number :=
  (number.cacheKey.bind (h.cached f.loadNumberCache)).getD c

theorem execLoadNumber_of_numberAt {h : Heap} {f : Frame} {toRegister : UInt8} {number : NumberOperand}
    (hregister : toRegister.toNat < f.registers.length) {c : Number}
    (hc : f.module.numberAt number = some c) :
    ∃ h' f', execLoadNumber h f toRegister number = some (h', f', none) ∧
      f'.read toRegister = some (.number (h.numberFor f number c)) := by
  obtain ⟨f', hwrite, _⟩ := Frame.exists_write (.number (h.numberFor f number c)) hregister
  have hread := Frame.read_write hwrite
  unfold Heap.numberFor at hwrite
  unfold execLoadNumber
  cases hkey : number.cacheKey with
  | none =>
    rw [hkey] at hwrite
    simp only [Option.bind_none, Option.getD_none] at hwrite
    exact ⟨h, f', by simp [hc, hwrite], hread⟩
  | some key =>
    rw [hkey, Option.bind_some] at hwrite
    unfold Heap.cached at hwrite
    dsimp only
    cases hfind : find (h.caches.getD f.loadNumberCache []) key with
    | some n =>
      rw [hfind, Option.getD_some] at hwrite
      exact ⟨h, f', by simp [hwrite], hread⟩
    | none =>
      rw [hfind, Option.getD_none] at hwrite
      exact ⟨_, f', by simp [hc, hwrite]; rfl, hread⟩

/-- The step at a literal leaves the number for it in the register. -/
theorem step_loadNumber {m : Machine} {f : Frame} (hf : m.At f) {toRegister : UInt8}
    {number : NumberOperand} (hcode : f.CodeAt (Instr.loadNumber toRegister number).encode)
    (hregister : toRegister.toNat < f.registers.length) {c : Number}
    (hc : f.module.numberAt number = some c) (a : Answer) :
    ∃ m', step m (.exec a) = some m' ∧
      m'.register toRegister = some (.number (m.heap.numberFor f number c)) := by
  obtain ⟨inv, rest, frames, hinvs, hframes, herr⟩ := hf
  have hfetch : f.fetch = some (.loadNumber toRegister number,
      { f with ip := f.ip + (Instr.loadNumber toRegister number).encode.length }) := by
    rw [← List.append_nil (Instr.encode _)] at hcode
    exact hcode.fetch
  have hrunning : inv.Running f := by
    have hlength := hcode.length_le
    rw [List.length_drop] at hlength
    have hpos := List.length_pos_of_ne_nil (Instr.encode_ne_nil (.loadNumber toRegister number))
    exact ⟨herr, by omega⟩
  obtain ⟨heap, f', hexec, hread⟩ := execLoadNumber_of_numberAt (h := m.heap) (f := { f with
    ip := f.ip + (Instr.loadNumber toRegister number).encode.length }) hregister hc
  unfold step
  rw [hinvs]
  dsimp only
  rw [hframes]
  dsimp only
  rw [if_pos hrunning, hfetch]
  simp only [Option.bind_eq_bind, Option.bind_some, execInstr, hexec]
  exact ⟨_, rfl, hread⟩

/-- A frame that is at the code of a translation has no other instruction there. -/
theorem Frame.CodeAt.fetch_loadNumber {f f₁ : Frame} {toRegister r : UInt8} {number n : NumberOperand}
    (hcode : f.CodeAt (Instr.loadNumber toRegister number).encode)
    (hfetch : f.fetch = some (.loadNumber r n, f₁)) : n = number := by
  rw [← List.append_nil (Instr.encode _)] at hcode
  rw [hcode.fetch, Option.some.injEq, Prod.mk.injEq] at hfetch
  obtain ⟨hinstr, _⟩ := hfetch
  cases hinstr
  rfl

/-- The step at the code of a literal loads its number, equal and normalised, if and only if the cache
of the frame has no other number under its key. -/
theorem loadsNumber_iff {siphash : List UInt8 → UInt64} {q : Mpq} (hq : q.Canonical)
    {toRegister : UInt8} {start : ℕ} {t t' : Translated}
    (htranslate : translateParsedNumber siphash q toRegister t = some (start, t'))
    (hsize : t'.constants.data.length < 2^64) {m : Machine} {f : Frame} (hf : m.At f)
    (hliteral : f.AtLiteral toRegister t t') (a : Answer) :
    LoadsNumber m a toRegister q ↔ ¬m.Misfiled f q := by
  obtain ⟨number, hcode, hnumber⟩ := translateParsedNumber_spec hq htranslate hsize
  have hcodeAt : f.CodeAt (Instr.loadNumber toRegister number).encode := by
    have h := hliteral.code
    rwa [hcode, List.drop_left] at h
  have hfetch : f.fetch = some (.loadNumber toRegister number,
      { f with ip := f.ip + (Instr.loadNumber toRegister number).encode.length }) := by
    have h := hcodeAt
    rw [← List.append_nil (Instr.encode _)] at h
    exact h.fetch
  obtain ⟨m', hstep, hregister⟩ := step_loadNumber hf hcodeAt hliteral.register
    (hnumber f.module hliteral.constants) a
  have hnormal := newNumberObject_normal hq
  -- What is loaded is normalised and has the value of the literal if and only if it is its number.
  have hloads : LoadsNumber m a toRegister q ↔
      m.heap.numberFor f number (newNumberObject q) = newNumberObject q := by
    constructor
    · rintro ⟨m'', c, hstep', hregister', hvalue⟩
      rw [hstep] at hstep'
      cases hstep'
      rw [hregister, Option.some.injEq, Value.number.injEq] at hregister'
      have hsame : c = ⟨newNumberObject q, hnormal⟩ := by
        apply NumberObject.toRat_injective
        exact hvalue.trans (newNumberObject_toRat q).symm
      rw [hregister', hsame]
    · intro hsame
      rw [hsame] at hregister
      exact ⟨m', ⟨_, hnormal⟩, hstep, hregister, newNumberObject_toRat q⟩
  rw [hloads]
  unfold Heap.numberFor
  constructor
  · rintro hsame ⟨r, number', f₁, key, n, hfetch', hkey, hcached, hne⟩
    rw [hcodeAt.fetch_loadNumber hfetch'] at hkey
    rw [hkey, Option.bind_some, hcached, Option.getD_some] at hsame
    exact hne hsame
  · intro hmisfiled
    cases hkey : number.cacheKey with
    | none => rfl
    | some key =>
      cases hcached : m.heap.cached f.loadNumberCache key with
      | none => rw [Option.bind_some, hcached, Option.getD_none]
      | some n =>
        rw [Option.bind_some, hcached, Option.getD_some]
        by_contra hne
        exact hmisfiled ⟨_, _, _, key, n, hfetch, hkey, hcached, hne⟩

/-- The fractions of the modules above are the first literals of their programs. -/
theorem exists_translate_first (q : Mpq) (hq : q = ⟨1, 2, by decide⟩ ∨ q = ⟨1, 4, by decide⟩) :
    ∃ t', translateParsedNumber (fun _ => 0) q 0 initTranslator = some (0, t') ∧
      t'.bytecode = (Instr.loadNumber 0 firstLiteral).encode ∧
      t'.constants.data = [1, UInt8.ofNat q.den] := by
  have hmap : (translateParsedNumber (fun _ => 0) q 0 initTranslator).map (fun r =>
      (r.1, r.2.bytecode, r.2.constants.data)) =
      some (0, (Instr.loadNumber 0 firstLiteral).encode, [1, UInt8.ofNat q.den]) := by
    rcases hq with rfl | rfl
    · decide
    · decide
  obtain ⟨⟨start, t'⟩, htranslate, hparts⟩ := Option.map_eq_some_iff.mp hmap
  simp only [Prod.mk.injEq] at hparts
  obtain ⟨rfl, hcode, hdata⟩ := hparts
  exact ⟨t', htranslate, hcode, hdata⟩

/-- The first literal of a program, `0.5`, is loaded. -/
theorem loadsNumber_half : ∃ m f t', m.At f ∧ f.AtLiteral 0 initTranslator t' ∧
    translateParsedNumber (fun _ => 0) ⟨1, 2, by decide⟩ 0 initTranslator = some (0, t') ∧
    LoadsNumber m noAnswer 0 ⟨1, 2, by decide⟩ := by
  obtain ⟨t', htranslate, hcode, hdata⟩ := exists_translate_first ⟨1, 2, by decide⟩ (.inl rfl)
  let f : Frame := halfModule.frame (Machine.start [halfModule] []).heap
  let m : Machine := ⟨(Machine.start [halfModule] []).modules, (Machine.start [halfModule] []).heap,
    [⟨[f], none, f.stack, .null, false⟩]⟩
  have hf : m.At f := ⟨_, _, _, rfl, rfl, rfl⟩
  have hliteral : f.AtLiteral 0 initTranslator t' := by
    refine ⟨?_, ?_, by decide⟩
    · rw [hcode]
      exact ⟨_, rfl⟩
    · rw [hdata]
      exact List.prefix_rfl
  refine ⟨m, f, t', hf, hliteral, htranslate, ?_⟩
  have hcanonical : Mpq.Canonical ⟨1, 2, by decide⟩ := Nat.coprime_one_left 2
  apply (loadsNumber_iff hcanonical htranslate (by rw [hdata]; decide) hf hliteral noAnswer).mpr
  -- Nothing is in the caches yet.
  rintro ⟨r, number, f₁, key, n, _, _, hcached, _⟩
  cases hcached

/-- `0.25` in a function that another module calls is not loaded. -/
theorem not_forall_loadsNumber : ¬∀ (siphash : List UInt8 → UInt64) (q : Mpq) (toRegister : UInt8)
    (start : ℕ) (t t' : Translated) (modules : List Module) (m : Machine) (f : Frame) (a : Answer),
    q.Canonical → translateParsedNumber siphash q toRegister t = some (start, t') →
      m.Reachable modules → m.At f → f.AtLiteral toRegister t t' → LoadsNumber m a toRegister q := by
  intro h
  obtain ⟨before, after, inv, rest, frames, hbefore, hinvs, hframes, herr, hstep, hregister⟩ :=
    crossCall_spec
  obtain ⟨t', htranslate, hcode, hdata⟩ := exists_translate_first ⟨1, 4, by decide⟩ (.inr rfl)
  have hliteral : quarterFrame.AtLiteral 0 initTranslator t' := by
    refine ⟨?_, ?_, by decide⟩
    · rw [hcode]
      exact ⟨[], rfl⟩
    · rw [hdata]
      exact ⟨_, rfl⟩
  have hcanonical : Mpq.Canonical ⟨1, 4, by decide⟩ := Nat.coprime_one_left 4
  have hreach : before.Reachable [halfModule, quarterModule] :=
    Runs.Reachable.run (.init ⟨[], rfl⟩) hbefore
  obtain ⟨after', c, hstep', hregister', hvalue⟩ := h _ _ 0 0 _ t' [halfModule, quarterModule] before
    quarterFrame noAnswer hcanonical htranslate hreach ⟨inv, rest, frames, hinvs, hframes, herr⟩ hliteral
  rw [hstep] at hstep'
  cases hstep'
  rw [hregister, Option.some.injEq, Value.number.injEq] at hregister'
  rw [← hregister'] at hvalue
  norm_num [Number.toRat, Mpq.toRat] at hvalue

end Chloride
