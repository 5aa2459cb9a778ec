import Chloride.Translator.CallCode

/-!
# The code of an import

What `translate_parsed_import` emits behind the code of the file: the import itself, the declaration
of the alias, and the instructions that take names out of the module. The module is in register 0;
with more than one name it is kept in another register, and copied back for every name but the first.
`translateParsedImport_code` is the result.
-/

namespace Chloride

/-- The name that an exposed name gets: the one behind `as`, or its own. -/
def ParsedImportExpose.declared (e : ParsedImportExpose) : Name := e.as_.getD e.identifier

/-- The names of the list of an import. -/
def Expose.listed : Expose → List ParsedImportExpose
  | .names ns => ns
  | .none | .all => []

/-- A name of the list with the places of its two names in the constants. -/
structure PlacedExpose where
  expose : ParsedImportExpose
  position : UInt64
  declaredPosition : UInt64

section

variable (siphash : List UInt8 → UInt64) (registerA : UInt8)

/-- The declaration of a name with what is in register 0. -/
def declareInstr (name : Name) (position : UInt64) : Instr :=
  .declare (u64 name.length) position (siphash name) 0

/-- The instructions that take a name out of the module and declare it. -/
def PlacedExpose.take (e : PlacedExpose) : List Instr :=
  [.expose (u64 e.expose.identifier.length) e.position (siphash e.expose.identifier),
    declareInstr siphash e.expose.declared e.declaredPosition]

/-- The same with the module put in register 0 before. -/
def PlacedExpose.retake (e : PlacedExpose) : List Instr :=
  .copyToRegister registerA 0 :: e.take siphash

/-- The instructions for all names of the list. -/
def takeAll : List PlacedExpose → List Instr
  | [] => []
  | [e] => e.take siphash
  | e :: es => .copyToRegister 0 registerA :: e.take siphash ++ es.flatMap (·.retake siphash registerA)

/-- The instructions for what an import exposes. -/
def exposeCode (es : List PlacedExpose) : Expose → List Instr
  | .none => []
  | .all => [.op .exposeAll]
  | .names _ => takeAll siphash registerA es

/-- The instructions of an import, from `OP_IMPORT` on. -/
def importCode (as_ : Option (Name × UInt64)) (expose : Expose) (es : List PlacedExpose) :
    List Instr :=
  .op .opImport :: (as_.toList.map fun e => declareInstr siphash e.1 e.2) ++
    exposeCode siphash registerA es expose

end

/-! ## Steps of the translator that keep the registers -/

section

variable {t t' : Translated}

theorem push_registerAssignment {i : Instr} {n : ℕ} (h : push i t = some (n, t')) :
    t'.registerAssignment = t.registerAssignment := by
  cases h
  rfl

theorem arenaPush_registerAssignment {siphash : List UInt8 → UInt64} {data : List UInt8} {n : ℕ}
    (h : arenaPush siphash data t = some (n, t')) : t'.registerAssignment = t.registerAssignment := by
  cases h
  rfl

theorem newRegister_some {register : UInt8} (h : newRegister t = some (register, t')) :
    register = t.registerAssignment ∧ t'.bytecode = t.bytecode := by
  cases h
  exact ⟨rfl, rfl⟩

theorem freeRegisters_bytecode {n : UInt8} {u : Unit} (h : freeRegisters n t = some (u, t')) :
    t'.bytecode = t.bytecode := by
  cases h
  rfl

end

/-- A loop whose body never leaves it runs to the end. -/
theorem forEach_true {α : Type} {body : ℕ → α → Translate Bool} {xs : List α}
    (hbody : ∀ i x t t' b, body i x t = some (b, t') → b = true) {i : ℕ} {t t' : Translated}
    {b : Bool} (h : forEach body i xs t = some (b, t')) : b = true := by
  induction xs generalizing i t with
  | nil => exact (Translate.pure_some.mp h).1.symm
  | cons x xs ih =>
    unfold forEach at h
    obtain ⟨c, u, hx, h⟩ := Translate.bind_some.mp h
    obtain rfl := hbody i x t u c hx
    exact ih h

/-! ## The import -/

section

variable {siphash : List UInt8 → UInt64}

theorem translateParsed_import (loc : SourceLocation) (file : ParsedValue) (as_ : Option Name)
    (expose : Expose) :
    translateParsed siphash (.import_ loc file as_ expose) =
      translateParsedImport siphash loc (translateParsed siphash file) as_ expose := rfl

/-- The code of a name behind the first one, and that of the first one. -/
def PlacedExpose.bytes (siphash : List UInt8 → UInt64) (registerA : UInt8) (e : PlacedExpose) (i : ℕ) :
    List UInt8 :=
  (if i ≠ 0 then e.retake siphash registerA else e.take siphash).flatMap Instr.encode

/-- The body of the loop over the names. -/
theorem translateExpose_code {registerA : UInt8} {e : ParsedImportExpose} {i : ℕ} {b : Bool}
    {t t' : Translated}
    (h : (do
      if i ≠ 0 then
        let _ ← push (.copyToRegister registerA 0)
      let pos ← arenaPush siphash e.identifier
      let _ ← push (.expose (u64 e.identifier.length) (u64 pos) (siphash e.identifier))
      match e.as_ with
      | some name =>
        let pos ← arenaPush siphash name
        let _ ← pushDeclare siphash name pos 0
      | none =>
        let _ ← pushDeclare siphash e.identifier pos 0
      return true : Translate Bool) t = some (b, t')) :
    b = true ∧
      ∃ y : PlacedExpose, y.expose = e ∧ t'.bytecode = t.bytecode ++ y.bytes siphash registerA i := by
  -- The code of the name, behind that of the copy.
  have htake : ∀ {u : Translated}, (do
      let pos ← arenaPush siphash e.identifier
      let _ ← push (.expose (u64 e.identifier.length) (u64 pos) (siphash e.identifier))
      match e.as_ with
      | some name =>
        let pos ← arenaPush siphash name
        let _ ← pushDeclare siphash name pos 0
      | none =>
        let _ ← pushDeclare siphash e.identifier pos 0
      return true : Translate Bool) u = some (b, t') → b = true ∧
      ∃ y : PlacedExpose, y.expose = e ∧
        t'.bytecode = u.bytecode ++ (y.take siphash).flatMap Instr.encode := by
    intro u h
    obtain ⟨pos, v, harena, h⟩ := Translate.bind_some.mp h
    obtain ⟨n, w, hexpose, h⟩ := Translate.bind_some.mp h
    have hw : w.bytecode = u.bytecode ++ (Instr.expose (u64 e.identifier.length) (u64 pos)
        (siphash e.identifier)).encode := by
      rw [push_some hexpose, arenaPush_bytecode harena]
    cases has : e.as_ with
    | some name =>
      rw [has] at h
      obtain ⟨pos', v', harena', h⟩ := Translate.bind_some.mp h
      obtain ⟨n', w', hdeclare, h⟩ := Translate.bind_some.mp h
      obtain ⟨rfl, rfl⟩ := Translate.pure_some.mp h
      refine ⟨rfl, ⟨e, u64 pos, u64 pos'⟩, rfl, ?_⟩
      rw [push_some hdeclare, arenaPush_bytecode harena', hw]
      simp [PlacedExpose.take, declareInstr, ParsedImportExpose.declared, has]
    | none =>
      rw [has] at h
      obtain ⟨n', w', hdeclare, h⟩ := Translate.bind_some.mp h
      obtain ⟨rfl, rfl⟩ := Translate.pure_some.mp h
      refine ⟨rfl, ⟨e, u64 pos, u64 pos⟩, rfl, ?_⟩
      rw [push_some hdeclare, hw]
      simp [PlacedExpose.take, declareInstr, ParsedImportExpose.declared, has]
  unfold PlacedExpose.bytes
  by_cases hi : i ≠ 0
  · rw [if_pos hi] at h
    obtain ⟨n, u, hcopy, h⟩ := Translate.bind_some.mp h
    obtain ⟨hb, y, hy, hcode⟩ := htake h
    refine ⟨hb, y, hy, ?_⟩
    rw [if_pos hi, hcode, push_some hcopy, List.append_assoc]
    rfl
  · rw [if_neg hi] at h
    obtain ⟨hb, y, hy, hcode⟩ := htake h
    refine ⟨hb, y, hy, ?_⟩
    rw [if_neg hi, hcode]

/-- The bytes of names that are not the first. -/
theorem flatMap_bytes_succ (registerA : UInt8) (es : List PlacedExpose) (i : ℕ) :
    ((es.zipIdx (i + 1)).flatMap fun p => p.1.bytes siphash registerA p.2) =
      (es.flatMap (·.retake siphash registerA)).flatMap Instr.encode := by
  induction es generalizing i with
  | nil => rfl
  | cons e es ih =>
    rw [List.zipIdx_cons, List.flatMap_cons, List.flatMap_cons, List.flatMap_append, ih]
    rfl

/-- The bytes of all names: those of a list of one name do not depend on the register. -/
theorem flatMap_bytes (registerA : UInt8) (es : List PlacedExpose) :
    (if 1 < es.length then (Instr.copyToRegister 0 registerA).encode else []) ++
        (es.zipIdx.flatMap fun p =>
          p.1.bytes siphash (if 1 < es.length then registerA else 0) p.2) =
      (takeAll siphash registerA es).flatMap Instr.encode := by
  match es with
  | [] => rfl
  | [e] => simp [takeAll, PlacedExpose.bytes]
  | e :: e' :: es =>
    have hlength : 1 < (e :: e' :: es).length := by simp
    have hhead : e.bytes siphash registerA 0 = (e.take siphash).flatMap Instr.encode := rfl
    rw [if_pos hlength, if_pos hlength, List.zipIdx_cons, List.flatMap_cons, flatMap_bytes_succ, hhead]
    unfold takeAll
    rw [List.flatMap_append, List.flatMap_cons, List.flatMap_cons, List.append_assoc]

/-- The part of the translation that is about what is exposed. -/
theorem translateExposing_code {expose : Expose} {first n : ℕ} {t t' : Translated}
    (h : (do match expose with
      | .none => return first
      | .all =>
        let _ ← push (.op .exposeAll)
        return first
      | .names names =>
        let registerA ← (if 1 < names.length then do
            let registerA ← newRegister
            let _ ← push (.copyToRegister 0 registerA)
            return registerA
          else return 0)
        let _ ← forEach (fun i expose => do
          if i ≠ 0 then
            let _ ← push (.copyToRegister registerA 0)
          let pos ← arenaPush siphash expose.identifier
          let _ ← push (.expose (u64 expose.identifier.length) (u64 pos) (siphash expose.identifier))
          match expose.as_ with
          | some name =>
            let pos ← arenaPush siphash name
            let _ ← pushDeclare siphash name pos 0
          | none =>
            let _ ← pushDeclare siphash expose.identifier pos 0
          return true) 0 names
        if 1 < names.length then
          freeRegisters 1
        return first : Translate ℕ) t = some (n, t')) :
    ∃ es : List PlacedExpose, es.map PlacedExpose.expose = expose.listed ∧
      t'.bytecode = t.bytecode ++
        (exposeCode siphash t.registerAssignment es expose).flatMap Instr.encode := by
  cases expose with
  | none =>
    obtain ⟨_, rfl⟩ := Translate.pure_some.mp h
    exact ⟨[], rfl, (List.append_nil _).symm⟩
  | all =>
    obtain ⟨_, u, hpush, h⟩ := Translate.bind_some.mp h
    obtain ⟨_, rfl⟩ := Translate.pure_some.mp h
    refine ⟨[], rfl, ?_⟩
    rw [push_some hpush]
    simp [exposeCode]
  | names names =>
    obtain ⟨registerA, u, hregister, h⟩ := Translate.bind_some.mp h
    -- The register for the module, if one is taken.
    have hu : registerA = (if 1 < names.length then t.registerAssignment else 0) ∧
        u.bytecode = t.bytecode ++ if 1 < names.length then
          (Instr.copyToRegister 0 t.registerAssignment).encode else [] := by
      by_cases hlength : 1 < names.length
      · rw [if_pos hlength] at hregister
        obtain ⟨r, v, hnew, hregister⟩ := Translate.bind_some.mp hregister
        obtain ⟨_, w, hcopy, hregister⟩ := Translate.bind_some.mp hregister
        obtain ⟨rfl, rfl⟩ := Translate.pure_some.mp hregister
        obtain ⟨rfl, hv⟩ := newRegister_some hnew
        rw [if_pos hlength, if_pos hlength, push_some hcopy, hv]
        exact ⟨rfl, rfl⟩
      · rw [if_neg hlength] at hregister
        obtain ⟨rfl, rfl⟩ := Translate.pure_some.mp hregister
        rw [if_neg hlength, if_neg hlength, List.append_nil]
        exact ⟨rfl, rfl⟩
    obtain ⟨hregisterA, hu⟩ := hu
    -- The loop over the names.
    obtain ⟨done, v, hloop, h⟩ := Translate.bind_some.mp h
    obtain rfl := forEach_true (fun i e t t' b hbody => (translateExpose_code hbody).1) hloop
    obtain ⟨es, hes, hv⟩ := forEach_code (f := id) (g := PlacedExpose.expose)
      (c := fun e i => e.bytes siphash registerA i)
      (fun i e _ t t' hbody => (translateExpose_code hbody).2) hloop
    rw [List.map_id] at hes
    have hlengths : es.length = names.length := by
      rw [← hes, List.length_map]
    have ht' : t'.bytecode = v.bytecode := by
      by_cases hlength : 1 < names.length
      · rw [if_pos hlength] at h
        obtain ⟨_, w, hfree, h⟩ := Translate.bind_some.mp h
        obtain ⟨_, rfl⟩ := Translate.pure_some.mp h
        exact freeRegisters_bytecode hfree
      · rw [if_neg hlength] at h
        obtain ⟨_, rfl⟩ := Translate.pure_some.mp h
        rfl
    refine ⟨es, hes, ?_⟩
    rw [ht', hv, hu, List.append_assoc, hregisterA, ← hlengths, flatMap_bytes]
    rfl

/-- The code of an import behind that of its file. -/
theorem translateParsedImport_code {loc : SourceLocation} {file : ParsedValue} {as_ : Option Name}
    {expose : Expose} {t t₁ t' : Translated} {n first : ℕ}
    (hfile : translateParsed siphash file t = some (n, t₁)) (hok : t₁.err = none)
    (h : translateParsed siphash (.import_ loc file as_ expose) t = some (first, t')) :
    ∃ (placed : Option (Name × UInt64)) (es : List PlacedExpose),
      placed.map Prod.fst = as_ ∧ es.map PlacedExpose.expose = expose.listed ∧
      t'.bytecode = t₁.bytecode ++ (Instr.sourceLocation loc.line loc.column loc.length).encode ++
        (importCode siphash t₁.registerAssignment placed expose es).flatMap Instr.encode := by
  rw [translateParsed_import] at h
  unfold translateParsedImport at h
  obtain ⟨_, u, hfile', h⟩ := Translate.bind_some.mp h
  obtain ⟨rfl, rfl⟩ := Prod.mk.inj (Option.some.inj (hfile.symm.trans hfile'))
  obtain ⟨failed, _, herror, h⟩ := Translate.bind_some.mp h
  obtain ⟨rfl, rfl⟩ := isError_some.mp herror
  rw [hok] at h
  obtain ⟨_, u₁, hlocation, h⟩ := Translate.bind_some.mp h
  obtain ⟨_, u₂, himport, h⟩ := Translate.bind_some.mp h
  have hu₂ : u₂.bytecode = t₁.bytecode ++
      (Instr.sourceLocation loc.line loc.column loc.length).encode ++ (Instr.op .opImport).encode := by
    rw [push_some himport, push_some hlocation]
  have hregister₂ : u₂.registerAssignment = t₁.registerAssignment := by
    rw [push_registerAssignment himport, push_registerAssignment hlocation]
  cases as_ with
  | none =>
    obtain ⟨es, hes, hcode⟩ := translateExposing_code h
    refine ⟨none, es, rfl, hes, ?_⟩
    rw [hcode, hu₂, hregister₂]
    simp [importCode]
  | some name =>
    -- The alias is declared before.
    obtain ⟨asPos, v, harena, h⟩ := Translate.bind_some.mp h
    obtain ⟨_, w, hdeclare, h⟩ := Translate.bind_some.mp h
    obtain ⟨es, hes, hcode⟩ := translateExposing_code h
    refine ⟨some (name, u64 asPos), es, rfl, hes, ?_⟩
    rw [hcode, push_registerAssignment hdeclare, arenaPush_registerAssignment harena, hregister₂,
      push_some hdeclare, arenaPush_bytecode harena, hu₂]
    simp [importCode, declareInstr]

end

end Chloride
