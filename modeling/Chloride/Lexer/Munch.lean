import Mathlib

/-!
# Lexing by rules

Rules are regular expressions with the kind of token that they give. The next token is the longest
that a rule matches at the start of the input, and the first rule that matches so much decides. The
expressions are those of the library; the file adds classes of letters, repetition, and what is
matched by each.
-/

namespace Munch

variable {α κ : Type*}

/-! ## Expressions -/

/-- One of the letters. -/
def anyOf (letters : List α) : RegularExpression α := (letters.map .char).sum

/-- One time or more. -/
def oneOrMore (P : RegularExpression α) : RegularExpression α := P * P.star

theorem mem_char {a : α} {w : List α} : w ∈ (RegularExpression.char a).matches' ↔ w = [a] := Iff.rfl

theorem mem_anyOf {letters : List α} {w : List α} :
    w ∈ (anyOf letters).matches' ↔ ∃ a ∈ letters, w = [a] := by
  induction letters with
  | nil => simp [anyOf]
  | cons a letters ih =>
    have hsum : anyOf (a :: letters) = .char a + anyOf letters := rfl
    rw [hsum, RegularExpression.matches'_add, Language.mem_add, ih, mem_char]
    simp

theorem mem_add {P Q : RegularExpression α} {w : List α} :
    w ∈ (P + Q).matches' ↔ w ∈ P.matches' ∨ w ∈ Q.matches' := Language.mem_add _ _ _

theorem mem_mul {P Q : RegularExpression α} {w : List α} :
    w ∈ (P * Q).matches' ↔ ∃ u ∈ P.matches', ∃ v ∈ Q.matches', u ++ v = w := Language.mem_mul

/-- A letter and what an expression matches. -/
theorem mem_char_mul {a : α} {P : RegularExpression α} {w : List α} :
    w ∈ (.char a * P).matches' ↔ ∃ v ∈ P.matches', w = a :: v := by
  rw [mem_mul]
  constructor
  · rintro ⟨u, hu, v, hv, rfl⟩
    obtain rfl := mem_char.mp hu
    exact ⟨v, hv, rfl⟩
  · rintro ⟨v, hv, rfl⟩
    exact ⟨[a], rfl, v, hv, rfl⟩

/-- The letters of a word. -/
def word : List α → RegularExpression α
  | [] => 1
  | a :: w => .char a * word w

theorem mem_star {P : RegularExpression α} {w : List α} :
    w ∈ P.star.matches' ↔ ∃ ws : List (List α), w = ws.flatten ∧ ∀ v ∈ ws, v ∈ P.matches' :=
  Language.mem_kstar

/-- Letters of a class, one after the other. -/
theorem mem_star_anyOf {letters : List α} {w : List α} :
    w ∈ (anyOf letters).star.matches' ↔ ∀ a ∈ w, a ∈ letters := by
  rw [mem_star]
  constructor
  · rintro ⟨ws, rfl, hws⟩ a ha
    obtain ⟨v, hv, ha⟩ := List.mem_flatten.mp ha
    obtain ⟨b, hb, rfl⟩ := mem_anyOf.mp (hws v hv)
    obtain rfl := List.mem_singleton.mp ha
    exact hb
  · intro hw
    refine ⟨w.map fun a => [a], ?_, fun v hv => ?_⟩
    · rw [← List.flatMap_def, List.flatMap_singleton']
    · obtain ⟨a, ha, rfl⟩ := List.mem_map.mp hv
      exact mem_anyOf.mpr ⟨a, hw a ha, rfl⟩

theorem mem_oneOrMore_anyOf {letters : List α} {w : List α} :
    w ∈ (oneOrMore (anyOf letters)).matches' ↔ w ≠ [] ∧ ∀ a ∈ w, a ∈ letters := by
  unfold oneOrMore
  rw [mem_mul]
  constructor
  · rintro ⟨u, hu, v, hv, rfl⟩
    obtain ⟨a, ha, rfl⟩ := mem_anyOf.mp hu
    refine ⟨by simp, fun b hb => ?_⟩
    rcases List.mem_cons.mp hb with rfl | hb
    · exact ha
    · exact mem_star_anyOf.mp hv b hb
  · rintro ⟨hne, hw⟩
    obtain ⟨a, v, rfl⟩ := List.exists_cons_of_ne_nil hne
    exact ⟨[a], mem_anyOf.mpr ⟨a, hw a List.mem_cons_self, rfl⟩, v,
      mem_star_anyOf.mpr fun b hb => hw b (List.mem_cons_of_mem _ hb), rfl⟩

/-- So many letters of a class. -/
theorem mem_pow_anyOf {letters : List α} {n : ℕ} {w : List α} :
    w ∈ (anyOf letters ^ n).matches' ↔ w.length = n ∧ ∀ a ∈ w, a ∈ letters := by
  rw [RegularExpression.matches'_pow]
  induction n generalizing w with
  | zero =>
    rw [pow_zero, Language.mem_one, List.length_eq_zero_iff]
    constructor
    · rintro rfl
      exact ⟨rfl, fun a ha => (List.not_mem_nil ha).elim⟩
    · exact And.left
  | succ n ih =>
    rw [pow_succ', Language.mem_mul]
    constructor
    · rintro ⟨u, hu, v, hv, rfl⟩
      obtain ⟨a, ha, rfl⟩ := mem_anyOf.mp hu
      obtain ⟨rfl, hall⟩ := ih.mp hv
      exact ⟨rfl, List.forall_mem_cons.mpr ⟨ha, hall⟩⟩
    · rintro ⟨hlength, hall⟩
      obtain ⟨a, v, rfl⟩ := List.exists_cons_of_length_eq_add_one hlength
      obtain ⟨ha, hv⟩ := List.forall_mem_cons.mp hall
      exact ⟨[a], mem_anyOf.mpr ⟨a, ha, rfl⟩, v, ih.mpr ⟨Nat.succ.inj hlength, hv⟩, rfl⟩

/-! ## First letters -/

section

variable [DecidableEq α]

/-- Whether an expression can match a list that begins with a letter, as far as its parts tell. -/
def mayStart (a : α) : RegularExpression α → Bool
  | .zero => false
  | .epsilon => false
  | .char b => a = b
  | .plus P Q => mayStart a P || mayStart a Q
  | .comp P Q => mayStart a P || P.matchEpsilon && mayStart a Q
  | .star P => mayStart a P

theorem matchEpsilon_of_nil_mem {P : RegularExpression α} (h : [] ∈ P.matches') :
    P.matchEpsilon = true :=
  (RegularExpression.rmatch_iff_matches' P []).mpr h

theorem mayStart_of_mem {a : α} {P : RegularExpression α} {w : List α} (h : a :: w ∈ P.matches') :
    mayStart a P = true := by
  induction P generalizing w with
  | zero => exact h.elim
  | epsilon => cases h
  | char b =>
    obtain ⟨rfl, -⟩ := List.cons.inj (mem_char.mp h)
    simp [mayStart]
  | plus P Q ihP ihQ =>
    rcases mem_add.mp h with hP | hQ
    · simp [mayStart, ihP hP]
    · simp [mayStart, ihQ hQ]
  | comp P Q ihP ihQ =>
    obtain ⟨u, hu, v, hv, heq⟩ := mem_mul.mp h
    cases u with
    | nil =>
      rw [List.nil_append] at heq
      subst heq
      simp [mayStart, matchEpsilon_of_nil_mem hu, ihQ hv]
    | cons b u =>
      obtain ⟨rfl, -⟩ := List.cons.inj heq
      simp [mayStart, ihP hu]
  | star P ih =>
    obtain ⟨ws, heq, hws⟩ := mem_star.mp h
    -- The letter is the first one of the first piece that is not empty.
    induction ws with
    | nil => cases heq
    | cons u ws ihws =>
      cases u with
      | nil => exact ihws heq fun v hv => hws v (List.mem_cons_of_mem _ hv)
      | cons b u =>
        obtain ⟨rfl, -⟩ := List.cons.inj heq
        exact ih (hws _ List.mem_cons_self)

end

/-! ## Tokens -/

/-- The next token of an input, and what is behind it: the longest that a rule matches, by the first
rule that matches it. -/
structure Next (rules : List (RegularExpression α × κ)) (input : List α) (kind : κ)
    (token rest : List α) : Prop where
  input_eq : input = token ++ rest
  nonempty : token ≠ []
  longest : ∃ (i : ℕ) (P : RegularExpression α), rules[i]? = some (P, kind) ∧ token ∈ P.matches' ∧
    ∀ (j : ℕ) (Q : RegularExpression α) (kind' : κ) (token' : List α), rules[j]? = some (Q, kind') →
      token' ∈ Q.matches' → token' <+: input →
        token'.length < token.length ∨ token'.length = token.length ∧ i ≤ j

/-- There is a next token when a rule matches something at the start of the input. -/
theorem Next.exists {rules : List (RegularExpression α × κ)} {input token : List α} {kind : κ}
    {P : RegularExpression α} (hP : (P, kind) ∈ rules) (htoken : token ∈ P.matches') (hne : token ≠ [])
    (hinitial : token <+: input) : ∃ kind token rest, Next rules input kind token rest := by
  classical
  -- The greatest length that a rule matches, and then the first rule that matches so much.
  let Matched (n i : ℕ) : Prop := ∃ (Q : RegularExpression α) (kind' : κ),
    rules[i]? = some (Q, kind') ∧ input.take n ∈ Q.matches' ∧ n ≤ input.length
  have hmatched {i : ℕ} {Q : RegularExpression α} {kind' : κ} {token' : List α}
      (hi : rules[i]? = some (Q, kind')) (hQ : token' ∈ Q.matches') (hpre : token' <+: input) :
      Matched token'.length i :=
    ⟨Q, kind', hi, by rwa [← List.prefix_iff_eq_take.mp hpre], hpre.length_le⟩
  obtain ⟨i, hi⟩ := List.getElem?_of_mem hP
  have hsome : ∃ i, Matched token.length i := ⟨i, hmatched hi htoken hinitial⟩
  let n := Nat.findGreatest (fun n => ∃ i, Matched n i) input.length
  have hn : ∃ i, Matched n i := Nat.findGreatest_spec (P := fun n => ∃ i, Matched n i) hinitial.length_le hsome
  have hpos : token.length ≤ n :=
    Nat.le_findGreatest (P := fun n => ∃ i, Matched n i) hinitial.length_le hsome
  obtain ⟨Q, kind', hrule, hQ, hle⟩ := Nat.find_spec hn
  have hlength : (input.take n).length = n := by rw [List.length_take, min_eq_left hle]
  refine ⟨kind', input.take n, input.drop n, (List.take_append_drop n input).symm, ?_, Nat.find hn, Q,
    hrule, hQ, fun j Q' kind'' token' hj hQ' hpre => ?_⟩
  · intro hnil
    have hzero := congrArg List.length hnil
    rw [hlength, List.length_nil] at hzero
    exact hne (List.eq_nil_of_length_eq_zero (by omega))
  · have hj' := hmatched hj hQ' hpre
    have hmax : token'.length ≤ n :=
      Nat.le_findGreatest (P := fun n => ∃ i, Matched n i) hpre.length_le ⟨j, hj'⟩
    rw [hlength]
    rcases hmax.lt_or_eq with hlt | heq
    · exact Or.inl hlt
    · rw [heq] at hj'
      exact Or.inr ⟨heq, Nat.find_min' hn hj'⟩

/-- Some rule matches the next token. -/
theorem Next.exists_rule {rules : List (RegularExpression α × κ)} {input token rest : List α} {kind : κ}
    (h : Next rules input kind token rest) : ∃ P, (P, kind) ∈ rules ∧ token ∈ P.matches' := by
  obtain ⟨i, P, hi, hP, _⟩ := h.longest
  exact ⟨P, List.mem_of_getElem? hi, hP⟩

/-- No rule matches more than the next token. -/
theorem Next.length_le {rules : List (RegularExpression α × κ)} {input token rest token' : List α}
    {kind kind' : κ} {Q : RegularExpression α} (h : Next rules input kind token rest)
    (hQ : (Q, kind') ∈ rules) (htoken' : token' ∈ Q.matches') (hinitial : token' <+: input) :
    token'.length ≤ token.length := by
  obtain ⟨i, P, hi, hP, hlongest⟩ := h.longest
  obtain ⟨j, hj⟩ := List.getElem?_of_mem hQ
  have hle := hlongest j Q kind' token' hj htoken' hinitial
  omega

/-- There is only one next token. -/
theorem Next.unique {rules : List (RegularExpression α × κ)} {input token token' rest rest' : List α}
    {kind kind' : κ} (h : Next rules input kind token rest) (h' : Next rules input kind' token' rest') :
    kind = kind' ∧ token = token' ∧ rest = rest' := by
  obtain ⟨hinput, _, i, P, hi, hP, hlongest⟩ := h
  obtain ⟨hinput', _, j, Q, hj, hQ, hlongest'⟩ := h'
  have hle := hlongest j Q kind' token' hj hQ ⟨rest', hinput'.symm⟩
  have hle' := hlongest' i P kind token hi hP ⟨rest, hinput.symm⟩
  have hlength : token.length = token'.length := by omega
  have hij : i = j := by omega
  subst hij
  obtain ⟨_, rfl⟩ := Prod.mk.inj (Option.some.inj (hi.symm.trans hj))
  obtain ⟨rfl, rfl⟩ := List.append_inj (hinput.symm.trans hinput') hlength
  exact ⟨rfl, rfl, rfl⟩

end Munch
