import Chloride.Parser.Declarations

/-!
# The names of parameter lists

Which lists of names `parse_arg_list` and `parse_assign` take as parameters (`takes_iff`), and from that
and the lists that `parse_param_list` takes, when the three ways to write a function accept valid
parameter lists only (`FunctionSource.distinct_names_iff`).
-/

namespace Chloride

/-! ## The arguments that are taken as parameters -/

/-- How a parameter is written, where it matters: an optional one has no plain name to be behind it. -/
def Param.plain : Param → Bool
  | .required _ plain | .args _ plain | .kwargs _ plain => plain
  | .default .. | .optional .. => true

def Param.isOptional : Param → Bool
  | .optional .. => true
  | _ => false

/-- The stage behind some arguments: that of the last one with a star, if there is one. -/
def stageBehind (before : List Param) : CallStage :=
  match (before.filter fun p => 2 ≤ p.stage).getLast? with
  | some p => if p.stage = 2 then .vArg else .kwArg
  | none => if ∃ p ∈ before, p.HasDefault then .kwargs else .positional

/-- An argument that `parse_arg_list` refuses behind some others: a required one behind a defaulted one
without a star between, a second `*` or `**`, or any but `*` behind `**`. -/
def OutOfPlace (before : List Param) : Param → Prop
  | .required .. => stageBehind before = .kwargs ∨ stageBehind before = .kwArg
  | .default .. | .optional .. => stageBehind before = .kwArg
  | .args .. => ∃ p ∈ before, p.stage = 2
  | .kwargs .. => ∃ p ∈ before, p.stage = 3

/-- An argument is not written as a name, in front of all that are optional. -/
def NotNames (params : List Param) : Prop :=
  ∃ before p after, params = before ++ p :: after ∧ p.plain = false ∧ ∀ q ∈ before, q.isOptional = false

/-- The parameters without a default value. -/
def withoutDefault (params : List Param) : List Param := params.filter fun p => ¬p.HasDefault

theorem NotNames.append {params : List Param} (h : NotNames params) (rest : List Param) :
    NotNames (params ++ rest) := by
  obtain ⟨before, p, after, rfl, hplain, hbefore⟩ := h
  exact ⟨before, p, after ++ rest, by rw [List.append_assoc, List.cons_append], hplain, hbefore⟩

theorem stageBehind_append (before : List Param) (p : Param) :
    stageBehind (before ++ [p]) =
      if p.stage = 2 then .vArg else if p.stage = 3 then .kwArg
      else if p.HasDefault then (stageBehind before).keyword else stageBehind before := by
  have hthree := p.stage_le_three
  unfold stageBehind
  rw [List.filter_append, List.filter_singleton]
  by_cases hstar : 2 ≤ p.stage
  · rw [decide_eq_true hstar]
    dsimp only [cond_true]
    rw [List.getLast?_concat]
    dsimp only
    by_cases htwo : p.stage = 2
    · rw [if_pos htwo, if_pos htwo]
    · rw [if_neg htwo, if_neg htwo, if_pos (by omega)]
  · rw [decide_eq_false hstar]
    dsimp only [cond_false]
    have hnot : ¬p.stage = 2 := by omega
    have hnot' : ¬p.stage = 3 := by omega
    rw [List.append_nil, if_neg hnot, if_neg hnot']
    cases hlast : (before.filter fun p => 2 ≤ p.stage).getLast? with
    | some q =>
      dsimp only
      by_cases htwo : q.stage = 2
      · have hkeyword : CallStage.vArg.keyword = .vArg := rfl
        rw [if_pos htwo, hkeyword, ite_self]
      · have hkeyword : CallStage.kwArg.keyword = .kwArg := rfl
        rw [if_neg htwo, hkeyword, ite_self]
    | none =>
      dsimp only
      by_cases hdefault : p.HasDefault
      · rw [if_pos hdefault, if_pos ⟨p, List.mem_append_right _ (List.mem_singleton_self p), hdefault⟩]
        unfold CallStage.keyword
        split <;> rfl
      · rw [if_neg hdefault]
        refine if_congr ⟨?_, ?_⟩ rfl rfl
        · rintro ⟨q, hq, hq'⟩
          rcases List.mem_append.mp hq with hq | hq
          · exact ⟨q, hq, hq'⟩
          · exact absurd (List.mem_singleton.mp hq ▸ hq') hdefault
        · rintro ⟨q, hq, hq'⟩
          exact ⟨q, List.mem_append_left _ hq, hq'⟩

namespace CallParams

/-- The state is the one after some arguments. -/
structure Describes (s : CallParams) (before : List Param) : Prop where
  names : s.names.Perm ((withoutDefault before).map Param.name)
  vArg : s.vArg.isSome = true ↔ ∃ p ∈ before, p.stage = 2
  kwArg : s.kwArg.isSome = true ↔ ∃ p ∈ before, p.stage = 3
  stage : s.stage = stageBehind before
  notAllowed : s.assignMode = .notAllowed ↔ NotNames before
  allowed : s.assignMode = .allowed ↔ ∀ p ∈ before, p.isOptional = false ∧ p.plain = true

variable {s s' : CallParams} {before params : List Param} {p : Param} {plain : Bool}

theorem notNames_append :
    NotNames (before ++ [p]) ↔
      NotNames before ∨ p.plain = false ∧ ∀ q ∈ before, q.isOptional = false := by
  constructor
  · rintro ⟨front, q, back, heq, hplain, hfront⟩
    rcases List.eq_nil_or_concat' back with rfl | ⟨back, r, rfl⟩
    · obtain ⟨rfl, hlast⟩ := List.append_inj' heq rfl
      obtain rfl := List.singleton_inj.mp hlast
      exact .inr ⟨hplain, hfront⟩
    · rw [← List.cons_append, ← List.append_assoc] at heq
      obtain ⟨rfl, -⟩ := List.append_inj' heq rfl
      exact .inl ⟨front, q, back, rfl, hplain, hfront⟩
  · rintro (h | ⟨hplain, hbefore⟩)
    · exact h.append [p]
    · exact ⟨before, p, [], rfl, hplain, hbefore⟩

theorem notNames_of_mem {q : Param} (hq : q ∈ before) (hplain : q.plain = false)
    (h : ∀ q ∈ before, q.isOptional = false) : NotNames before := by
  obtain ⟨front, back, rfl⟩ := List.append_of_mem hq
  exact ⟨front, q, back, rfl, hplain, fun r hr => h r (List.mem_append_left _ hr)⟩

theorem forall_mem_concat {P : Param → Prop} :
    (∀ q ∈ before ++ [p], P q) ↔ (∀ q ∈ before, P q) ∧ P p := by
  rw [List.forall_mem_append, List.forall_mem_singleton]

theorem exists_mem_concat {P : Param → Prop} :
    (∃ q ∈ before ++ [p], P q) ↔ (∃ q ∈ before, P q) ∨ P p := by
  constructor
  · rintro ⟨q, hq, h⟩
    rcases List.mem_append.mp hq with hq | hq
    · exact .inl ⟨q, hq, h⟩
    · exact .inr (List.mem_singleton.mp hq ▸ h)
  · rintro (⟨q, hq, h⟩ | h)
    · exact ⟨q, List.mem_append_left _ hq, h⟩
    · exact ⟨p, List.mem_append_right _ (List.mem_singleton_self p), h⟩

/-- The mode behind an argument that is read as a name. -/
theorem Describes.modeAfter (h : s.Describes before) (hplain : p.plain = plain)
    (hoptional : p.isOptional = false) :
    (s.modeAfter plain = .notAllowed ↔ NotNames (before ++ [p])) ∧
      (s.modeAfter plain = .allowed ↔ ∀ q ∈ before ++ [p], q.isOptional = false ∧ q.plain = true) := by
  rw [notNames_append, forall_mem_concat, ← h.notAllowed, ← h.allowed, hplain]
  unfold CallParams.modeAfter
  by_cases hmode : s.assignMode = .allowed
  · have hall := h.allowed.mp hmode
    rw [hmode]
    cases plain with
    | true =>
      refine ⟨iff_of_false nofun ?_, iff_of_true rfl ⟨rfl, hoptional, rfl⟩⟩
      rintro (hmode' | ⟨hplain', -⟩)
      · cases hmode'
      · cases hplain'
    | false =>
      refine ⟨iff_of_true rfl (.inr ⟨rfl, fun q hq => (hall q hq).1⟩), iff_of_false nofun ?_⟩
      exact fun h => nomatch h.2.2
  · rw [if_neg fun h => hmode h.1]
    refine ⟨⟨.inl, ?_⟩, iff_of_false hmode fun h => hmode h.1⟩
    rintro (hmode' | ⟨-, hall⟩)
    · exact hmode'
    · -- The mode is not the first one, so something in front is not a name.
      rw [h.notAllowed]
      by_contra hnames
      refine hmode (h.allowed.mpr fun q hq => ⟨hall q hq, ?_⟩)
      by_contra hq'
      exact hnames (notNames_of_mem hq (Bool.eq_false_iff.mpr hq') hall)

theorem withoutDefault_append (before : List Param) (p : Param) :
    withoutDefault (before ++ [p]) = withoutDefault before ++ if p.HasDefault then [] else [p] := by
  unfold withoutDefault
  rw [List.filter_append, List.filter_singleton]
  by_cases hp : p.HasDefault
  · rw [if_pos hp, decide_eq_false (not_not.mpr hp)]
    rfl
  · rw [if_neg hp, decide_eq_true hp]
    rfl

theorem Describes.vArg_append (h : s.Describes before) :
    (s.vArg.isSome = true ∨ p.stage = 2) ↔ ∃ q ∈ before ++ [p], q.stage = 2 := by
  rw [exists_mem_concat, h.vArg]

theorem Describes.kwArg_append (h : s.Describes before) :
    (s.kwArg.isSome = true ∨ p.stage = 3) ↔ ∃ q ∈ before ++ [p], q.stage = 3 := by
  rw [exists_mem_concat, h.kwArg]

theorem Describes.names_append (h : s.Describes before) (p : Param) (hp : ¬p.HasDefault) {names : List Name}
    (hnames : names.Perm (s.names ++ [p.name])) :
    names.Perm ((withoutDefault (before ++ [p])).map Param.name) := by
  rw [withoutDefault_append, if_neg hp, List.map_append]
  exact hnames.trans (h.names.append_right _)

theorem perm_insert {l : List Name} (front middle back : List Name) {whole : List Name}
    (hl : l = front ++ middle ++ back) (hwhole : whole = front ++ back) : l.Perm (whole ++ middle) := by
  rw [hl, hwhole, List.append_assoc, List.append_assoc]
  exact List.perm_append_comm.append_left front

theorem Describes.names_default (h : s.Describes before) (hp : p.HasDefault) :
    s.names.Perm ((withoutDefault (before ++ [p])).map Param.name) := by
  rw [withoutDefault_append, if_pos hp, List.append_nil]
  exact h.names

/-- What happens to an argument behind some others. -/
theorem Describes.add (h : s.Describes before) (p : Param) :
    (s.add p = none → OutOfPlace before p ∨ NotNames before) ∧
      ∀ s', s.add p = some s' → ¬OutOfPlace before p ∧ s'.Describes (before ++ [p]) := by
  have hstage := stageBehind_append before p
  cases p with
  | required name plain =>
    obtain ⟨hnotAllowed, hallowed⟩ := h.modeAfter (p := .required name plain) rfl rfl
    rw [CallParams.add, h.stage]
    by_cases hplace : stageBehind before = .kwargs ∨ stageBehind before = .kwArg
    · rw [if_pos hplace]
      refine ⟨fun _ => .inl hplace, fun s' hs' => ?_⟩
      cases hs'
    rw [if_neg hplace]
    refine ⟨fun hnone => absurd hnone (Option.some_ne_none _), fun s' hs' => ⟨hplace, ?_⟩⟩
    obtain rfl := Option.some.inj hs'
    refine ⟨h.names_append (.required name plain) (by decide : ¬0 = 1) ?_, ?_, ?_, hstage.symm, hnotAllowed, hallowed⟩
    · exact perm_insert s.args [name] (s.vArg.toList ++ s.kwArg.toList) (List.append_assoc ..)
        (List.append_assoc ..)
    · rw [← h.vArg_append]
      exact (or_iff_left (by decide : ¬0 = 2)).symm
    · rw [← h.kwArg_append]
      exact (or_iff_left (by decide : ¬0 = 3)).symm
  | default name value =>
    rw [CallParams.add, h.stage]
    by_cases hplace : stageBehind before = .kwArg
    · rw [if_pos hplace]
      refine ⟨fun _ => .inl hplace, fun s' hs' => ?_⟩
      cases hs'
    rw [if_neg hplace]
    refine ⟨fun hnone => absurd hnone (Option.some_ne_none _), fun s' hs' => ⟨hplace, ?_⟩⟩
    obtain rfl := Option.some.inj hs'
    refine ⟨h.names_default (p := .default name value) rfl, ?_, ?_, hstage.symm, ?_, ?_⟩
    · rw [← h.vArg_append]
      exact (or_iff_left (by decide : ¬1 = 2)).symm
    · rw [← h.kwArg_append]
      exact (or_iff_left (by decide : ¬1 = 3)).symm
    · rw [notNames_append, h.notAllowed]
      exact (or_iff_left fun h => Bool.false_ne_true h.1.symm).symm
    · rw [forall_mem_concat, h.allowed]
      exact (and_iff_left ⟨rfl, rfl⟩).symm
  | optional name plain =>
    rw [CallParams.add, h.stage]
    by_cases hmode : s.assignMode = .notAllowed
    · rw [if_pos (.inl hmode)]
      refine ⟨fun _ => .inr (h.notAllowed.mp hmode), fun s' hs' => ?_⟩
      cases hs'
    by_cases hplace : stageBehind before = .kwArg
    · rw [if_pos (.inr hplace)]
      refine ⟨fun _ => .inl hplace, fun s' hs' => ?_⟩
      cases hs'
    have hnames : ¬NotNames before := fun hnames => hmode (h.notAllowed.mpr hnames)
    rw [if_neg (not_or.mpr ⟨hmode, hplace⟩)]
    refine ⟨fun hnone => absurd hnone (Option.some_ne_none _), fun s' hs' => ⟨hplace, ?_⟩⟩
    obtain rfl := Option.some.inj hs'
    refine ⟨h.names_default (p := .optional name plain) rfl, ?_, ?_, hstage.symm, ?_, ?_⟩
    · rw [← h.vArg_append]
      exact (or_iff_left (by decide : ¬1 = 2)).symm
    · rw [← h.kwArg_append]
      exact (or_iff_left (by decide : ¬1 = 3)).symm
    · rw [notNames_append]
      exact iff_of_false (by decide : AssignMode.required ≠ .notAllowed)
        (not_or.mpr ⟨hnames, fun h => Bool.false_ne_true h.1.symm⟩)
    · rw [forall_mem_concat]
      exact iff_of_false (by decide : AssignMode.required ≠ .allowed) fun h => Bool.false_ne_true h.2.1.symm
  | args name plain =>
    obtain ⟨hnotAllowed, hallowed⟩ := h.modeAfter (p := .args name plain) rfl rfl
    rw [CallParams.add]
    by_cases hsome : s.vArg.isSome = true
    · rw [if_pos hsome]
      refine ⟨fun _ => .inl (h.vArg.mp hsome), fun s' hs' => ?_⟩
      cases hs'
    rw [if_neg hsome]
    refine ⟨fun hnone => absurd hnone (Option.some_ne_none _), fun s' hs' => ⟨fun hplace => hsome (h.vArg.mpr hplace), ?_⟩⟩
    obtain rfl := Option.some.inj hs'
    refine ⟨h.names_append (.args name plain) (by decide : ¬2 = 1) ?_, ?_, ?_, hstage.symm, hnotAllowed, hallowed⟩
    · have hnone : s.vArg = none := Option.not_isSome_iff_eq_none.mp hsome
      refine perm_insert s.args [name] s.kwArg.toList rfl ?_
      rw [CallParams.names, hnone, Option.toList_none, List.append_nil]
    · exact iff_of_true rfl (exists_mem_concat.mpr (.inr rfl))
    · rw [← h.kwArg_append]
      exact (or_iff_left (by decide : ¬2 = 3)).symm
  | kwargs name plain =>
    obtain ⟨hnotAllowed, hallowed⟩ := h.modeAfter (p := .kwargs name plain) rfl rfl
    rw [CallParams.add]
    by_cases hsome : s.kwArg.isSome = true
    · rw [if_pos hsome]
      refine ⟨fun _ => .inl (h.kwArg.mp hsome), fun s' hs' => ?_⟩
      cases hs'
    rw [if_neg hsome]
    refine ⟨fun hnone => absurd hnone (Option.some_ne_none _), fun s' hs' => ⟨fun hplace => hsome (h.kwArg.mpr hplace), ?_⟩⟩
    obtain rfl := Option.some.inj hs'
    refine ⟨h.names_append (.kwargs name plain) (by decide : ¬3 = 1) ?_, ?_, ?_, hstage.symm, hnotAllowed, hallowed⟩
    · have hnone : s.kwArg = none := Option.not_isSome_iff_eq_none.mp hsome
      refine .of_eq ?_
      rw [CallParams.names, CallParams.names, hnone, Option.toList_none, List.append_nil]
      rfl
    · rw [← h.vArg_append]
      exact (or_iff_left (by decide : ¬3 = 2)).symm
    · exact iff_of_true rfl (exists_mem_concat.mpr (.inr rfl))

theorem describes_init : init.Describes [] := by
  refine ⟨.nil, ?_, ?_, rfl, ?_, iff_of_true rfl nofun⟩
  · exact iff_of_false nofun fun ⟨_, h, _⟩ => nomatch h
  · exact iff_of_false nofun fun ⟨_, h, _⟩ => nomatch h
  · refine iff_of_false nofun ?_
    rintro ⟨front, p, back, heq, -⟩
    exact List.append_ne_nil_of_right_ne_nil front (List.cons_ne_nil p back) heq.symm

/-- What happens to some more arguments. -/
theorem Describes.addAll (h : s.Describes before) :
    (params.foldlM CallParams.add s = none →
      (∃ front p back, params = front ++ p :: back ∧ OutOfPlace (before ++ front) p) ∨
        NotNames (before ++ params)) ∧
    ∀ s', params.foldlM CallParams.add s = some s' →
      (∀ front p back, params = front ++ p :: back → ¬OutOfPlace (before ++ front) p) ∧
        s'.Describes (before ++ params) := by
  induction params generalizing s before with
  | nil =>
    refine ⟨nofun, fun s' hs' => ⟨fun front p back heq => ?_, ?_⟩⟩
    · exact absurd heq.symm (List.append_ne_nil_of_right_ne_nil front (List.cons_ne_nil p back))
    · obtain rfl := Option.some.inj hs'
      rwa [List.append_nil]
  | cons p params ih =>
    obtain ⟨hnone, hsome⟩ := h.add p
    have happend : before ++ p :: params = before ++ [p] ++ params := by
      rw [List.append_assoc, List.singleton_append]
    rw [List.foldlM_cons, happend]
    cases hadd : s.add p with
    | none =>
      refine ⟨fun _ => ?_, fun s' hs' => nomatch hs'⟩
      rcases hnone hadd with hplace | hnames
      · exact .inl ⟨[], p, params, rfl, by rwa [List.append_nil]⟩
      · exact .inr ((hnames.append [p]).append params)
    | some s₁ =>
      obtain ⟨hplace, hdescribes⟩ := hsome s₁ hadd
      obtain ⟨hnone', hsome'⟩ := ih hdescribes
      refine ⟨fun hfold => ?_, fun s' hs' => ?_⟩
      · rcases hnone' hfold with ⟨front, q, back, rfl, hq⟩ | hnames
        · rw [List.append_assoc] at hq
          exact .inl ⟨p :: front, q, back, rfl, hq⟩
        · exact .inr hnames
      · obtain ⟨hplaced, hs'⟩ := hsome' s' hs'
        refine ⟨fun front q back heq => ?_, hs'⟩
        rcases front with _ | ⟨r, front⟩
        · obtain ⟨rfl, -⟩ := List.cons.inj heq
          rwa [List.append_nil]
        · obtain ⟨rfl, hrest⟩ := List.cons.inj heq
          rw [← List.singleton_append, ← List.append_assoc]
          exact hplaced front q back hrest

end CallParams

/-- The lists that are taken as parameters: every argument is in its place and written as a name, and the
names of those without a default value are apart, where there is no comma behind the last one. -/
structure TakenArguments (siphash : List UInt8 → UInt64) (params : List Param) (trailing : Bool) :
    Prop where
  placed : ∀ front p back, params = front ++ p :: back → ¬OutOfPlace front p
  names : ¬NotNames params
  apart : trailing = false → ((withoutDefault params).map fun p => siphash p.name).Nodup

section

variable {siphash : List UInt8 → UInt64} {params : List Param} {trailing : Bool}

/-- The calls to which a function can be assigned. -/
theorem takes_iff :
    (∃ s, CallParams.init.addAll siphash params trailing = some s ∧ s.assignMode ≠ .notAllowed) ↔
      TakenArguments siphash params trailing := by
  obtain ⟨hnone, hsome⟩ := @CallParams.Describes.addAll _ _ params CallParams.describes_init
  have hhashes : ∀ s : CallParams, s.Describes params →
      ((s.names.map siphash).Nodup ↔ ((withoutDefault params).map fun p => siphash p.name).Nodup) := by
    intro s hs
    rw [(hs.names.map siphash).nodup_iff, List.map_map]
    rfl
  unfold CallParams.addAll
  cases hfold : params.foldlM CallParams.add CallParams.init with
  | none =>
    refine iff_of_false (fun ⟨s, hs, _⟩ => nomatch hs) fun ⟨hplaced, hnames, _⟩ => ?_
    rcases hnone hfold with ⟨front, p, back, heq, hplace⟩ | hnot
    · exact hplaced front p back heq hplace
    · exact hnames hnot
  | some s =>
    obtain ⟨hplaced, hs⟩ := hsome s hfold
    have hmode : s.assignMode = .notAllowed ↔ NotNames params := hs.notAllowed
    rw [Option.map_some]
    cases trailing with
    | true =>
      constructor
      · rintro ⟨s', hs', hmode'⟩
        obtain rfl := Option.some.inj hs'
        exact ⟨hplaced, fun h => hmode' (hmode.mpr h), nofun⟩
      · rintro ⟨-, hnames, -⟩
        exact ⟨s, rfl, fun h => hnames (hmode.mp h)⟩
    | false =>
      have hchecked : (s.checked siphash).assignMode ≠ .notAllowed ↔
          (s.names.map siphash).Nodup ∧ s.assignMode ≠ .notAllowed := by
        unfold CallParams.checked
        by_cases hnodup : (s.names.map siphash).Nodup
        · rw [if_pos hnodup]
          exact (and_iff_right hnodup).symm
        · rw [if_neg hnodup]
          exact iff_of_false (fun h => h rfl) fun h => hnodup h.1
      constructor
      · rintro ⟨s', hs', hmode'⟩
        obtain rfl := Option.some.inj hs'
        obtain ⟨hnodup, hmode'⟩ := hchecked.mp hmode'
        exact ⟨hplaced, fun h => hmode' (hmode.mpr h), fun _ => (hhashes s hs).mp hnodup⟩
      · rintro ⟨-, hnames, hapart⟩
        exact ⟨_, rfl, hchecked.mpr ⟨(hhashes s hs).mpr (hapart rfl), fun h => hnames (hmode.mp h)⟩⟩

/-- What is wrong with a list and not looked for where it is read as arguments: the name of a defaulted
parameter is there twice, a required one is behind a defaulted one, or, where there is a comma behind the
last one, two names of others are one. -/
def Overlooked (params : List Param) (trailing : Bool) : Prop :=
  (¬params.Pairwise fun p q => p.HasDefault ∨ q.HasDefault → p.name ≠ q.name) ∨
    (¬params.Pairwise fun p q => p.HasDefault → q.stage ≠ 0) ∨
    trailing = true ∧ ¬((withoutDefault params).map Param.name).Nodup

theorem nodup_withoutDefault :
    ((withoutDefault params).map Param.name).Nodup ↔
      params.Pairwise fun p q => ¬p.HasDefault → ¬q.HasDefault → p.name ≠ q.name := by
  unfold withoutDefault
  rw [List.Nodup, List.pairwise_map, List.pairwise_filter]
  simp only [decide_eq_true_eq]

theorem Overlooked.not_valid (h : Overlooked params trailing) : ¬ValidParams params := by
  intro hvalid
  have hdistinct := hvalid.distinct
  rw [List.Nodup, List.pairwise_map] at hdistinct
  rcases h with hdefault | hrequired | ⟨-, hnames⟩
  · refine hdefault (hdistinct.imp ?_)
    exact fun hne _ => hne
  · exact hrequired hvalid.required_first
  · exact hnames (nodup_withoutDefault.mpr (hdistinct.imp fun hne _ _ => hne))

theorem pairwise_of_splits {R : Param → Param → Prop}
    (h : ∀ front p back, params = front ++ p :: back → ∀ q ∈ front, R q p) : params.Pairwise R := by
  induction params with
  | nil => exact .nil
  | cons p params ih =>
    refine .cons (fun q hq => ?_) (ih fun front q back heq r hr => ?_)
    · obtain ⟨front, back, rfl⟩ := List.append_of_mem hq
      exact h (p :: front) q back rfl p (List.mem_cons_self ..)
    · exact h (p :: front) q back (congrArg (p :: ·) heq) r (List.mem_cons_of_mem p hr)

/-- A list that is taken as parameters is valid unless there is something wrong that is not looked for. -/
theorem TakenArguments.valid_iff (h : TakenArguments siphash params trailing) :
    ValidParams params ↔ ¬Overlooked params trailing := by
  constructor
  · exact fun hvalid hoverlooked => hoverlooked.not_valid hvalid
  intro hoverlooked
  rw [Overlooked, not_or, not_or, not_not, not_not] at hoverlooked
  obtain ⟨hdefault, hrequired, htrailing⟩ := hoverlooked
  have hnames : ((withoutDefault params).map Param.name).Nodup := by
    cases trailing with
    | true => exact not_not.mp fun hnot => htrailing ⟨rfl, hnot⟩
    | false =>
      have hapart := h.apart rfl
      rw [← Function.comp_def, ← List.map_map] at hapart
      exact hapart.of_map
  refine ⟨?_, hrequired, pairwise_of_splits ?_, pairwise_of_splits ?_⟩
  · rw [List.Nodup, List.pairwise_map]
    refine (hdefault.and (nodup_withoutDefault.mp hnames)).imp ?_
    rintro p q ⟨hone, hnone⟩
    by_cases hboth : p.HasDefault ∨ q.HasDefault
    · exact hone hboth
    · exact hnone (fun h => hboth (.inl h)) fun h => hboth (.inr h)
  · rintro front p back heq q hq hqstage hpstage
    have hplace : OutOfPlace front p := by
      cases p with
      | args => exact ⟨q, hq, hqstage⟩
      | required => cases hpstage
      | default => cases hpstage
      | optional => cases hpstage
      | kwargs => cases hpstage
    exact h.placed front p back heq hplace
  · rintro front p back heq q hq hqstage hpstage
    have hplace : OutOfPlace front p := by
      cases p with
      | kwargs => exact ⟨q, hq, hqstage⟩
      | required => cases hpstage
      | default => cases hpstage
      | optional => cases hpstage
      | args => cases hpstage
    exact h.placed front p back heq hplace

end

/-! ## Syntax errors -/

/-- There is a syntax error. -/
def Parse.Fails {α : Type} (x : Parse α) (i : ℕ) : Prop := ∃ e, x i = .error (.error e)

section

variable {α β : Type} {i j k : ℕ} {x : Parse α} {a : α} {f : α → Parse β}

theorem Parse.bind_eq (h : x i = .ok (a, j)) : (x >>= f) i = f a j := by
  show (x i >>= fun p => f p.1 p.2) = _
  rw [h]
  rfl

theorem Parse.bind_error {e : ParseStop} (h : x i = .error e) : (x >>= f) i = .error e := by
  show (x i >>= fun p => f p.1 p.2) = _
  rw [h]
  rfl

theorem Parse.bind_fails :
    (x >>= f).Fails i ↔ x.Fails i ∨ ∃ a j, x i = .ok (a, j) ∧ (f a).Fails j := by
  unfold Parse.Fails
  show (∃ e, (x i >>= fun p => f p.1 p.2) = _) ↔ _
  cases hx : x i with
  | error e =>
    constructor
    · rintro ⟨e', h⟩
      cases h
      exact .inl ⟨e', rfl⟩
    · rintro (⟨e', h⟩ | ⟨a, j, h, -⟩)
      · cases h
        exact ⟨e', rfl⟩
      · cases h
  | ok p =>
    constructor
    · exact fun h => .inr ⟨p.1, p.2, rfl, h⟩
    · rintro (⟨e, h⟩ | ⟨a, j, h, h'⟩)
      · cases h
      · cases h
        exact h'

theorem Parse.fails_congr (h : x i = .ok (a, j)) : (x >>= f).Fails i ↔ (f a).Fails j := by
  unfold Parse.Fails
  rw [Parse.bind_eq h]

theorem Parse.not_fails (h : x i = .ok (a, j)) : ¬x.Fails i := by
  rintro ⟨e, he⟩
  rw [h] at he
  cases he

end

section

variable {siphash : List UInt8 → UInt64} {tokens : List Token}
  {parseToken : Parse (Option ParsedValue)} {i j k rounds : ℕ} {params : List Param} {token : Token}

theorem errorIfFinished_fails (hlt : i < tokens.length) :
    (errorIfFinished tokens).Fails (i + 1) ↔ tokens.length ≤ i + 1 := by
  constructor
  · intro h
    by_contra hle
    have hok : errorIfFinished tokens (i + 1) = .ok ((), i + 1) :=
      errorIfFinished_ok.mpr ⟨Nat.lt_of_not_le hle, rfl⟩
    exact Parse.not_fails hok h
  · intro hle
    have hne : tokens ≠ [] := List.ne_nil_of_length_pos (Nat.zero_lt_of_lt hlt)
    unfold errorIfFinished
    rw [Parse.fails_congr (a := i + 1) (Parse.get_ok.mpr ⟨rfl, rfl⟩), if_pos hle,
      List.getLast?_eq_some_getLast hne]
    exact ⟨_, rfl⟩

/-- There is no body behind the assignment at a place. -/
def BodyFault (tokens : List Token) (parseToken : Parse (Option ParsedValue)) (k : ℕ) : Prop :=
  tokens.length ≤ k + 1 ∨ (∃ j, parseToken (k + 1) = .ok (none, j)) ∨ parseToken.Fails (k + 1)

theorem Parse.map_fails {α β : Type} {x : Parse α} {g : α → β} :
    (do return g (← x) : Parse β).Fails i ↔ x.Fails i := by
  rw [Parse.bind_fails]
  refine or_iff_left ?_
  rintro ⟨a, j, -, e, h⟩
  cases h

theorem expected_fails {message : String} :
    (do
      match ← parseToken with
      | none => syntaxError token message
      | some body => return body : Parse ParsedValue).Fails i ↔
      (∃ j, parseToken i = .ok (none, j)) ∨ parseToken.Fails i := by
  rw [Parse.bind_fails, or_comm]
  refine or_congr_left ⟨?_, ?_⟩
  · rintro ⟨value, j, hvalue, e, he⟩
    cases value with
    | none => exact ⟨j, hvalue⟩
    | some value => cases he
  · rintro ⟨j, hj⟩
    exact ⟨none, j, hj, _, rfl⟩

theorem finished_fails {x : Parse ParsedValue} (hlt : k < tokens.length)
    (hx : k + 1 < tokens.length →
      (x.Fails (k + 1) ↔ (∃ j, parseToken (k + 1) = .ok (none, j)) ∨ parseToken.Fails (k + 1))) :
    (do
      nextToken
      errorIfFinished tokens
      x).Fails k ↔ BodyFault tokens parseToken k := by
  rw [Parse.fails_congr (a := ()) (nextToken_ok.mpr rfl), Parse.bind_fails, errorIfFinished_fails hlt]
  by_cases hle : tokens.length ≤ k + 1
  · exact iff_of_true (.inl hle) (.inl hle)
  have hlt' := Nat.lt_of_not_le hle
  have hok : errorIfFinished tokens (k + 1) = .ok ((), k + 1) := errorIfFinished_ok.mpr ⟨hlt', rfl⟩
  refine or_congr_right (Iff.trans ⟨?_, fun h => ⟨(), k + 1, hok, h⟩⟩ (hx hlt'))
  rintro ⟨a, j, hfinished, h⟩
  obtain ⟨-, rfl⟩ := errorIfFinished_ok.mp hfinished
  exact h

theorem declarationBody_fails (htoken : tokens[k]? = some token) :
    (declarationBody tokens parseToken token).Fails k ↔
      TokenAt tokens k .assign ∧ BodyFault tokens parseToken k := by
  unfold declarationBody
  by_cases htype : token.type = .assign
  · have hassign : TokenAt tokens k .assign := ⟨token, htoken, htype⟩
    rw [if_pos htype, and_iff_right hassign]
    exact finished_fails (List.getElem?_eq_some_iff.mp htoken).1 fun _ => expected_fails
  · rw [if_neg htype]
    refine iff_of_false (Parse.not_fails rfl) fun h => htype ?_
    exact TokenAt.unique ⟨token, htoken, rfl⟩ h.1

theorem assignBody_fails (hlt : k < tokens.length) :
    (assignBody tokens parseToken).Fails k ↔ BodyFault tokens parseToken k := by
  refine finished_fails hlt fun hlt' => ?_
  rw [Parse.fails_congr (currentToken_ok.mpr ⟨List.getElem?_eq_getElem hlt', rfl⟩)]
  exact expected_fails

theorem anonymousBody_fails (hne : tokens ≠ []) :
    (anonymousBody tokens parseToken).Fails k ↔
      ¬TokenAt tokens (skipFrom tokens k) .assign ∨ BodyFault tokens parseToken (skipFrom tokens k) := by
  unfold anonymousBody
  rw [Parse.fails_congr (a := ()) (skipNewlinesAndIndents_ok.mpr rfl)]
  by_cases hlt' : skipFrom tokens k < tokens.length
  · have htoken := List.getElem?_eq_getElem hlt'
    rw [Parse.fails_congr (a := ()) (errorIfFinished_ok.mpr ⟨hlt', rfl⟩),
      Parse.fails_congr (currentToken_ok.mpr ⟨htoken, rfl⟩)]
    by_cases htype : tokens[skipFrom tokens k].type = .assign
    · rw [if_neg (not_not.mpr htype), or_iff_right (not_not.mpr ⟨_, htoken, htype⟩)]
      exact finished_fails hlt' fun _ => expected_fails
    · rw [if_pos htype]
      refine iff_of_true ⟨_, rfl⟩ (.inl fun h => htype ?_)
      exact TokenAt.unique ⟨_, htoken, rfl⟩ h
  · refine iff_of_true ?_ (.inl fun h => hlt' h.lt)
    rw [Parse.bind_fails]
    left
    unfold errorIfFinished
    rw [Parse.fails_congr (Parse.get_ok.mpr ⟨rfl, rfl⟩), if_pos (Nat.le_of_not_lt hlt'),
      List.getLast?_eq_some_getLast hne]
    exact ⟨_, rfl⟩


/-! ## The three forms -/

theorem ParamAt.first {p : Param} (h : ParamAt tokens parseToken i p j) :
    TokenAt tokens i .star ∨ TokenAt tokens i .identifier := by
  have hname {name : Name} (h : NameAt tokens i name) : TokenAt tokens i .identifier := by
    obtain ⟨token, htoken, htype, -⟩ := h
    exact ⟨token, htoken, htype⟩
  cases h with
  | required hn => exact .inr (hname hn)
  | default hn => exact .inr (hname hn)
  | optional hn => exact .inr (hname hn)
  | args hstar => exact .inl hstar
  | kwargs hstar => exact .inl hstar

/-- A list starts with the closing parenthesis or a parameter. -/
theorem ParamsAt.first (h : ParamsAt tokens parseToken i params k) :
    (params = [] ∧ k = skipFrom tokens i + 1 ∧ TokenAt tokens (skipFrom tokens i) .rparen) ∨
      TokenAt tokens (skipFrom tokens i) .star ∨ TokenAt tokens (skipFrom tokens i) .identifier := by
  cases h with
  | close hrparen => exact .inl ⟨rfl, rfl, hrparen⟩
  | last hp => exact .inr hp.first
  | cons hp => exact .inr hp.first

theorem ParamsAt.not_assign (h : ParamsAt tokens parseToken i params k) :
    ¬TokenAt tokens i .assign := by
  intro hassign
  have hfirst := h.first
  rw [skipFrom_of_tokenAt hassign rfl] at hfirst
  rcases hfirst with ⟨-, -, h⟩ | h | h <;> exact nomatch hassign.unique h

theorem ParamsAt.eq_nil (h : ParamsAt tokens parseToken i params k) (hrparen : TokenAt tokens i .rparen) :
    params = [] ∧ k = i + 1 := by
  have hfirst := h.first
  rw [skipFrom_of_tokenAt hrparen rfl] at hfirst
  rcases hfirst with ⟨hnil, hk, -⟩ | h | h
  · exact ⟨hnil, hk⟩
  · exact nomatch hrparen.unique h
  · exact nomatch hrparen.unique h

section

variable {ps : ParamState}

theorem parseParams_at (h : ParamsAt tokens parseToken i params k) (htoken : tokens[i]? = some token)
    (hrounds : params.length < rounds) :
    (parseParams siphash tokens parseToken rounds token).Gives i
      (ParamState.init.addAll siphash params) k := by
  unfold parseParams
  by_cases htype : token.type = .rparen
  · obtain ⟨rfl, rfl⟩ := h.eq_nil ⟨token, htoken, htype⟩
    rw [if_pos htype]
    exact .next rfl
  · rw [if_neg htype]
    exact parseParamList_at h (Nat.zero_le 3) hrounds

theorem parseParams_ok (htoken : tokens[i]? = some token)
    (h : parseParams siphash tokens parseToken rounds token i = .ok (ps, k)) :
    ∃ params, ParamsAt tokens parseToken i params k ∧
      ParamState.init.addAll siphash params = some ps := by
  unfold parseParams at h
  by_cases htype : token.type = .rparen
  · have hrparen : TokenAt tokens i .rparen := ⟨token, htoken, htype⟩
    have hskip : skipFrom tokens i = i := skipFrom_of_tokenAt hrparen rfl
    rw [if_pos htype] at h
    obtain ⟨_, _, hnext, h⟩ := Parse.bind_ok.mp h
    obtain rfl := nextToken_ok.mp hnext
    obtain ⟨rfl, rfl⟩ := Parse.pure_ok.mp h
    have hclose : ParamsAt tokens parseToken i [] (skipFrom tokens i + 1) := .close (hskip.symm ▸ hrparen)
    rw [hskip] at hclose
    exact ⟨[], hclose, rfl⟩
  · rw [if_neg htype] at h
    exact parseParamList_ok (Nat.zero_le 3) h

/-- More rounds do not change what is read. -/
theorem parseParamList_more {more : ℕ} {ps' : ParamState}
    (h : parseParamList siphash tokens parseToken rounds ps i = .ok (ps', k)) :
    parseParamList siphash tokens parseToken (rounds + more) ps i = .ok (ps', k) := by
  induction rounds generalizing ps i with
  | zero => cases h
  | succ rounds ih =>
    rw [Nat.add_right_comm]
    unfold parseParamList at h ⊢
    obtain ⟨_, _, hget, h⟩ := Parse.bind_ok.mp h
    obtain ⟨rfl, rfl⟩ := Parse.get_ok.mp hget
    rw [Parse.bind_eq hget]
    by_cases hlength : tokens.length ≤ i
    · rw [if_pos hlength] at h
      cases h
    rw [if_neg hlength] at h ⊢
    obtain ⟨⟨done, ps₁⟩, j, hround, h⟩ := Parse.bind_ok.mp h
    rw [Parse.bind_eq hround]
    cases done with
    | true => exact h
    | false => exact ih h

/-- What is read is what every list that is there says. -/
theorem parseParams_unique (htoken : tokens[i]? = some token)
    (hread : parseParams siphash tokens parseToken rounds token i = .ok (ps, j))
    (h : ParamsAt tokens parseToken i params k) :
    ParamState.init.addAll siphash params = some ps ∧ k = j := by
  have hmore : parseParams siphash tokens parseToken (rounds + (params.length + 1)) token i =
      .ok (ps, j) := by
    unfold parseParams at hread ⊢
    split at hread
    · rwa [if_pos ‹_›]
    · rw [if_neg ‹_›]
      exact parseParamList_more hread
  exact (parseParams_at h htoken (by omega)).unique hmore

/-- What `parse_declaration` does behind the parameters. -/
def declarationEnd (tokens : List Token) (parseToken : Parse (Option ParsedValue)) (name : Name)
    (ps : ParamState) : Parse ParsedValue := do
  if tokens.length ≤ (← get) then return ps.function name .null
  else return ps.function name (← declarationBody tokens parseToken (← currentToken tokens))

theorem declarationEnd_fails (name : Name) :
    (declarationEnd tokens parseToken name ps).Fails k ↔
      TokenAt tokens k .assign ∧ BodyFault tokens parseToken k := by
  unfold declarationEnd
  rw [Parse.fails_congr (a := k) (Parse.get_ok.mpr ⟨rfl, rfl⟩)]
  by_cases hlength : tokens.length ≤ k
  · rw [if_pos hlength]
    refine iff_of_false (Parse.not_fails rfl) fun h => ?_
    exact absurd h.1.lt (Nat.not_lt.mpr hlength)
  · have htoken := List.getElem?_eq_getElem (Nat.lt_of_not_le hlength)
    rw [if_neg hlength, Parse.fails_congr (currentToken_ok.mpr ⟨htoken, rfl⟩), Parse.map_fails]
    exact declarationBody_fails htoken

/-- A declaration is its parameters and what is behind them. -/
theorem parseDeclaration_eq {name : Name} (htoken : tokens[i + 1]? = some token) :
    parseDeclaration siphash tokens parseToken rounds name i =
      (do
        let ps ← parseParams siphash tokens parseToken rounds token
        declarationEnd tokens parseToken name ps) (i + 1) := by
  have hlt := (List.getElem?_eq_some_iff.mp htoken).1
  unfold parseDeclaration
  rw [Parse.bind_eq (a := ()) (nextToken_ok.mpr rfl),
    Parse.bind_eq (a := ()) (errorIfFinished_ok.mpr ⟨hlt, rfl⟩),
    Parse.bind_eq (currentToken_ok.mpr ⟨htoken, rfl⟩)]
  unfold parseParams
  by_cases htype : token.type = .rparen
  · rw [if_pos htype, if_pos htype]
    rfl
  · rw [if_neg htype, if_neg htype]
    cases hlist : parseParamList siphash tokens parseToken rounds .init (i + 1) with
    | error e => rw [Parse.bind_error hlist, Parse.bind_error hlist]
    | ok r =>
      obtain ⟨ps, k⟩ := r
      obtain ⟨params, hparams, -⟩ := parseParamList_ok (Nat.zero_le 3) hlist
      have hget : (get : Parse ℕ) k = .ok (k, k) := Parse.get_ok.mpr ⟨rfl, rfl⟩
      rw [Parse.bind_eq hlist, Parse.bind_eq hlist]
      unfold declarationEnd
      rw [Parse.bind_eq hget, Parse.bind_eq hget]
      by_cases hlength : tokens.length ≤ k
      · -- The token is still the first one of the list, which is no assignment.
        have hassign : token.type ≠ .assign := fun h => hparams.not_assign ⟨token, htoken, h⟩
        rw [if_pos hlength, if_neg (Nat.not_lt.mpr hlength)]
        show (declarationBody tokens parseToken token >>= fun body => pure (ps.function name body)) k = _
        unfold declarationBody
        rw [if_neg hassign]
        rfl
      · rw [if_neg hlength, if_pos (Nat.lt_of_not_le hlength)]

/-- An anonymous function is its parameters and what is behind them. -/
theorem parseAnonymous_eq (htoken : tokens[skipFrom tokens (i + 1)]? = some token)
    (hanonymous : isAnonymousFunction tokens (skipFrom tokens (i + 1)) = true) :
    parseAnonymous siphash tokens parseToken rounds i =
      (do
        let ps ← parseParams siphash tokens parseToken rounds token
        return some (ps.function ("anonymous".toUTF8.data.toList)
          (← anonymousBody tokens parseToken))) (skipFrom tokens (i + 1)) := by
  have hlt := (List.getElem?_eq_some_iff.mp htoken).1
  unfold parseAnonymous
  rw [Parse.bind_eq (a := ()) (nextToken_ok.mpr rfl),
    Parse.bind_eq (a := ()) (skipNewlinesAndIndents_ok.mpr rfl),
    Parse.bind_eq (a := ()) (errorIfFinished_ok.mpr ⟨hlt, rfl⟩),
    Parse.bind_eq (currentToken_ok.mpr ⟨htoken, rfl⟩),
    Parse.bind_eq (a := skipFrom tokens (i + 1)) (Parse.get_ok.mpr ⟨rfl, rfl⟩), if_pos hanonymous]

theorem parseDeclaration_inside {name : Name} {f : ParsedValue}
    (h : parseDeclaration siphash tokens parseToken rounds name i = .ok (f, j)) :
    ∃ token, tokens[i + 1]? = some token := by
  unfold parseDeclaration at h
  obtain ⟨_, _, hnext, h⟩ := Parse.bind_ok.mp h
  obtain rfl := nextToken_ok.mp hnext
  obtain ⟨_, _, hfinished, -⟩ := Parse.bind_ok.mp h
  exact ⟨_, List.getElem?_eq_getElem (errorIfFinished_ok.mp hfinished).1⟩

theorem parseAnonymous_inside {f : ParsedValue}
    (h : parseAnonymous siphash tokens parseToken rounds i = .ok (some f, j)) :
    ∃ token, tokens[skipFrom tokens (i + 1)]? = some token ∧
      isAnonymousFunction tokens (skipFrom tokens (i + 1)) = true := by
  unfold parseAnonymous at h
  obtain ⟨_, _, hnext, h⟩ := Parse.bind_ok.mp h
  obtain rfl := nextToken_ok.mp hnext
  obtain ⟨_, _, hskip, h⟩ := Parse.bind_ok.mp h
  obtain rfl := skipNewlinesAndIndents_ok.mp hskip
  obtain ⟨_, _, hfinished, h⟩ := Parse.bind_ok.mp h
  obtain ⟨hlt, rfl⟩ := errorIfFinished_ok.mp hfinished
  obtain ⟨token, _, hcurrent, h⟩ := Parse.bind_ok.mp h
  obtain ⟨htoken, rfl⟩ := currentToken_ok.mp hcurrent
  obtain ⟨_, _, hget, h⟩ := Parse.bind_ok.mp h
  obtain ⟨rfl, rfl⟩ := Parse.get_ok.mp hget
  refine ⟨token, htoken, ?_⟩
  by_contra hnot
  rw [if_neg hnot] at h
  cases h

/-- A function whose list is there: it is refused by the list, or for want of a body. -/
theorem params_fails {α : Type} {behind : ParamState → Parse α} {noBody : ℕ → Prop}
    (h : ParamsAt tokens parseToken i params k) (htoken : tokens[i]? = some token)
    (hrounds : params.length < rounds) (hbehind : ∀ ps k, (behind ps).Fails k ↔ noBody k) :
    (parseParams siphash tokens parseToken rounds token >>= behind).Fails i ↔
      ¬TakenParams siphash params ∨ noBody k := by
  have hread : (parseParams siphash tokens parseToken rounds token).Gives i
      (ParamState.init.addAll siphash params) k := parseParams_at h htoken hrounds
  rw [← exists_addAll_init]
  cases hall : ParamState.init.addAll siphash params with
  | none =>
    rw [hall] at hread
    exact iff_of_true (Parse.bind_fails.mpr (.inl hread)) (.inl fun ⟨_, h⟩ => nomatch h)
  | some ps =>
    rw [hall] at hread
    rw [Parse.fails_congr hread, hbehind, or_iff_right (not_not.mpr ⟨ps, rfl⟩)]

/-- A function that is read has a list, which is taken, and a body. -/
theorem params_of_ok {α : Type} {behind : ParamState → Parse α} {noBody : ℕ → Prop} {r : α × ℕ}
    (htoken : tokens[i]? = some token) (hbehind : ∀ ps k, (behind ps).Fails k ↔ noBody k)
    (h : (parseParams siphash tokens parseToken rounds token >>= behind) i = .ok r) :
    (∃ params k, ParamsAt tokens parseToken i params k) ∧
      ∀ params k, ParamsAt tokens parseToken i params k → TakenParams siphash params ∧ ¬noBody k := by
  obtain ⟨ps, j, hread, hbody⟩ := Parse.bind_ok.mp h
  obtain ⟨params, hparams, -⟩ := parseParams_ok htoken hread
  refine ⟨⟨params, j, hparams⟩, fun params' k' hparams' => ?_⟩
  obtain ⟨hall, rfl⟩ := parseParams_unique htoken hread hparams'
  exact ⟨exists_addAll_init.mp ⟨ps, hall⟩, fun hno => Parse.not_fails hbody ((hbehind ps k').mpr hno)⟩

end

section

variable {toCall : ParsedValue} {trailing : Bool} {cs : CallArgState} {s : CallParams}

theorem CallParamAt.not_rparen {p : Param} (h : CallParamAt tokens parseToken i p j) :
    ¬TokenAt tokens i .rparen := by
  have hname {name : Name} (h : NameAt tokens i name) : ¬TokenAt tokens i .rparen := by
    obtain ⟨token, htoken, htype, -⟩ := h
    intro hrparen
    exact nomatch htype.symm.trans (TokenAt.unique ⟨token, htoken, rfl⟩ hrparen)
  cases h with
  | required _ hnot => exact hnot
  | default hn => exact hname hn
  | optional hn => exact hname hn
  | args hstar => exact fun h => nomatch hstar.unique h
  | kwargs hstar => exact fun h => nomatch hstar.unique h

theorem CallParamsAt.eq_nil (h : CallParamsAt tokens parseToken i params trailing k)
    (hrparen : TokenAt tokens i .rparen) : params = [] ∧ trailing = true ∧ k = i + 1 := by
  have hskip : skipFrom tokens i = i := skipFrom_of_tokenAt hrparen rfl
  cases h with
  | close => exact ⟨rfl, rfl, congrArg (· + 1) hskip⟩
  | last hp => exact absurd (hskip.symm ▸ hrparen) hp.not_rparen
  | cons hp => exact absurd (hskip.symm ▸ hrparen) hp.not_rparen

/-- The arguments of a call; the index is behind the parenthesis. -/
def parseArguments (siphash : List UInt8 → UInt64) (tokens : List Token)
    (parseToken : Parse (Option ParsedValue)) (rounds : ℕ) (next : Token) : Parse CallArgState :=
  if next.type ≠ .rparen then
    parseArgList siphash ParsedValue.name? tokens parseToken rounds CallArgState.init
  else do
    nextToken
    return CallArgState.init

theorem reads_init : CallArgState.init.Reads .init := ⟨rfl, rfl, rfl, rfl, rfl⟩

theorem parseArguments_at (h : CallParamsAt tokens parseToken i params trailing k)
    (htoken : tokens[i]? = some token) (hrounds : params.length < rounds) :
    (parseArguments siphash tokens parseToken rounds token).Stands i CallArgState.Reads
      (CallParams.init.addAll siphash params trailing) k := by
  unfold parseArguments
  by_cases htype : token.type = .rparen
  · obtain ⟨rfl, rfl, rfl⟩ := h.eq_nil ⟨token, htoken, htype⟩
    rw [if_neg (not_not.mpr htype)]
    exact .bind (a := ()) (nextToken_ok.mpr rfl) ⟨_, rfl, reads_init⟩
  · rw [if_pos htype]
    exact parseArgList_at h reads_init hrounds

theorem parseArguments_named (htoken : tokens[i]? = some token)
    (h : parseArguments siphash tokens parseToken rounds token i = .ok (cs, k)) (hnamed : cs.Named) :
    ∃ params trailing, CallParamsAt tokens parseToken i params trailing k := by
  unfold parseArguments at h
  by_cases htype : token.type = .rparen
  · have hrparen : TokenAt tokens i .rparen := ⟨token, htoken, htype⟩
    have hskip : skipFrom tokens i = i := skipFrom_of_tokenAt hrparen rfl
    rw [if_neg (not_not.mpr htype)] at h
    obtain ⟨_, _, hnext, h⟩ := Parse.bind_ok.mp h
    obtain rfl := nextToken_ok.mp hnext
    obtain ⟨-, rfl⟩ := Parse.pure_ok.mp h
    have hclose : CallParamsAt tokens parseToken i [] true (skipFrom tokens i + 1) :=
      .close (hskip.symm ▸ hrparen)
    rw [hskip] at hclose
    exact ⟨[], true, hclose⟩
  · rw [if_pos htype] at h
    obtain ⟨params, trailing, -, hparams, -, -⟩ := parseArgList_named h reads_init hnamed
    exact ⟨params, trailing, hparams⟩

/-- More rounds do not change what is read. -/
theorem parseArgList_more {more : ℕ} {cs' : CallArgState}
    (h : parseArgList siphash ParsedValue.name? tokens parseToken rounds cs i = .ok (cs', k)) :
    parseArgList siphash ParsedValue.name? tokens parseToken (rounds + more) cs i = .ok (cs', k) := by
  induction rounds generalizing cs i with
  | zero => cases h
  | succ rounds ih =>
    rw [Nat.add_right_comm]
    unfold parseArgList at h ⊢
    obtain ⟨_, _, hget, h⟩ := Parse.bind_ok.mp h
    obtain ⟨rfl, rfl⟩ := Parse.get_ok.mp hget
    rw [Parse.bind_eq hget]
    by_cases hlength : tokens.length ≤ i
    · rw [if_pos hlength] at h
      cases h
    rw [if_neg hlength] at h ⊢
    obtain ⟨⟨done, cs₁⟩, j, hround, h⟩ := Parse.bind_ok.mp h
    rw [Parse.bind_eq hround]
    cases done with
    | true => exact h
    | false => exact ih h

/-- What is read is what every list that is there says. -/
theorem parseArguments_unique (htoken : tokens[i]? = some token)
    (hread : parseArguments siphash tokens parseToken rounds token i = .ok (cs, j))
    (h : CallParamsAt tokens parseToken i params trailing k) :
    ∃ s, CallParams.init.addAll siphash params trailing = some s ∧ cs.Reads s ∧ j = k := by
  have hmore : parseArguments siphash tokens parseToken (rounds + (params.length + 1)) token i =
      .ok (cs, j) := by
    unfold parseArguments at hread ⊢
    split at hread
    · rw [if_pos ‹_›]
      exact parseArgList_more hread
    · rwa [if_neg ‹_›]
  exact (parseArguments_at h htoken (by omega)).of_ok hmore

theorem parameterNames_reads {token : Token} {values : List ParsedValue} {names : List Name}
    (h : values.map ParsedValue.name? = names.map some) :
    parameterNames token values i = .ok (names, i) := by
  induction values generalizing names with
  | nil =>
    obtain rfl : names = [] := List.map_eq_nil_iff.mp h.symm
    rfl
  | cons value values ih =>
    cases names with
    | nil => cases h
    | cons name names =>
      rw [List.map_cons, List.map_cons, List.cons.injEq] at h
      unfold parameterNames
      rw [h.1]
      dsimp only
      rw [Parse.bind_eq (ih h.2)]
      rfl

theorem collectorName_reads {value : Option ParsedValue} {name : Option Name}
    (h : value.map ParsedValue.name? = name.map some) : collectorName value i = .ok (name, i) := by
  cases value with
  | none =>
    cases name with
    | none => rfl
    | some name => cases h
  | some value =>
    cases name with
    | none => cases h
    | some name =>
      have hname : value.name? = some name := Option.some.inj h
      unfold collectorName
      dsimp only
      rw [hname]
      rfl

theorem named_of_parameterNames {token : Token} {values : List ParsedValue} {names : List Name}
    (h : parameterNames token values i = .ok (names, j)) : ∀ value ∈ values, value.name? ≠ none := by
  induction values generalizing names i j with
  | nil => nofun
  | cons value values ih =>
    unfold parameterNames at h
    cases hname : value.name? with
    | none =>
      rw [hname] at h
      cases h
    | some name =>
      rw [hname] at h
      obtain ⟨names', _, hrest, -⟩ := Parse.bind_ok.mp h
      rw [List.forall_mem_cons]
      exact ⟨by rw [hname]; nofun, ih hrest⟩

theorem named_of_collectorName {value : Option ParsedValue} {name : Option Name}
    (h : collectorName value i = .ok (name, j)) : ∀ v ∈ value.toList, v.name? ≠ none := by
  cases value with
  | none => nofun
  | some value =>
    intro v hv hnone
    obtain rfl := List.mem_singleton.mp hv
    unfold collectorName at h
    dsimp only at h
    rw [hnone] at h
    cases h

/-- The call that is made of its arguments. -/
def CallArgState.call (cs : CallArgState) (toCall : ParsedValue) (token : Token) : ParsedCall :=
  ⟨toCall, cs.args, cs.kwargs, cs.vArg, cs.kwArg, cs.assignMode, token.line, token.column⟩

theorem parseAssignCall_fails (hs : cs.Reads s) (hlt : k < tokens.length) :
    (parseAssignCall tokens parseToken (cs.call toCall token)).Fails k ↔
      s.assignMode = .notAllowed ∨ BodyFault tokens parseToken k := by
  unfold parseAssignCall
  rw [Parse.fails_congr (currentToken_ok.mpr ⟨List.getElem?_eq_getElem hlt, rfl⟩), ← hs.assignMode]
  by_cases hmode : cs.assignMode = .notAllowed
  · rw [if_pos (show (cs.call toCall token).assignMode = .notAllowed from hmode)]
    exact iff_of_true ⟨_, rfl⟩ (.inl hmode)
  · have hargs : parameterNames tokens[k] (cs.call toCall token).args k = .ok (s.args, k) :=
      parameterNames_reads hs.args
    have hkwArg : collectorName (cs.call toCall token).kwArg k = .ok (s.kwArg, k) :=
      collectorName_reads hs.kwArg
    have hvArg : collectorName (cs.call toCall token).vArg k = .ok (s.vArg, k) :=
      collectorName_reads hs.vArg
    rw [if_neg (show ¬(cs.call toCall token).assignMode = .notAllowed from hmode), or_iff_right hmode,
      Parse.fails_congr hargs, Parse.fails_congr hkwArg, Parse.fails_congr hvArg, Parse.map_fails]
    exact assignBody_fails hlt

/-- What is done with a call that may be assigned to. -/
def assignmentEnd (tokens : List Token) (parseToken : Parse (Option ParsedValue)) (call : ParsedCall) :
    Parse (Option ParsedValue) := do
  skipNewlinesAndIndents tokens
  if tokens.length ≤ (← get) then return none
  else
    let token ← currentToken tokens
    if token.type.isAssign then return some (← parseAssignCall tokens parseToken call) else return none

theorem parseAssignment_eq {next : Token} (htoken : tokens[i]? = some token)
    (hnext : tokens[i + 1]? = some next) :
    parseAssignment siphash tokens parseToken rounds toCall i =
      (do
        let cs ← parseArguments siphash tokens parseToken rounds next
        assignmentEnd tokens parseToken (cs.call toCall token)) (i + 1) := by
  have hlt := (List.getElem?_eq_some_iff.mp hnext).1
  have hcall : parseCall siphash ParsedValue.name? tokens parseToken rounds toCall i =
      (do return CallArgState.call (← parseArguments siphash tokens parseToken rounds next) toCall token :
        Parse ParsedCall) (i + 1) := by
    unfold parseCall
    rw [Parse.bind_eq (currentToken_ok.mpr ⟨htoken, rfl⟩),
      Parse.bind_eq (a := ()) (nextToken_ok.mpr rfl),
      Parse.bind_eq (a := ()) (errorIfFinished_ok.mpr ⟨hlt, rfl⟩),
      Parse.bind_eq (currentToken_ok.mpr ⟨hnext, rfl⟩)]
    rfl
  unfold parseAssignment
  cases hread : parseArguments siphash tokens parseToken rounds next (i + 1) with
  | error e =>
    rw [Parse.bind_error hread] at hcall
    rw [Parse.bind_error hread, Parse.bind_error hcall]
  | ok r =>
    rw [Parse.bind_eq hread] at hcall
    rw [Parse.bind_eq hread, Parse.bind_eq hcall]
    rfl

theorem assignmentEnd_eq {call : ParsedCall} (htoken : tokens[skipFrom tokens k]? = some token)
    (hassign : token.type.isAssign = true) :
    assignmentEnd tokens parseToken call k =
      (do return some (← parseAssignCall tokens parseToken call)) (skipFrom tokens k) := by
  have hlt := (List.getElem?_eq_some_iff.mp htoken).1
  unfold assignmentEnd
  rw [Parse.bind_eq (a := ()) (skipNewlinesAndIndents_ok.mpr rfl),
    Parse.bind_eq (a := skipFrom tokens k) (Parse.get_ok.mpr ⟨rfl, rfl⟩), if_neg (Nat.not_le.mpr hlt),
    Parse.bind_eq (currentToken_ok.mpr ⟨htoken, rfl⟩), if_pos hassign]

/-- There is an assignment behind a place. -/
def AssignBehind (tokens : List Token) (k : ℕ) : Prop :=
  ∃ token, tokens[skipFrom tokens k]? = some token ∧ token.type.isAssign = true

/-- An assignment whose list is there: it is refused by the list, or for want of a body. -/
theorem parseAssignment_fails (h : CallParamsAt tokens parseToken (i + 1) params trailing k)
    (hassign : AssignBehind tokens k) (hrounds : params.length < rounds) :
    (parseAssignment siphash tokens parseToken rounds toCall).Fails i ↔
      ¬TakenArguments siphash params trailing ∨ BodyFault tokens parseToken (skipFrom tokens k) := by
  obtain ⟨assign, hassign, htype⟩ := hassign
  have hlt := h.lt
  have htoken := List.getElem?_eq_getElem (Nat.lt_of_succ_lt hlt)
  have hnext := List.getElem?_eq_getElem hlt
  have hread := @parseArguments_at siphash _ _ _ _ _ _ _ _ h hnext hrounds
  unfold Parse.Fails
  rw [parseAssignment_eq htoken hnext, ← takes_iff]
  cases hall : CallParams.init.addAll siphash params trailing with
  | none =>
    rw [hall] at hread
    exact iff_of_true (Parse.bind_fails.mpr (.inl hread)) (.inl fun ⟨_, h, _⟩ => nomatch h)
  | some s =>
    rw [hall] at hread
    obtain ⟨cs, hcs, hs⟩ := hread
    have htakes : (∃ s', some s = some s' ∧ s'.assignMode ≠ .notAllowed) ↔ s.assignMode ≠ .notAllowed := by
      constructor
      · rintro ⟨s', hs', hmode⟩
        obtain rfl := Option.some.inj hs'
        exact hmode
      · exact fun hmode => ⟨s, rfl, hmode⟩
    rw [Parse.bind_eq hcs, assignmentEnd_eq hassign htype, htakes, not_not]
    exact Parse.map_fails.trans (parseAssignCall_fails hs (List.getElem?_eq_some_iff.mp hassign).1)

theorem parseAssignment_inside {f : Option ParsedValue}
    (h : parseAssignment siphash tokens parseToken rounds toCall i = .ok (f, j)) :
    ∃ token next, tokens[i]? = some token ∧ tokens[i + 1]? = some next := by
  unfold parseAssignment at h
  obtain ⟨call, _, hcall, -⟩ := Parse.bind_ok.mp h
  unfold parseCall at hcall
  obtain ⟨token, _, hcurrent, hcall⟩ := Parse.bind_ok.mp hcall
  obtain ⟨htoken, rfl⟩ := currentToken_ok.mp hcurrent
  obtain ⟨_, _, hnext, hcall⟩ := Parse.bind_ok.mp hcall
  obtain rfl := nextToken_ok.mp hnext
  obtain ⟨_, _, hfinished, hcall⟩ := Parse.bind_ok.mp hcall
  obtain ⟨_, rfl⟩ := errorIfFinished_ok.mp hfinished
  obtain ⟨next, _, hcurrent, -⟩ := Parse.bind_ok.mp hcall
  exact ⟨token, next, htoken, (currentToken_ok.mp hcurrent).1⟩

theorem assignmentEnd_ok {call : ParsedCall} {f : ParsedValue}
    (h : assignmentEnd tokens parseToken call k = .ok (some f, j)) :
    ∃ token, tokens[skipFrom tokens k]? = some token ∧ token.type.isAssign = true ∧
      parseAssignCall tokens parseToken call (skipFrom tokens k) = .ok (f, j) := by
  unfold assignmentEnd at h
  obtain ⟨_, _, hskip, h⟩ := Parse.bind_ok.mp h
  obtain rfl := skipNewlinesAndIndents_ok.mp hskip
  obtain ⟨_, _, hget, h⟩ := Parse.bind_ok.mp h
  obtain ⟨rfl, rfl⟩ := Parse.get_ok.mp hget
  by_cases hlength : tokens.length ≤ skipFrom tokens k
  · rw [if_pos hlength] at h
    cases h
  rw [if_neg hlength] at h
  obtain ⟨token, _, hcurrent, h⟩ := Parse.bind_ok.mp h
  obtain ⟨htoken, rfl⟩ := currentToken_ok.mp hcurrent
  by_cases htype : token.type.isAssign = true
  · rw [if_pos htype] at h
    obtain ⟨f', _, hcall, h⟩ := Parse.bind_ok.mp h
    obtain ⟨hf, rfl⟩ := Parse.pure_ok.mp h
    obtain rfl := Option.some.inj hf
    exact ⟨token, htoken, htype, hcall⟩
  · rw [if_neg htype] at h
    cases h

theorem parseAssignCall_ok {f : ParsedValue}
    (h : parseAssignCall tokens parseToken (cs.call toCall token) k = .ok (f, j)) :
    cs.assignMode ≠ .notAllowed ∧ cs.Named := by
  unfold parseAssignCall at h
  obtain ⟨_, _, hcurrent, h⟩ := Parse.bind_ok.mp h
  obtain ⟨hmode, h⟩ := guard_ok.mp h
  obtain ⟨parameters, _, hargs, h⟩ := Parse.bind_ok.mp h
  obtain ⟨kwParameter, _, hkwArg, h⟩ := Parse.bind_ok.mp h
  obtain ⟨vParameter, _, hvArg, -⟩ := Parse.bind_ok.mp h
  exact ⟨hmode, named_of_parameterNames hargs, named_of_collectorName hvArg,
    named_of_collectorName hkwArg⟩

/-- A function that is assigned has a list, which is taken, and a body. -/
theorem parseAssignment_of_ok {f : ParsedValue}
    (h : parseAssignment siphash tokens parseToken rounds toCall i = .ok (some f, j)) :
    (∃ params trailing k, CallParamsAt tokens parseToken (i + 1) params trailing k ∧
      AssignBehind tokens k) ∧
    ∀ params trailing k, CallParamsAt tokens parseToken (i + 1) params trailing k →
      TakenArguments siphash params trailing ∧
        ¬BodyFault tokens parseToken (skipFrom tokens k) := by
  obtain ⟨token, next, htoken, hnext⟩ := parseAssignment_inside h
  rw [parseAssignment_eq htoken hnext] at h
  obtain ⟨cs, k, hread, h⟩ := Parse.bind_ok.mp h
  obtain ⟨assign, hassign, htype, hcall⟩ := assignmentEnd_ok h
  obtain ⟨hmode, hnamed⟩ := parseAssignCall_ok hcall
  have hlt := (List.getElem?_eq_some_iff.mp hassign).1
  obtain ⟨params, trailing, hparams⟩ := parseArguments_named hnext hread hnamed
  refine ⟨⟨params, trailing, k, hparams, assign, hassign, htype⟩, fun params' trailing' k' hparams' => ?_⟩
  obtain ⟨s, hall, hs, rfl⟩ := parseArguments_unique hnext hread hparams'
  refine ⟨takes_iff.mp ⟨s, hall, hs.assignMode ▸ hmode⟩, fun hfault => ?_⟩
  exact Parse.not_fails hcall ((parseAssignCall_fails hs hlt).mpr (.inr hfault))

end

end

/-! ## Functions with distinct names -/

/-- A place at which a function may be written, at the parenthesis of its parameters. -/
structure FunctionSource where
  siphash : List UInt8 → UInt64
  tokens : List Token
  parseToken : Parse (Option ParsedValue)
  form : FunctionForm
  start : ℕ

namespace FunctionSource

variable (source : FunctionSource)

def run (rounds : ℕ) : Parse (Option ParsedValue) :=
  parseFunction source.siphash source.tokens source.parseToken rounds source.form

/-- A list of parameters is written there, to a place behind it. -/
def Written (params : List Param) (trailing : Bool) (k : ℕ) : Prop :=
  match source.form with
  | .declaration _ => ParamsAt source.tokens source.parseToken (source.start + 1) params k
  | .assignment _ =>
    CallParamsAt source.tokens source.parseToken (source.start + 1) params trailing k ∧
      AssignBehind source.tokens k
  | .anonymous =>
    isAnonymousFunction source.tokens (skipFrom source.tokens (source.start + 1)) = true ∧
      ParamsAt source.tokens source.parseToken (skipFrom source.tokens (source.start + 1)) params k

/-- A function is made of what is there. -/
def Accepted : Prop := ∃ rounds f k, source.run rounds source.start = .ok (some f, k)

/-- There is a syntax error. -/
def Rejected : Prop := ∀ᶠ rounds in Filter.atTop, (source.run rounds).Fails source.start

/-- The parameters of a function that is accepted are valid, and a list that is not is rejected. -/
structure Meets : Prop where
  written : source.Accepted → ∃ params trailing k, source.Written params trailing k
  valid : source.Accepted → ∀ params trailing k, source.Written params trailing k → ValidParams params
  rejected : ∀ params trailing k, source.Written params trailing k → ¬ValidParams params →
    source.Rejected

/-- The list has none of the faults that are looked for. -/
def Taken (params : List Param) (trailing : Bool) : Prop :=
  match source.form with
  | .assignment _ => TakenArguments source.siphash params trailing
  | _ => TakenParams source.siphash params

/-- The list has a fault that is not looked for. -/
def Missed (params : List Param) (trailing : Bool) : Prop :=
  match source.form with
  | .assignment _ => Overlooked params trailing
  | _ => SharedCollector params

/-- There is no body behind a list, or none of which a function can be made. -/
def NoBody (k : ℕ) : Prop :=
  match source.form with
  | .declaration _ => TokenAt source.tokens k .assign ∧ BodyFault source.tokens source.parseToken k
  | .assignment _ => BodyFault source.tokens source.parseToken (skipFrom source.tokens k)
  | .anonymous =>
    ¬TokenAt source.tokens (skipFrom source.tokens k) .assign ∨
      BodyFault source.tokens source.parseToken (skipFrom source.tokens k)

variable {source} {params : List Param} {trailing : Bool} {k : ℕ}

theorem valid_iff (h : source.Taken params trailing) :
    ValidParams params ↔ ¬source.Missed params trailing := by
  obtain ⟨siphash, tokens, parseToken, form, start⟩ := source
  cases form with
  | declaration name => exact TakenParams.valid_iff h
  | assignment toCall => exact TakenArguments.valid_iff h
  | anonymous => exact TakenParams.valid_iff h

theorem Missed.not_valid (h : source.Missed params trailing) : ¬ValidParams params := by
  obtain ⟨siphash, tokens, parseToken, form, start⟩ := source
  cases form with
  | declaration name => exact SharedCollector.not_valid h
  | assignment toCall => exact Overlooked.not_valid h
  | anonymous => exact SharedCollector.not_valid h

theorem ne_nil_of_written (h : source.Written params trailing k) : source.tokens ≠ [] := by
  obtain ⟨siphash, tokens, parseToken, form, start⟩ := source
  refine List.ne_nil_of_length_pos ?_
  cases form with
  | declaration name => exact Nat.zero_lt_of_lt (ParamsAt.lt h)
  | assignment toCall => exact Nat.zero_lt_of_lt (CallParamsAt.lt h.1)
  | anonymous => exact Nat.zero_lt_of_lt (ParamsAt.lt h.2)

/-- A function whose list is there is rejected for a fault that is looked for, or for want of a body. -/
theorem fails_iff (h : source.Written params trailing k) {rounds : ℕ} (hrounds : params.length < rounds) :
    (source.run rounds).Fails source.start ↔ ¬source.Taken params trailing ∨ source.NoBody k := by
  have hne := ne_nil_of_written h
  obtain ⟨siphash, tokens, parseToken, form, start⟩ := source
  cases form with
  | declaration name =>
    have htoken := List.getElem?_eq_getElem (ParamsAt.lt h)
    refine Parse.map_fails.trans ?_
    unfold Parse.Fails
    rw [parseDeclaration_eq htoken]
    exact params_fails h htoken hrounds fun ps k => declarationEnd_fails name
  | assignment toCall => exact parseAssignment_fails h.1 h.2 hrounds
  | anonymous =>
    obtain ⟨hanonymous, h⟩ := h
    have htoken := List.getElem?_eq_getElem (ParamsAt.lt h)
    show Parse.Fails (parseAnonymous siphash tokens parseToken rounds) start ↔ _
    unfold Parse.Fails
    rw [parseAnonymous_eq htoken hanonymous]
    exact params_fails h htoken hrounds fun ps k => Parse.map_fails.trans (anonymousBody_fails hne)

/-- A function that is accepted has a list without the faults that are looked for, and a body. -/
theorem of_accepted (h : source.Accepted) :
    (∃ params trailing k, source.Written params trailing k) ∧
      ∀ params trailing k, source.Written params trailing k →
        source.Taken params trailing ∧ ¬source.NoBody k := by
  obtain ⟨siphash, tokens, parseToken, form, start⟩ := source
  obtain ⟨rounds, f, j, h⟩ := h
  cases form with
  | declaration name =>
    obtain ⟨f', _, hread, hf⟩ := Parse.bind_ok.mp h
    obtain ⟨token, htoken⟩ := parseDeclaration_inside hread
    rw [parseDeclaration_eq htoken] at hread
    have hbehind (ps : ParamState) (k : ℕ) :
        (declarationEnd tokens parseToken name ps).Fails k ↔ _ := declarationEnd_fails name
    obtain ⟨⟨params, k, hparams⟩, hall⟩ := params_of_ok htoken hbehind hread
    exact ⟨⟨params, true, k, hparams⟩, fun params' _ k' hparams' => hall params' k' hparams'⟩
  | assignment toCall =>
    obtain ⟨⟨params, trailing, k, hparams⟩, hall⟩ := parseAssignment_of_ok h
    exact ⟨⟨params, trailing, k, hparams⟩, fun params' trailing' k' hparams' =>
      hall params' trailing' k' hparams'.1⟩
  | anonymous =>
    obtain ⟨token, htoken, hanonymous⟩ := parseAnonymous_inside h
    have hne : tokens ≠ [] := List.ne_nil_of_length_pos
      (Nat.zero_lt_of_lt (List.getElem?_eq_some_iff.mp htoken).1)
    have h' : parseAnonymous siphash tokens parseToken rounds start = _ := h
    rw [parseAnonymous_eq htoken hanonymous] at h'
    have hbehind (ps : ParamState) (k : ℕ) :
        (do return some (ps.function ("anonymous".toUTF8.data.toList)
          (← anonymousBody tokens parseToken)) : Parse (Option ParsedValue)).Fails k ↔ _ :=
      Parse.map_fails.trans (anonymousBody_fails hne)
    obtain ⟨⟨params, k, hparams⟩, hall⟩ := params_of_ok htoken hbehind h'
    exact ⟨⟨params, true, k, hanonymous, hparams⟩, fun params' _ k' hparams' =>
      hall params' k' hparams'.2⟩

theorem rejected_iff (h : source.Written params trailing k) :
    source.Rejected ↔ ¬source.Taken params trailing ∨ source.NoBody k := by
  constructor
  · intro hrejected
    obtain ⟨rounds, hfails, hrounds⟩ :=
      (hrejected.and (Filter.eventually_gt_atTop params.length)).exists
    exact (fails_iff h hrounds).mp hfails
  · intro hfault
    filter_upwards [Filter.eventually_gt_atTop params.length] with rounds hrounds
    exact (fails_iff h hrounds).mpr hfault

/-- A list with a fault that is not looked for has to be rejected for something else. -/
theorem Meets.missed (h : source.Meets) (hwritten : source.Written params trailing k)
    (hmissed : source.Missed params trailing) : ¬source.Taken params trailing ∨ source.NoBody k :=
  (rejected_iff hwritten).mp (h.rejected params trailing k hwritten hmissed.not_valid)

/-- The three ways to write a function accept valid parameters only, and reject every other list, if and
only if every list that is there and has a fault that is not looked for has another one that is, or no
body behind it. -/
theorem distinct_names_iff (source : FunctionSource) :
    source.Meets ↔ ∀ params trailing k, source.Written params trailing k →
      source.Missed params trailing → ¬source.Taken params trailing ∨ source.NoBody k := by
  constructor
  · exact fun h params trailing k hwritten hmissed => h.missed hwritten hmissed
  · intro h
    refine ⟨fun haccepted => (of_accepted haccepted).1, fun haccepted params trailing k hwritten => ?_,
      fun params trailing k hwritten hvalid => ?_⟩
    · obtain ⟨htaken, hbody⟩ := (of_accepted haccepted).2 params trailing k hwritten
      rw [valid_iff htaken]
      intro hmissed
      exact (h params trailing k hwritten hmissed).elim (fun hnot => hnot htaken) hbody
    · rw [rejected_iff hwritten]
      by_cases htaken : source.Taken params trailing
      · rw [valid_iff htaken, not_not] at hvalid
        exact h params trailing k hwritten hvalid
      · exact .inl htaken

/-- `let f(*a, **a)`. -/
def oneCollectorName : FunctionSource where
  siphash name := (name.headD 0).toUInt64
  tokens := [⟨.lparen, 1, 6, 1, [40]⟩, ⟨.star, 1, 7, 1, [42]⟩, ⟨.identifier, 1, 8, 1, [97]⟩,
    ⟨.comma, 1, 9, 1, [44]⟩, ⟨.star, 1, 11, 1, [42]⟩, ⟨.star, 1, 12, 1, [42]⟩,
    ⟨.identifier, 1, 13, 1, [97]⟩, ⟨.rparen, 1, 14, 1, [41]⟩]
  parseToken := throw .exit
  form := .declaration [102]
  start := 0

theorem not_forall_distinct_names : ¬∀ source : FunctionSource, source.Meets := by
  intro h
  have hargs : ParamAt oneCollectorName.tokens oneCollectorName.parseToken 1 (.args [97] true) 3 :=
    .args ⟨_, rfl, rfl⟩ ⟨_, rfl, rfl, rfl⟩
  have hkwargs : ParamAt oneCollectorName.tokens oneCollectorName.parseToken 4 (.kwargs [97] true) 7 :=
    .kwargs ⟨_, rfl, rfl⟩ ⟨_, rfl, rfl⟩ ⟨_, rfl, rfl, rfl⟩
  have hwritten : oneCollectorName.Written [.args [97] true, .kwargs [97] true] false 8 :=
    ParamsAt.cons hargs ⟨_, rfl, rfl⟩ (.last hkwargs ⟨_, rfl, rfl⟩)
  have hmissed : oneCollectorName.Missed [.args [97] true, .kwargs [97] true] false :=
    ⟨_, List.mem_cons_self .., _, List.mem_cons_of_mem _ (List.mem_cons_self ..), rfl, rfl, rfl⟩
  rcases (h oneCollectorName).missed hwritten hmissed with htaken | hbody
  · refine htaken ⟨.cons ?_ (.cons nofun .nil), ?_⟩
    · intro q hq
      obtain rfl := List.mem_singleton.mp hq
      exact ⟨.inr ⟨rfl, rfl⟩, (by decide : 2 ≤ 3), fun _ => (by decide : 2 < 3)⟩
    · intro p hp
      rcases List.mem_cons.mp hp with rfl | hp
      · trivial
      · obtain rfl := List.mem_singleton.mp hp
        trivial
  · obtain ⟨token, htoken, -⟩ := hbody.1
    cases htoken

end FunctionSource

end Chloride
