import Chloride.Containers.Chain

/-!
# Precedence

The value of a chain of numbers with `+`, `-`, `*` and `/` between them. By the convention, `*` and `/`
are tighter than `+` and `-`, and signs that are equally tight associate to the left.

A chain can also be grouped level by level, at one sign after the other. If `+` is the loosest and `-`,
`/` and `*` follow, the value is the conventional one of the chain that is bent: in which every `*`
behind a `/` in its term is a `/` (`levelValue_eq_conventional`).
-/

/-! ## Levels -/

namespace Chain

section

variable {α ω : Type*} [DecidableEq ω]

/-- The signs of a level are folded from the left, over the values of what is between them. -/
def levelValue (apply : ω → α → α → α) : List ω → Chain α ω → α
  | [], c => c.first
  | sign :: levels, c =>
    match (c.cut (· = sign)).map (levelValue apply levels) with
    | [] => c.first
    | a :: as => as.foldl (apply sign) a

/-- All the steps of a fold from the left are allowed. -/
def FoldSteps (f : α → α → α) (allowed : α → α → Prop) : α → List α → Prop
  | _, [] => True
  | a, b :: bs => allowed a b ∧ FoldSteps f allowed (f a b) bs

/-- All the steps of all the levels are allowed. -/
def LevelSteps (apply : ω → α → α → α) (allowed : ω → α → α → Prop) : List ω → Chain α ω → Prop
  | [], _ => True
  | sign :: levels, c =>
    (∀ e ∈ c.cut (· = sign), LevelSteps apply allowed levels e) ∧
      match (c.cut (· = sign)).map (levelValue apply levels) with
      | [] => True
      | a :: as => FoldSteps (apply sign) (allowed sign) a as

variable {apply : ω → α → α → α} {allowed : ω → α → α → Prop} {sign : ω} {levels : List ω}
  {c d : Chain α ω}

theorem levelValue_cons {ds : List (Chain α ω)} (h : c.cut (· = sign) = d :: ds) :
    levelValue apply (sign :: levels) c =
      (ds.map (levelValue apply levels)).foldl (apply sign) (levelValue apply levels d) := by
  rw [levelValue, h]
  rfl

theorem levelSteps_cons {ds : List (Chain α ω)} (h : c.cut (· = sign) = d :: ds) :
    LevelSteps apply allowed (sign :: levels) c ↔
      (∀ e ∈ d :: ds, LevelSteps apply allowed levels e) ∧
        FoldSteps (apply sign) (allowed sign) (levelValue apply levels d)
          (ds.map (levelValue apply levels)) := by
  rw [LevelSteps, h]
  rfl

/-- Without its sign a level has no step. -/
theorem cut_of_not_mem (h : sign ∉ c.seps) : c.cut (· = sign) = [c] :=
  cut_of_forall fun _ ho => decide_eq_false fun heq => h (heq ▸ ho)

theorem levelValue_of_not_mem (h : sign ∉ c.seps) :
    levelValue apply (sign :: levels) c = levelValue apply levels c :=
  levelValue_cons (cut_of_not_mem h)

theorem levelSteps_of_not_mem (h : sign ∉ c.seps) :
    LevelSteps apply allowed (sign :: levels) c ↔ LevelSteps apply allowed levels c := by
  rw [levelSteps_cons (cut_of_not_mem h), List.forall_mem_singleton]
  exact and_iff_left trivial

/-- Levels whose signs a chain does not have. -/
theorem levelValue_skip {looser : List ω} (h : ∀ o ∈ looser, o ∉ c.seps) :
    levelValue apply (looser ++ levels) c = levelValue apply levels c := by
  induction looser with
  | nil => rfl
  | cons sign looser ih =>
    rw [List.forall_mem_cons] at h
    rw [List.cons_append, levelValue_of_not_mem h.1, ih h.2]

theorem levelSteps_skip {looser : List ω} (h : ∀ o ∈ looser, o ∉ c.seps) :
    LevelSteps apply allowed (looser ++ levels) c ↔ LevelSteps apply allowed levels c := by
  induction looser with
  | nil => rfl
  | cons sign looser ih =>
    rw [List.forall_mem_cons] at h
    rw [List.cons_append, levelSteps_of_not_mem h.1, ih h.2]

/-- The value of a level is a total if the total of a chain without the level's sign is the value of the
tighter levels, and the total of a chain with such signs is a fold over what is between them. -/
theorem levelValue_eq (total : Chain α ω → α) (fold : α → Chain α ω → α)
    (hwhole : ∀ c : Chain α ω, (∀ o ∈ c.seps, o ∈ levels) → total c = levelValue apply levels c ∧
      ∀ a, fold a c = apply sign a (levelValue apply levels c))
    (happend : ∀ d c : Chain α ω, (∀ o ∈ d.seps, o ∈ levels) → (∀ o ∈ c.seps, o ∈ sign :: levels) →
      total (d.append sign c) = fold (levelValue apply levels d) c ∧
      ∀ a, fold a (d.append sign c) = fold (apply sign a (levelValue apply levels d)) c)
    (h : ∀ o ∈ c.seps, o ∈ sign :: levels) : levelValue apply (sign :: levels) c = total c := by
  have htighter {d : Chain α ω} (hd : ∀ o ∈ d.seps, o ∈ sign :: levels)
      (hother : ∀ o ∈ d.seps, decide (o = sign) = false) : ∀ o ∈ d.seps, o ∈ levels :=
    fun o ho => (List.mem_cons.mp (hd o ho)).resolve_left (of_decide_eq_false (hother o ho))
  have hfold (c : Chain α ω) (hc : ∀ o ∈ c.seps, o ∈ sign :: levels) (a : α) :
      ((c.cut (· = sign)).map (levelValue apply levels)).foldl (apply sign) a = fold a c := by
    induction c using cutInduction (fun o => o = sign) generalizing a with
    | whole c hother =>
      rw [cut_of_forall hother, (hwhole c (htighter hc hother)).2 a]
      rfl
    | append d o c hother ho ih =>
      obtain rfl := of_decide_eq_true ho
      rw [seps_append, List.forall_mem_append, List.forall_mem_cons] at hc
      rw [cut_append hother ho, List.map_cons, List.foldl_cons, ih hc.2.2,
        (happend d c (htighter hc.1 hother) hc.2.2).2 a]
  by_cases hmem : ∃ o ∈ c.seps, decide (o = sign) = true
  · obtain ⟨d, o, c', hother, ho, rfl⟩ := exists_append hmem
    obtain rfl := of_decide_eq_true ho
    rw [seps_append, List.forall_mem_append, List.forall_mem_cons] at h
    rw [levelValue_cons (cut_append hother ho), hfold c' h.2.2,
      (happend d c' (htighter h.1 hother) h.2.2).1]
  · have hother : ∀ o ∈ c.seps, decide (o = sign) = false :=
      fun o ho => Bool.eq_false_iff.mpr fun heq => hmem ⟨o, ho, heq⟩
    rw [levelValue_of_not_mem fun hsign => of_decide_eq_false (hother sign hsign) rfl,
      (hwhole c (htighter h hother)).1]

end

end Chain

/-! ## Signs -/

inductive ArithmeticSign where
  | plus | minus | star | slash
  deriving DecidableEq

namespace ArithmeticSign

variable {K : Type*} [Field K]

def apply : ArithmeticSign → K → K → K
  | plus, a, b => a + b
  | minus, a, b => a - b
  | star, a, b => a * b
  | slash, a, b => a / b

/-- The signs that are tighter by the convention. -/
def isTight : ArithmeticSign → Bool
  | plus | minus => false
  | star | slash => true

/-- The signs from the loosest to the tightest, each on its own level. -/
def levels : List ArithmeticSign := [plus, minus, slash, star]

end ArithmeticSign

/-! ## The convention -/

namespace ArithmeticChain

variable {K : Type*} [Field K]

/-- The value of a term and of what follows it, where `pending` is to be done to the term when it is
complete. -/
def conventionalRest (pending : K → K) : K → List (ArithmeticSign × K) → K
  | term, [] => pending term
  | term, (.plus, a) :: rest => conventionalRest (fun next => pending term + next) a rest
  | term, (.minus, a) :: rest => conventionalRest (fun next => pending term - next) a rest
  | term, (.star, a) :: rest => conventionalRest pending (term * a) rest
  | term, (.slash, a) :: rest => conventionalRest pending (term / a) rest

/-- The conventional value. -/
def conventional (c : Chain K ArithmeticSign) : K := conventionalRest id c.first c.rest

/-- No number behind a `/` is zero. -/
def DivisorsNonzero (c : Chain K ArithmeticSign) : Prop := ∀ x ∈ c.rest, x.1 = .slash → x.2 ≠ 0

/-- `divided` says whether there is a `/` before, in the term. -/
def bentRest : Bool → List (ArithmeticSign × K) → List (ArithmeticSign × K)
  | _, [] => []
  | _, (.slash, a) :: rest => (.slash, a) :: bentRest true rest
  | true, (.star, a) :: rest => (.slash, a) :: bentRest true rest
  | false, (.star, a) :: rest => (.star, a) :: bentRest false rest
  | _, (sign, a) :: rest => (sign, a) :: bentRest false rest

/-- The chain with `/` for every `*` that follows a `/` in its term. -/
def bent (c : Chain K ArithmeticSign) : Chain K ArithmeticSign := ⟨c.first, bentRest false c.rest⟩

/-- The fold from the left that does not look at precedence. -/
def fromLeft (a : K) (rest : List (ArithmeticSign × K)) : K := rest.foldl (fun a x => x.1.apply a x.2) a

section

variable {pending : K → K} {term a : K} {rest rest' : List (ArithmeticSign × K)}

/-- A term is folded from the left. -/
theorem conventionalRest_of_tight (h : ∀ x ∈ rest, x.1.isTight = true) :
    conventionalRest pending term rest = pending (fromLeft term rest) := by
  induction rest generalizing term with
  | nil => rfl
  | cons x rest ih =>
    rw [List.forall_mem_cons] at h
    obtain ⟨sign, b⟩ := x
    cases sign with
    | plus => exact absurd h.1 Bool.false_ne_true
    | minus => exact absurd h.1 Bool.false_ne_true
    | star => exact ih h.2
    | slash => exact ih h.2

/-- Behind a loose sign a new term begins. -/
theorem conventionalRest_append {sign : ArithmeticSign} (h : sign.isTight = false) :
    conventionalRest pending term (rest ++ (sign, a) :: rest') =
      conventionalRest (sign.apply (conventionalRest pending term rest)) a rest' := by
  induction rest generalizing pending term with
  | nil =>
    cases sign with
    | plus => rfl
    | minus => rfl
    | star => cases h
    | slash => cases h
  | cons x rest ih =>
    obtain ⟨sign', b⟩ := x
    cases sign' with
    | plus => exact @ih (fun next => pending term + next) b
    | minus => exact @ih (fun next => pending term - next) b
    | star => exact @ih pending (term * b)
    | slash => exact @ih pending (term / b)

/-- A number that is added to the first term is added to the sum. -/
theorem conventionalRest_add (b : K) :
    conventionalRest (fun next => b + pending next) term rest =
      b + conventionalRest pending term rest := by
  induction rest generalizing pending term with
  | nil => rfl
  | cons x rest ih =>
    obtain ⟨sign, a⟩ := x
    cases sign with
    | plus =>
      have hpending : (fun next => b + pending term + next) =
          fun next => b + (pending term + next) := funext fun next => add_assoc ..
      rw [conventionalRest, hpending]
      exact ih
    | minus =>
      have hpending : (fun next => b + pending term - next) =
          fun next => b + (pending term - next) := funext fun next => add_sub_assoc ..
      rw [conventionalRest, hpending]
      exact ih
    | star => exact ih
    | slash => exact ih

/-- A chain without a loose sign is a term. -/
theorem conventional_of_tight {c : Chain K ArithmeticSign} (h : ∀ x ∈ c.rest, x.1.isTight = true) :
    conventional c = fromLeft c.first c.rest := conventionalRest_of_tight h

/-- Equally loose signs associate to the left: the last of them is done last, to the value of what is
before it. -/
theorem conventional_append {d c : Chain K ArithmeticSign} {sign : ArithmeticSign}
    (hsign : sign.isTight = false) (h : ∀ x ∈ c.rest, x.1.isTight = true) :
    conventional (d.append sign c) = sign.apply (conventional d) (conventional c) := by
  unfold conventional Chain.append
  rw [conventionalRest_append hsign, conventionalRest_of_tight h, conventionalRest_of_tight h]
  rfl

end

/-! ## Chains that are bent -/

section

variable {K : Type*} {a : K} {rest rest' : List (ArithmeticSign × K)}

/-- A sign that is not `*` says itself whether the term is divided behind it. -/
theorem bentRest_append {sign : ArithmeticSign} (h : sign ≠ .star) (divided : Bool) :
    bentRest divided (rest ++ (sign, a) :: rest') =
      bentRest divided rest ++ (sign, a) :: bentRest (sign = .slash) rest' := by
  induction rest generalizing divided with
  | nil =>
    cases sign with
    | star => exact absurd rfl h
    | plus => cases divided <;> rfl
    | minus => cases divided <;> rfl
    | slash => cases divided <;> rfl
  | cons x rest ih =>
    obtain ⟨sign', b⟩ := x
    have hhead (sign : ArithmeticSign) (divided : Bool) :
        (sign, b) :: bentRest divided (rest ++ _) = (sign, b) :: bentRest divided rest ++ _ :=
      congrArg _ (ih divided)
    cases divided <;> cases sign' <;> exact hhead _ _

theorem bentRest_of_star (h : ∀ x ∈ rest, x.1 = .star) : bentRest false rest = rest := by
  induction rest with
  | nil => rfl
  | cons x rest ih =>
    rw [List.forall_mem_cons] at h
    obtain ⟨sign, b⟩ := x
    obtain rfl : sign = .star := h.1
    exact congrArg _ (ih h.2)

theorem bentRest_tight (h : ∀ x ∈ rest, x.1.isTight = true) (divided : Bool) :
    ∀ x ∈ bentRest divided rest, x.1.isTight = true := by
  induction rest generalizing divided with
  | nil => exact nofun
  | cons x rest ih =>
    rw [List.forall_mem_cons] at h
    obtain ⟨sign, b⟩ := x
    cases sign with
    | plus => exact absurd h.1 Bool.false_ne_true
    | minus => exact absurd h.1 Bool.false_ne_true
    | star => cases divided <;> exact List.forall_mem_cons.mpr ⟨rfl, ih h.2 _⟩
    | slash => cases divided <;> exact List.forall_mem_cons.mpr ⟨rfl, ih h.2 _⟩

end

/-! ## The value level by level -/

section

open Chain

variable {K : Type*} [Field K] {c : Chain K ArithmeticSign}

theorem fromLeft_append (a : K) (rest rest' : List (ArithmeticSign × K)) :
    fromLeft a (rest ++ rest') = fromLeft (fromLeft a rest) rest' := List.foldl_append

/-- Divided by every number of a product, a number is divided by the product. -/
theorem fromLeft_bentRest_of_star {rest : List (ArithmeticSign × K)} (h : ∀ x ∈ rest, x.1 = .star)
    (a b : K) : fromLeft (a / b) (bentRest true rest) = a / fromLeft b rest := by
  induction rest generalizing b with
  | nil => rfl
  | cons x rest ih =>
    rw [List.forall_mem_cons] at h
    obtain ⟨sign, d⟩ := x
    obtain rfl : sign = .star := h.1
    calc fromLeft (a / b) (bentRest true ((.star, d) :: rest))
        = fromLeft (a / b / d) (bentRest true rest) := rfl
      _ = fromLeft (a / (b * d)) (bentRest true rest) := by rw [div_div]
      _ = a / fromLeft (b * d) rest := ih h.2 _

theorem levelValue_star (h : ∀ o ∈ c.seps, o ∈ [ArithmeticSign.star]) :
    levelValue ArithmeticSign.apply [.star] c = fromLeft c.first c.rest := by
  refine levelValue_eq (fun c => fromLeft c.first c.rest)
    (fun a c => fromLeft a ((.star, c.first) :: c.rest)) ?_ ?_ h
  · intro c hc
    obtain ⟨first, rest⟩ := c
    obtain rfl : rest = [] := List.eq_nil_iff_forall_not_mem.mpr fun x hx =>
      List.not_mem_nil (hc x.1 (List.mem_map_of_mem hx))
    exact ⟨rfl, fun a => rfl⟩
  · intro d c hd _
    obtain ⟨first, rest⟩ := d
    obtain rfl : rest = [] := List.eq_nil_iff_forall_not_mem.mpr fun x hx =>
      List.not_mem_nil (hd x.1 (List.mem_map_of_mem hx))
    exact ⟨rfl, fun a => rfl⟩

/-- A term is the one that is bent, from the left. -/
theorem levelValue_slash (h : ∀ o ∈ c.seps, o ∈ [ArithmeticSign.slash, .star]) :
    levelValue ArithmeticSign.apply [.slash, .star] c = fromLeft c.first (bentRest false c.rest) := by
  have hstar {d : Chain K ArithmeticSign} (hd : ∀ o ∈ d.seps, o ∈ [ArithmeticSign.star]) :
      ∀ x ∈ d.rest, x.1 = .star :=
    fun x hx => List.mem_singleton.mp (hd x.1 (List.mem_map_of_mem hx))
  refine levelValue_eq (fun c => fromLeft c.first (bentRest false c.rest))
    (fun a c => fromLeft (a / c.first) (bentRest true c.rest)) ?_ ?_ h
  · intro c hc
    rw [levelValue_star hc]
    refine ⟨by rw [bentRest_of_star (hstar hc)], fun a => ?_⟩
    exact fromLeft_bentRest_of_star (hstar hc) a c.first
  · intro d c hd _
    rw [levelValue_star hd]
    unfold Chain.append
    dsimp only
    refine ⟨?_, fun a => ?_⟩
    · rw [bentRest_append (by decide), bentRest_of_star (hstar hd), fromLeft_append]
      rfl
    · rw [bentRest_append (by decide), fromLeft_append, fromLeft_bentRest_of_star (hstar hd)]
      rfl

/-- Without `+`, the terms that are bent are subtracted. -/
theorem levelValue_minus (h : ∀ o ∈ c.seps, o ∈ [ArithmeticSign.minus, .slash, .star]) :
    levelValue ArithmeticSign.apply [.minus, .slash, .star] c = conventional (bent c) := by
  have htight {d : Chain K ArithmeticSign} (hd : ∀ o ∈ d.seps, o ∈ [ArithmeticSign.slash, .star]) :
      ∀ x ∈ bentRest false d.rest, x.1.isTight = true := by
    refine bentRest_tight (fun x hx => ?_) false
    have hsign := hd x.1 (List.mem_map_of_mem hx)
    revert hsign
    cases x.1 <;> decide
  refine levelValue_eq (fun c => conventional (bent c))
    (fun a c => conventionalRest (fun next => a - next) c.first (bentRest false c.rest)) ?_ ?_ h
  · intro c hc
    rw [levelValue_slash hc]
    exact ⟨conventionalRest_of_tight (htight hc), fun a => conventionalRest_of_tight (htight hc)⟩
  · intro d c hd _
    rw [levelValue_slash hd]
    unfold conventional bent Chain.append
    dsimp only
    have hfold (pending : K → K) : conventionalRest pending d.first
        (bentRest false (d.rest ++ (.minus, c.first) :: c.rest)) =
        conventionalRest (fun next => pending (fromLeft d.first (bentRest false d.rest)) - next)
          c.first (bentRest false c.rest) := by
      rw [bentRest_append (by decide), conventionalRest_append rfl, conventionalRest_of_tight (htight hd)]
      rfl
    exact ⟨hfold id, fun a => hfold _⟩

/-- At `+`, `-`, `/` and `*` as levels of their own, a chain has the conventional value of the chain
that is bent. -/
theorem levelValue_eq_conventional (c : Chain K ArithmeticSign) :
    levelValue ArithmeticSign.apply ArithmeticSign.levels c = conventional (bent c) := by
  have hall : ∀ o ∈ c.seps, o ∈ ArithmeticSign.levels := fun o _ => by cases o <;> decide
  refine levelValue_eq (fun c => conventional (bent c))
    (fun a c => conventionalRest (fun next => a + next) c.first (bentRest false c.rest)) ?_ ?_ hall
  · intro c hc
    rw [levelValue_minus hc]
    exact ⟨rfl, fun a => @conventionalRest_add K _ id _ _ a⟩
  · intro d c hd _
    rw [levelValue_minus hd]
    unfold conventional bent Chain.append
    dsimp only
    have hfold (pending : K → K) : conventionalRest pending d.first
        (bentRest false (d.rest ++ (.plus, c.first) :: c.rest)) =
        conventionalRest (fun next => conventionalRest pending d.first (bentRest false d.rest) + next)
          c.first (bentRest false c.rest) := by
      rw [bentRest_append (by decide), conventionalRest_append rfl]
      rfl
    refine ⟨hfold id, fun a => ?_⟩
    have hadd := @conventionalRest_add K _ id d.first (bentRest false d.rest) a
    rw [hfold]
    exact congrArg (fun b => conventionalRest (fun next => b + next) c.first (bentRest false c.rest)) hadd

end

end ArithmeticChain
