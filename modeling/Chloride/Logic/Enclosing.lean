import Mathlib

/-!
# Programs that track what encloses them

A recursive program over a graph can track the nodes around the one it is at in a list that it pushes
to and pops from. Where an error leaves the program between the two, the list keeps the node.

`Tracks` is what such a program does. It is interpreted with lists in a store (`Stored`), and with lists
that are passed down (`Scoped`), which tells whether a node was left by an error. `Refines` connects the
two, and its rules follow the constructors of the programs.
-/

namespace Enclosing

variable {ι V E : Type} {α β : Type}

/-- The lists. -/
abbrev Lists (ι V : Type) := ι → List V

/-- What a program does: it may run out of steps, throw, catch, look at a list, and do something while
a node is in a list. -/
class Tracks (ι V E : outParam Type) (m : Type → Type) extends Monad m where
  unfinished {α : Type} : m α
  throw {α : Type} : E → m α
  attempt {α : Type} : m α → m (Except E α)
  enclosing : ι → m (List V)
  within {α : Type} : ι → V → m α → m α

export Tracks (unfinished throw attempt enclosing within)

/-- Programs with the lists in a store, which an error leaves as they are. -/
def Stored (ι V E α : Type) := Lists ι V → Option (Except E α × Lists ι V)

/-- Programs with the lists passed down, which tell whether a node was left by an error. -/
def Scoped (ι V E α : Type) := Lists ι V → Option (Except E α × Bool)

section

variable [DecidableEq ι]

/-- A node is added. -/
def Lists.push (L : Lists ι V) (i : ι) (v : V) : Lists ι V := Function.update L i (L i ++ [v])

/-- The last node is removed. -/
def Lists.pop (L : Lists ι V) (i : ι) : Lists ι V := Function.update L i (L i).dropLast

instance : Tracks ι V E (Stored ι V E) where
  pure a L := some (.ok a, L)
  bind p f L :=
    match p L with
    | none => none
    | some (.ok a, L') => f a L'
    | some (.error e, L') => some (.error e, L')
  unfinished _ := none
  throw e L := some (.error e, L)
  attempt p L := (p L).map fun r => (.ok r.1, r.2)
  enclosing i L := some (.ok (L i), L)
  within i v p L :=
    match p (L.push i v) with
    | none => none
    | some (.ok a, L') => some (.ok a, L'.pop i)
    | some (.error e, L') => some (.error e, L')

instance : Tracks ι V E (Scoped ι V E) where
  pure a _ := some (.ok a, false)
  bind p f L :=
    match p L with
    | none => none
    | some (.ok a, left) => (f a L).map fun r => (r.1, left || r.2)
    | some (.error e, left) => some (.error e, left)
  unfinished _ := none
  throw e _ := some (.error e, false)
  attempt p L := (p L).map fun r => (.ok r.1, r.2)
  enclosing i L := some (.ok (L i), false)
  within i v p L :=
    match p (L.push i v) with
    | none => none
    | some (.ok a, left) => some (.ok a, left)
    | some (.error e, _) => some (.error e, true)

end

/-! ## The order of the lists -/

/-- The lists were only added to. -/
def Lists.Extends (L L' : Lists ι V) : Prop := ∀ i, L i <+: L' i

theorem Lists.Extends.refl (L : Lists ι V) : L.Extends L := fun _ => List.prefix_rfl

theorem Lists.Extends.trans {L L' L'' : Lists ι V} (h : L.Extends L') (h' : L'.Extends L'') :
    L.Extends L'' := fun i => (h i).trans (h' i)

theorem Lists.Extends.antisymm {L L' : Lists ι V} (h : L.Extends L') (h' : L'.Extends L) : L = L' :=
  funext fun i => (h i).eq_of_length_le (h' i).length_le

section

variable [DecidableEq ι] {L L' : Lists ι V} {i : ι} {v : V}

theorem Lists.pop_push : (L.push i v).pop i = L := by
  unfold push pop
  rw [Function.update_self, List.dropLast_concat, Function.update_idem, Function.update_eq_self]

theorem Lists.extends_push : L.Extends (L.push i v) := by
  intro j
  by_cases hj : j = i
  · subst hj
    unfold push
    rw [Function.update_self]
    exact List.prefix_append _ _
  · unfold push
    rw [Function.update_of_ne hj]

theorem Lists.ne_of_extends_push (h : (L.push i v).Extends L') : L' ≠ L := by
  rintro rfl
  have hlength := (h i).length_le
  unfold push at hlength
  rw [Function.update_self, List.length_append, List.length_singleton] at hlength
  omega

/-- Popping from lists that extend the pushed ones. -/
theorem Lists.extends_pop (h : (L.push i v).Extends L') : L.Extends (L'.pop i) := by
  intro j
  by_cases hj : j = i
  · subst hj
    have hinitial := h j
    unfold push at hinitial
    unfold pop
    rw [Function.update_self] at hinitial ⊢
    obtain ⟨rest, hrest⟩ := hinitial
    rw [← hrest, List.append_assoc, List.dropLast_append_of_ne_nil (by simp)]
    exact List.prefix_append _ _
  · unfold pop
    rw [Function.update_of_ne hj]
    exact extends_push.trans h j

/-- Nothing was added if popping gives the lists of before. -/
theorem Lists.eq_push_of_pop (h : (L.push i v).Extends L') (hpop : L'.pop i = L) :
    L' = L.push i v := by
  have hupdate : Function.update L' i (L' i).dropLast = L := hpop
  refine (h.antisymm fun j => ?_).symm
  by_cases hj : j = i
  · subst hj
    have hlist : (L' j).dropLast = L j :=
      (Function.update_self j (L' j).dropLast L').symm.trans (congrFun hupdate j)
    refine (h j).eq_of_length ?_ ▸ List.prefix_rfl
    have hle := (h j).length_le
    unfold push at hle ⊢
    rw [Function.update_self, List.length_append, List.length_singleton] at hle ⊢
    have hlength : (L' j).length - 1 = (L j).length := by
      rw [← hlist, List.length_dropLast]
    omega
  · have hlist : L j = L' j :=
      (congrFun hupdate j).symm.trans (Function.update_of_ne hj (L' i).dropLast L')
    unfold push
    rw [Function.update_of_ne hj, hlist]

end

/-! ## Running programs -/

section

variable [DecidableEq ι] {L L' : Lists ι V} {i : ι} {v : V}

theorem Stored.bind_some {p : Stored ι V E α} {f : α → Stored ι V E β} {r : Except E β} :
    (p >>= f) L = some (r, L') ↔ (∃ a L₁, p L = some (.ok a, L₁) ∧ f a L₁ = some (r, L')) ∨
      ∃ e, p L = some (.error e, L') ∧ r = .error e := by
  have hbind : (p >>= f) L = match p L with
      | none => none
      | some (.ok a, L') => f a L'
      | some (.error e, L') => some (.error e, L') := rfl
  rw [hbind]
  rcases p L with - | ⟨e | a, L₁⟩
  · simp
  · simp [eq_comm, and_comm]
  · simp

theorem Scoped.bind_some {q : Scoped ι V E α} {g : α → Scoped ι V E β} {r : Except E β} {left : Bool} :
    (q >>= g) L = some (r, left) ↔
      (∃ a left₁ left₂, q L = some (.ok a, left₁) ∧ g a L = some (r, left₂) ∧
        left = (left₁ || left₂)) ∨
      ∃ e, q L = some (.error e, left) ∧ r = .error e := by
  have hbind : (q >>= g) L = match q L with
      | none => none
      | some (.ok a, left) => (g a L).map fun r => (r.1, left || r.2)
      | some (.error e, left) => some (.error e, left) := rfl
  rw [hbind]
  rcases q L with - | ⟨e | a, left₁⟩
  · simp
  · simp [eq_comm, and_comm]
  · simp only [Option.map_eq_some_iff, Prod.mk.injEq, Prod.exists, Option.some.injEq, Except.ok.injEq,
      reduceCtorEq, false_and, exists_false, or_false]
    constructor
    · rintro ⟨r', left₂, hg, rfl, rfl⟩
      exact ⟨a, left₁, left₂, ⟨rfl, rfl⟩, hg, rfl⟩
    · rintro ⟨a', left₁', left₂, ⟨rfl, rfl⟩, hg, rfl⟩
      exact ⟨r, left₂, hg, rfl, rfl⟩

theorem Stored.attempt_some {p : Stored ι V E α} {r : Except E (Except E α)} :
    attempt p L = some (r, L') ↔ ∃ r', p L = some (r', L') ∧ r = .ok r' := by
  have hattempt : attempt p L = (p L).map fun r => (.ok r.1, r.2) := rfl
  rw [hattempt]
  rcases p L with - | ⟨r', L₁⟩
  · simp
  · simp [eq_comm, and_comm]

theorem Scoped.attempt_some {q : Scoped ι V E α} {r : Except E (Except E α)} {left : Bool} :
    attempt q L = some (r, left) ↔ ∃ r', q L = some (r', left) ∧ r = .ok r' := by
  have hattempt : attempt q L = (q L).map fun r => (.ok r.1, r.2) := rfl
  rw [hattempt]
  rcases q L with - | ⟨r', left₁⟩
  · simp
  · simp [eq_comm, and_comm]

theorem Stored.within_some {p : Stored ι V E α} {r : Except E α} :
    within i v p L = some (r, L') ↔
      (∃ a L₁, p (L.push i v) = some (.ok a, L₁) ∧ r = .ok a ∧ L' = L₁.pop i) ∨
        ∃ e, p (L.push i v) = some (.error e, L') ∧ r = .error e := by
  have hwithin : within i v p L = match p (L.push i v) with
      | none => none
      | some (.ok a, L') => some (.ok a, L'.pop i)
      | some (.error e, L') => some (.error e, L') := rfl
  rw [hwithin]
  rcases p (L.push i v) with - | ⟨e | a, L₁⟩
  · simp
  · simp [eq_comm, and_comm]
  · simp [eq_comm]

theorem Scoped.within_some {q : Scoped ι V E α} {r : Except E α} {left : Bool} :
    within i v q L = some (r, left) ↔
      (∃ a, q (L.push i v) = some (.ok a, left) ∧ r = .ok a) ∨
        ∃ e left₁, q (L.push i v) = some (.error e, left₁) ∧ r = .error e ∧ left = true := by
  have hwithin : within i v q L = match q (L.push i v) with
      | none => none
      | some (.ok a, left) => some (.ok a, left)
      | some (.error e, _) => some (.error e, true) := rfl
  rw [hwithin]
  rcases q (L.push i v) with - | ⟨e | a, left₁⟩
  · simp
  · simp [eq_comm]
  · simp [eq_comm, and_comm]

end

/-! ## The two interpretations -/

/-- The program with a store only adds to the lists, and it leaves them as they are exactly where the
program without one leaves no node by an error; both answer the same then. -/
structure Refines (p : Stored ι V E α) (q : Scoped ι V E α) : Prop where
  grows : ∀ L r L', p L = some (r, L') → L.Extends L'
  iff : ∀ L r, p L = some (r, L) ↔ q L = some (r, false)

namespace Refines

theorem ite {c : Prop} [Decidable c] {p p' : Stored ι V E α} {q q' : Scoped ι V E α}
    (h : Refines p q) (h' : Refines p' q') : Refines (if c then p else p') (if c then q else q') := by
  split
  case isTrue => exact h
  case isFalse => exact h'

/-- Programs that do nothing to the lists. -/
theorem of_const {p : Stored ι V E α} {q : Scoped ι V E α} {a : Lists ι V → Except E α}
    (hp : ∀ L, p L = some (a L, L)) (hq : ∀ L, q L = some (a L, false)) : Refines p q where
  grows L r L' h := by
    rw [hp] at h
    cases h
    exact Lists.Extends.refl L
  iff L r := by
    rw [hp, hq]
    simp

variable [DecidableEq ι]

theorem pure (a : α) : Refines (Pure.pure a : Stored ι V E α) (Pure.pure a) :=
  of_const (fun _ => rfl) fun _ => rfl

theorem throw (e : E) : Refines (throw e : Stored ι V E α) (throw e) :=
  of_const (fun _ => rfl) fun _ => rfl

theorem enclosing (i : ι) : Refines (enclosing i : Stored ι V E (List V)) (enclosing i) :=
  of_const (fun _ => rfl) fun _ => rfl

theorem unfinished : Refines (unfinished : Stored ι V E α) unfinished where
  grows _ _ _ h := nomatch h
  iff _ _ := iff_of_false nofun nofun

theorem bind {p : Stored ι V E α} {q : Scoped ι V E α} {f : α → Stored ι V E β}
    {g : α → Scoped ι V E β} (h : Refines p q) (hf : ∀ a, Refines (f a) (g a)) :
    Refines (p >>= f) (q >>= g) where
  grows L r L' hrun := by
    rcases Stored.bind_some.mp hrun with ⟨a, L₁, hp, ha⟩ | ⟨e, hp, _⟩
    · exact (h.grows L _ L₁ hp).trans ((hf a).grows L₁ r L' ha)
    · exact h.grows L _ L' hp
  iff L r := by
    rw [Stored.bind_some, Scoped.bind_some]
    constructor
    · rintro (⟨a, L₁, hp, ha⟩ | ⟨e, hp, rfl⟩)
      · -- What was added could not have been taken away again.
        have hL : L₁ = L := ((hf a).grows L₁ r L ha).antisymm (h.grows L _ L₁ hp)
        subst hL
        exact .inl ⟨a, false, false, (h.iff _ _).mp hp, ((hf a).iff _ _).mp ha, rfl⟩
      · exact .inr ⟨e, (h.iff _ _).mp hp, rfl⟩
    · rintro (⟨a, left₁, left₂, hq, ha, hleft⟩ | ⟨e, hq, rfl⟩)
      · obtain ⟨rfl, rfl⟩ := Bool.or_eq_false_iff.mp hleft.symm
        exact .inl ⟨a, L, (h.iff _ _).mpr hq, ((hf a).iff _ _).mpr ha⟩
      · exact .inr ⟨e, (h.iff _ _).mpr hq, rfl⟩

theorem attempt {p : Stored ι V E α} {q : Scoped ι V E α} (h : Refines p q) :
    Refines (attempt p) (attempt q) where
  grows L r L' hrun := by
    obtain ⟨r', hp, _⟩ := Stored.attempt_some.mp hrun
    exact h.grows L r' L' hp
  iff L r := by
    rw [Stored.attempt_some, Scoped.attempt_some]
    exact exists_congr fun r' => and_congr_left fun _ => h.iff L r'

theorem within {p : Stored ι V E α} {q : Scoped ι V E α} (h : Refines p q) (i : ι) (v : V) :
    Refines (within i v p) (within i v q) where
  grows L r L' hrun := by
    rcases Stored.within_some.mp hrun with ⟨a, L₁, hp, _, rfl⟩ | ⟨e, hp, _⟩
    · exact Lists.extends_pop (h.grows _ _ L₁ hp)
    · exact Lists.extends_push.trans (h.grows _ _ L' hp)
  iff L r := by
    rw [Stored.within_some, Scoped.within_some]
    constructor
    · rintro (⟨a, L₁, hp, rfl, hL⟩ | ⟨e, hp, rfl⟩)
      · have hpush : L₁ = L.push i v := Lists.eq_push_of_pop (h.grows _ _ L₁ hp) hL.symm
        subst hpush
        exact .inl ⟨a, (h.iff _ _).mp hp, rfl⟩
      · -- The node is still in the list.
        exact absurd rfl (Lists.ne_of_extends_push (h.grows _ _ L hp))
    · rintro (⟨a, hq, rfl⟩ | ⟨e, left₁, hq, rfl, hleft⟩)
      · exact .inl ⟨a, L.push i v, (h.iff _ _).mpr hq, rfl, Lists.pop_push.symm⟩
      · cases hleft

end Refines

/-! ## Errors of the program without a store -/

/-- From some lists on, the program does not throw an error. -/
def Avoids (e : E) (L : Lists ι V) (q : Scoped ι V E α) : Prop :=
  ∀ r left, q L = some (r, left) → r ≠ .error e

namespace Avoids

variable {e : E} {L : Lists ι V}

theorem ite {c : Prop} [Decidable c] {p q : Scoped ι V E α} (hp : c → Avoids e L p)
    (hq : ¬c → Avoids e L q) : Avoids e L (if c then p else q) := by
  split
  case isTrue hc => exact hp hc
  case isFalse hc => exact hq hc

variable [DecidableEq ι]

theorem pure (a : α) : Avoids e L (Pure.pure a) := by
  intro r left h
  cases h
  exact nofun

theorem throw {e' : E} (h : e' ≠ e) : Avoids e L (throw e' : Scoped ι V E α) := by
  intro r left hrun
  cases hrun
  exact fun heq => h (Except.error.inj heq)

theorem unfinished : Avoids e L (unfinished : Scoped ι V E α) := nofun

/-- A program that goes on with an answer. -/
theorem bind_ok {q : Scoped ι V E α} {g : α → Scoped ι V E β} {a : α} (hq : q L = some (.ok a, false))
    (h : Avoids e L (g a)) : Avoids e L (q >>= g) := by
  intro r left hrun
  rcases Scoped.bind_some.mp hrun with ⟨a', left₁, left₂, ha, hg, _⟩ | ⟨e', ha, _⟩
  · cases hq.symm.trans ha
    exact h r left₂ hg
  · cases hq.symm.trans ha

/-- A program that ends with another error. -/
theorem bind_error {q : Scoped ι V E α} {g : α → Scoped ι V E β} {e' : E} {left : Bool}
    (hq : q L = some (.error e', left)) (h : e' ≠ e) : Avoids e L (q >>= g) := by
  intro r left hrun
  rcases Scoped.bind_some.mp hrun with ⟨a, left₁, left₂, ha, _⟩ | ⟨e'', ha, rfl⟩
  · cases hq.symm.trans ha
  · cases hq.symm.trans ha
    exact fun heq => h (Except.error.inj heq)

theorem enclosing {i : ι} {g : List V → Scoped ι V E α} (h : Avoids e L (g (L i))) :
    Avoids e L (enclosing i >>= g) := bind_ok rfl h

theorem bind {q : Scoped ι V E α} {g : α → Scoped ι V E β} (h : Avoids e L q)
    (hg : ∀ a, Avoids e L (g a)) : Avoids e L (q >>= g) := by
  intro r left hrun
  rcases Scoped.bind_some.mp hrun with ⟨a, left₁, left₂, _, ha, _⟩ | ⟨e', he, rfl⟩
  · exact hg a r left₂ ha
  · exact fun heq => h _ _ he (congrArg Except.error (Except.error.inj heq))

theorem attempt (q : Scoped ι V E α) : Avoids e L (attempt q) := by
  intro r left hrun
  obtain ⟨r', _, rfl⟩ := Scoped.attempt_some.mp hrun
  exact nofun

theorem within {i : ι} {v : V} {q : Scoped ι V E α} (h : Avoids e (L.push i v) q) :
    Avoids e L (within i v q) := by
  intro r left hrun
  rcases Scoped.within_some.mp hrun with ⟨a, _, rfl⟩ | ⟨e', left₁, he, rfl, _⟩
  · exact nofun
  · exact h _ _ he

end Avoids

end Enclosing
