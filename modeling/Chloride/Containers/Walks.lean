import Mathlib

/-!
# Walks in a tree of names

A location in a tree is the list of the names on the way to it from the root. A list of moves leads from each
location to another one, and what it does is a number of levels to climb and then names to enter: the walk
from any location is known from these two.
-/

namespace Walks

/-- A move from one location to another. -/
inductive Move (α : Type*) where
  | stay
  | up
  | enter (name : α)
  deriving DecidableEq

variable {α : Type*}

/-- Where a move leads. Above the root is the root. -/
def step (location : List α) : Move α → List α
  | .stay => location
  | .up => location.dropLast
  | .enter name => location ++ [name]

/-- Where moves lead. -/
def walk (location : List α) (moves : List (Move α)) : List α := moves.foldl step location

/-- How far above the start moves lead: the levels that are left by an `up` which has nothing to undo. -/
def climb : List (Move α) → ℕ
  | [] => 0
  | .stay :: moves => climb moves
  | .up :: moves => climb moves + 1
  | .enter _ :: moves => climb moves - 1

/-- A number of levels to climb and names to enter then, with one move more behind. -/
def reduceStep (r : ℕ × List α) : Move α → ℕ × List α
  | .stay => r
  | .up => if r.2 = [] then (r.1 + 1, []) else (r.1, r.2.dropLast)
  | .enter name => (r.1, r.2 ++ [name])

/-- The levels to climb and the names to enter that moves come to. -/
def reduce (moves : List (Move α)) : ℕ × List α := moves.foldl reduceStep (0, [])

/-- Where levels to climb and names to enter lead. -/
def place (location : List α) (r : ℕ × List α) : List α := location.take (location.length - r.1) ++ r.2

theorem place_reduceStep (location : List α) (r : ℕ × List α) (m : Move α) :
    place location (reduceStep r m) = step (place location r) m := by
  obtain ⟨k, names⟩ := r
  cases m with
  | stay => rfl
  | up =>
    by_cases h : names = []
    · have hlength : (location.take (location.length - k)).length - 1 = location.length - (k + 1) := by
        rw [List.length_take]
        omega
      have htake : location.length - (k + 1) ≤ location.length - k := by omega
      rw [reduceStep, if_pos h, place, place, step, h, List.append_nil, List.append_nil,
        List.dropLast_eq_take, hlength, List.take_take, min_eq_left htake]
    · rw [reduceStep, if_neg h, place, place, step, List.dropLast_append_of_ne_nil h]
  | enter name => exact (List.append_assoc _ _ _).symm

theorem place_foldl (location : List α) (moves : List (Move α)) (r : ℕ × List α) :
    place location (moves.foldl reduceStep r) = walk (place location r) moves := by
  induction moves generalizing r with
  | nil => rfl
  | cons m moves ih => rw [List.foldl_cons, ih, place_reduceStep, walk, walk, List.foldl_cons]

/-- A walk is known from what its moves come to. -/
theorem walk_eq (location : List α) (moves : List (Move α)) :
    walk location moves = place location (reduce moves) := by
  rw [reduce, place_foldl, place, Nat.sub_zero, List.take_length, List.append_nil]

theorem fst_foldl (moves : List (Move α)) (r : ℕ × List α) :
    (moves.foldl reduceStep r).1 = r.1 + (climb moves - r.2.length) := by
  induction moves generalizing r with
  | nil => rw [List.foldl_nil, climb, Nat.zero_sub, Nat.add_zero]
  | cons m moves ih =>
    rw [List.foldl_cons, ih]
    cases m with
    | stay => rfl
    | up =>
      rw [reduceStep, climb]
      split
      · rename_i h
        rw [h, List.length_nil]
        omega
      · rename_i h
        have hpos := List.length_pos_of_ne_nil h
        rw [List.length_dropLast]
        omega
    | enter name =>
      rw [reduceStep, climb, List.length_append, List.length_singleton]
      omega

theorem fst_reduce (moves : List (Move α)) : (reduce moves).1 = climb moves := by
  rw [reduce, fst_foldl, List.length_nil, Nat.sub_zero, Nat.zero_add]

/-- What is true of every name that is entered is true of the names that are left. -/
theorem forall_foldl {P : α → Prop} (moves : List (Move α)) (hmoves : ∀ name, .enter name ∈ moves → P name)
    (r : ℕ × List α) (hr : ∀ name ∈ r.2, P name) : ∀ name ∈ (moves.foldl reduceStep r).2, P name := by
  induction moves generalizing r with
  | nil => exact hr
  | cons m moves ih =>
    have hrest : ∀ name, .enter name ∈ moves → P name := fun name h => hmoves name (List.mem_cons_of_mem _ h)
    rw [List.foldl_cons]
    apply ih hrest
    cases m with
    | stay => exact hr
    | up =>
      rw [reduceStep]
      split
      · exact fun name h => absurd h List.not_mem_nil
      · exact fun name h => hr name (List.mem_of_mem_dropLast h)
    | enter first =>
      intro name h
      rcases List.mem_append.mp h with h | h
      · exact hr name h
      · exact hmoves name (List.mem_singleton.mp h ▸ List.mem_cons_self)

theorem foldl_enter (names : List α) (r : ℕ × List α) :
    (names.map Move.enter).foldl reduceStep r = (r.1, r.2 ++ names) := by
  induction names generalizing r with
  | nil => rw [List.map_nil, List.foldl_nil, List.append_nil]
  | cons name names ih =>
    rw [List.map_cons, List.foldl_cons, ih, reduceStep, List.append_assoc, List.singleton_append]

theorem foldl_up (k j : ℕ) : (List.replicate k (Move.up : Move α)).foldl reduceStep (j, []) = (j + k, []) := by
  induction k generalizing j with
  | zero => rfl
  | succ k ih =>
    rw [List.replicate_succ, List.foldl_cons, reduceStep, if_pos rfl, ih]
    congr 1
    omega

/-- Moves that climb and then enter names come to just that. -/
theorem reduce_normal (k : ℕ) (names : List α) :
    reduce (List.replicate k .up ++ names.map .enter) = (k, names) := by
  rw [reduce, List.foldl_append, foldl_up, foldl_enter, Nat.zero_add, List.nil_append]

/-- Two ways to climb and then to enter the same names lead to the same place from everywhere only if they
climb equally far. -/
theorem eq_of_forall_place [Nonempty α] {j k : ℕ} {names : List α}
    (h : ∀ location, place location (j, names) = place location (k, names)) : j = k := by
  obtain ⟨name⟩ := ‹Nonempty α›
  have hplace := congrArg List.length (h (List.replicate (j + k) name))
  simp only [place, List.length_append, List.length_take, List.length_replicate] at hplace
  omega

/-- A location is strictly below another one: its names go on behind those of the other. -/
def Below (location place : List α) : Prop := ∃ name rest, place = location ++ name :: rest

/-- Levels to climb and names to enter lead below the start exactly if what is climbed out of is entered again, and
one name more. -/
theorem below_place_iff (location : List α) (r : ℕ × List α) : Below location (place location r) ↔
    ∃ name rest, r.2 = location.drop (location.length - r.1) ++ name :: rest := by
  obtain ⟨k, names⟩ := r
  have hsplit := List.take_append_drop (location.length - k) location
  constructor
  · rintro ⟨name, rest, h⟩
    refine ⟨name, rest, ?_⟩
    have hall : location.take (location.length - k) ++ names =
        location.take (location.length - k) ++ (location.drop (location.length - k) ++ name :: rest) := by
      rw [← List.append_assoc, hsplit]
      exact h
    exact List.append_cancel_left hall
  · rintro ⟨name, rest, h⟩
    refine ⟨name, rest, ?_⟩
    calc place location (k, names)
        = location.take (location.length - k) ++ (location.drop (location.length - k) ++ name :: rest) :=
          congrArg _ h
      _ = location ++ name :: rest := by rw [← List.append_assoc, hsplit]

end Walks
