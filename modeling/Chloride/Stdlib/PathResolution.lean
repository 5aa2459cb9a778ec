import Chloride.Stdlib.Path

/-!
# Resolving paths

What `resolve` of `stdlib/path/init.ar` does to a path. The segments of a path are moves in the tree of
directories: an empty one and `"."` stay, `".."` goes up and a name is entered. The stack of `resolve` is
what the moves come to, only that a `".."` on it is popped by the next one: of the levels that a relative
path climbs above its start, two together are lost. So the result is always a normal form and is not
resolved any further, and `resolves_iff` says that it is the same place as the path exactly for a path that is
absolute or climbs at most one level.
-/

namespace Chloride

namespace Path

open Splitting Fields Walks
open Internal (isAbs isAbs_iff isAbs_eq eq_cons_of_isAbs)

/-! ## The meaning of a path -/

/-- What a segment means. -/
def move (seg : Str) : Move Str :=
  if seg = [] ∨ seg = dot then .stay else if seg = dotDot then .up else .enter seg

/-- The moves of a path. -/
def moves (p : Str) : List (Move Str) := (allPieces [slash] p).map move

/-- The location that a path denotes from a directory: an absolute one starts at the root. -/
def location (start : List Str) (p : Str) : List Str := walk (if isAbs p then [] else start) (moves p)

/-- The segments of a path behind its root. -/
def segments (p : Str) : List Str :=
  if p = [slash] then [] else allPieces [slash] (if isAbs p then p.tail else p)

/-- `"."`, or a path without empty segments and without `"."`, and with `".."` only as a leading run, and
only if it is relative. -/
def Normal (p : Str) : Prop :=
  p = dot ∨ [] ∉ segments p ∧ dot ∉ segments p ∧ ∃ (k : ℕ) (names : List Str),
    segments p = List.replicate k dotDot ++ names ∧ dotDot ∉ names ∧ (isAbs p → k = 0)

/-- A segment that is a name. -/
def IsName (seg : Str) : Prop := IsField slash seg ∧ seg ≠ dot ∧ seg ≠ dotDot

theorem move_name {seg : Str} (h : IsName seg) : move seg = .enter seg := by
  have hstay : ¬(seg = [] ∨ seg = dot) := fun hor => hor.elim h.1.1 h.2.1
  rw [move, if_neg hstay, if_neg h.2.2]

theorem move_dotDot : move dotDot = .up := by decide

theorem move_dot : move dot = .stay := by decide

theorem isName_of_move {seg name : Str} (hseg : IsField slash seg) (h : move seg = .enter name) : IsName name := by
  rw [move] at h
  split at h
  · cases h
  · rename_i hstay
    split at h
    · cases h
    · rename_i hup
      cases h
      exact ⟨hseg, fun hdot => hstay (Or.inr hdot), hup⟩

/-- Empty segments do not count. -/
theorem foldl_filter {β : Type*} (f : β → Str → β) (hf : ∀ b, f b [] = b) (L : List Str) (b : β) :
    L.foldl f b = (L.filter (· ≠ [])).foldl f b := by
  induction L generalizing b with
  | nil => rfl
  | cons seg L ih =>
    by_cases h : seg = []
    · rw [List.foldl_cons, h, hf, List.filter_cons_of_neg (by simp), ih]
    · rw [List.foldl_cons, List.filter_cons_of_pos (by simpa using h), List.foldl_cons, ih]

theorem reduce_moves (p : Str) : reduce (moves p) = reduce ((fields slash p).map move) := by
  rw [reduce, reduce, moves, List.foldl_map, List.foldl_map, ← filter_allPieces]
  exact foldl_filter _ (fun r => rfl) _ _

/-! ## The stack -/

/-- The stack of `resolve` for what moves come to: of the levels to climb, two together are lost. -/
def piled (abs : Bool) (r : ℕ × List Str) : List Str :=
  (if abs then [] else List.replicate (r.1 % 2) dotDot) ++ r.2

theorem resolveStep_piled (abs : Bool) (r : ℕ × List Str) (seg : Str) :
    resolveStep abs (piled abs r) seg = piled abs (reduceStep r (move seg)) := by
  obtain ⟨k, names⟩ := r
  rw [resolveStep, move]
  split
  · rfl
  · split
    · rw [reduceStep]
      by_cases hnames : names = []
      · rw [if_pos hnames, hnames]
        cases abs with
        | true => rfl
        | false =>
          -- one `".."` on the stack is popped, and without one there is one then
          rcases Nat.mod_two_eq_zero_or_one k with hk | hk
          · have hk' : (k + 1) % 2 = 1 := by omega
            simp only [piled, hk, hk']
            rfl
          · have hk' : (k + 1) % 2 = 0 := by omega
            simp only [piled, hk, hk']
            rfl
      · have hpos := List.length_pos_of_ne_nil hnames
        have hstack : 0 < (piled abs (k, names)).length := by
          rw [piled, List.length_append]
          exact Nat.add_pos_right _ hpos
        rw [if_neg hnames, if_pos hstack, piled, List.dropLast_append_of_ne_nil hnames, piled]
    · rw [reduceStep, piled, List.append_assoc, piled]

theorem piled_start (abs : Bool) : piled abs (0, []) = [] := by cases abs <;> rfl

theorem foldl_resolveStep (abs : Bool) (L : List Str) (r : ℕ × List Str) :
    L.foldl (resolveStep abs) (piled abs r) = piled abs ((L.map move).foldl reduceStep r) := by
  induction L generalizing r with
  | nil => rfl
  | cons seg L ih => rw [List.foldl_cons, resolveStep_piled, ih, List.map_cons, List.foldl_cons]

/-- A stack as a path. -/
def shown (abs : Bool) (stack : List Str) : Str :=
  if abs then slash :: [slash].intercalate stack
  else if [slash].intercalate stack = [] then dot
  else [slash].intercalate stack

/-- What is left of a path is what its moves come to. -/
theorem resolve_eq (p : Str) : resolve [p] = shown (isAbs p) (piled (isAbs p) (reduce ((fields slash p).map move))) := by
  have hrest : fields slash (if isAbs p then (normalise p).tail else normalise p) = fields slash p := by
    split
    · rename_i habs
      have hcons := eq_cons_of_isAbs ((isAbs_normalise p).trans habs)
      rw [← fields_normalised p, hcons, fields_sep, List.tail_cons]
    · exact fields_normalised p
  have hstack : (allPieces [slash] (if isAbs p then (normalise p).tail else normalise p)).foldl
      (resolveStep (isAbs p)) [] = piled (isAbs p) (reduce ((fields slash p).map move)) := by
    have hskip : ∀ stack, resolveStep (isAbs p) stack [] = stack := fun stack => if_pos (Or.inl rfl)
    rw [foldl_filter _ hskip, filter_allPieces, hrest, ← piled_start (isAbs p), foldl_resolveStep, reduce]
  rw [resolve, join_singleton, isAbs_normalise, hstack, shown]

/-! ## What is resolved -/

/-- The levels to climb and the names to enter that are left on the stack. -/
def settle (abs : Bool) (r : ℕ × List Str) : ℕ × List Str := (if abs then 0 else r.1 % 2, r.2)

theorem piled_eq (abs : Bool) (r : ℕ × List Str) :
    piled abs r = List.replicate (settle abs r).1 dotDot ++ (settle abs r).2 := by
  cases abs <;> rfl

theorem piled_settle (abs : Bool) (r : ℕ × List Str) : piled abs (settle abs r) = piled abs r := by
  cases abs with
  | true => rfl
  | false => exact congrArg (fun k => List.replicate k dotDot ++ r.2) (Nat.mod_mod _ _)

theorem isField_dotDot : IsField slash dotDot := ⟨by decide, by decide⟩

theorem isField_dot : IsField slash dot := ⟨by decide, by decide⟩

/-- What moves come to, as names. -/
theorem isName_of_mem {p : Str} : ∀ name ∈ (reduce ((fields slash p).map move)).2, IsName name := by
  apply forall_foldl
  · intro name hname
    obtain ⟨seg, hseg, hmove⟩ := List.mem_map.mp hname
    exact isName_of_move (isField_of_mem seg hseg) hmove
  · exact fun name h => absurd h List.not_mem_nil

section

variable {abs : Bool} {r : ℕ × List Str} (hnames : ∀ name ∈ r.2, IsName name)

include hnames

theorem isField_piled : ∀ f ∈ piled abs r, IsField slash f := by
  intro f hf
  rw [piled_eq] at hf
  rcases List.mem_append.mp hf with hf | hf
  · exact List.eq_of_mem_replicate hf ▸ isField_dotDot
  · exact (hnames f hf).1

theorem reduce_piled : reduce ((piled abs r).map move) = settle abs r := by
  have henter : r.2.map move = r.2.map .enter := List.map_congr_left fun name h => move_name (hnames name h)
  rw [piled_eq, List.map_append, List.map_replicate, move_dotDot]
  exact henter ▸ reduce_normal _ _

/-- A stack that is shown as `"."` is empty. -/
theorem intercalate_eq_nil_iff : [slash].intercalate (piled abs r) = [] ↔ piled abs r = [] := by
  constructor
  · intro h
    by_contra hne
    obtain ⟨x, a, -, hx⟩ := exists_intercalate_eq_concat hne (isField_piled hnames)
    exact List.concat_ne_nil _ _ (hx.symm.trans h)
  · rintro h
    rw [h]
    rfl

theorem isAbs_shown : isAbs (shown abs (piled abs r)) = abs := by
  rw [shown, isAbs_eq]
  cases abs with
  | true => rfl
  | false =>
    have hhead : ([slash].intercalate (piled false r)).head? ≠ some slash :=
      head?_intercalate (isField_piled hnames)
    rw [if_neg Bool.false_ne_true]
    split
    · rfl
    · exact decide_eq_false hhead

/-- The fields of what is shown are the stack, or `"."` for the empty stack of a relative path. -/
theorem fields_shown : fields slash (shown abs (piled abs r)) = piled abs r ∨
    shown abs (piled abs r) = dot ∧ piled abs r = [] ∧ abs = false := by
  rw [shown]
  have hfields := fields_intercalate (@isField_piled abs r hnames)
  cases abs with
  | true => exact Or.inl ((fields_sep _).trans hfields)
  | false =>
    rw [if_neg Bool.false_ne_true]
    split
    · rename_i hnil
      exact Or.inr ⟨rfl, (intercalate_eq_nil_iff hnames).mp hnil, rfl⟩
    · exact Or.inl hfields

theorem reduce_shown : reduce ((fields slash (shown abs (piled abs r))).map move) = settle abs r := by
  rcases @fields_shown abs r hnames with h | ⟨h, hnil, habs⟩
  · rw [h, reduce_piled hnames]
  · rw [h, isField_dot.fields_eq, ← reduce_piled hnames, hnil, List.map_singleton, move_dot]
    rfl

theorem dot_not_mem_piled : dot ∉ piled abs r := by
  intro h
  rw [piled_eq] at h
  rcases List.mem_append.mp h with h | h
  · exact absurd (List.eq_of_mem_replicate h) (by decide)
  · exact (hnames _ h).2.1 rfl

/-- What is shown as `"."` is the empty stack of a relative path. -/
theorem shown_eq_dot_iff : shown abs (piled abs r) = dot ↔ abs = false ∧ piled abs r = [] := by
  constructor
  · intro hdot
    rcases @fields_shown abs r hnames with h | ⟨-, hnil, habs⟩
    · rw [hdot, isField_dot.fields_eq] at h
      exact absurd (h ▸ List.mem_cons_self) (dot_not_mem_piled hnames)
    · exact ⟨habs, hnil⟩
  · rintro ⟨rfl, hnil⟩
    rw [hnil]
    rfl

theorem segments_shown (hdot : shown abs (piled abs r) ≠ dot) : segments (shown abs (piled abs r)) = piled abs r := by
  have hfield := @isField_piled abs r hnames
  rw [segments, isAbs_shown hnames]
  by_cases hnil : piled abs r = []
  · cases abs with
    | true => rw [hnil]; rfl
    | false => exact absurd ((shown_eq_dot_iff hnames).mpr ⟨rfl, hnil⟩) hdot
  · have hne : [slash].intercalate (piled abs r) ≠ [] := mt (intercalate_eq_nil_iff hnames).mp hnil
    rw [shown]
    cases abs with
    | true =>
      have hroot : slash :: [slash].intercalate (piled true r) ≠ [slash] := fun h => hne (List.cons.inj h).2
      rw [if_pos rfl, if_neg hroot, if_pos rfl, List.tail_cons, allPieces_intercalate hnil hfield]
    | false =>
      have hroot : [slash].intercalate (piled false r) ≠ [slash] := fun h =>
        head?_intercalate hfield (by rw [h]; rfl)
      rw [if_neg Bool.false_ne_true, if_neg hne, if_neg hroot, if_neg Bool.false_ne_true,
        allPieces_intercalate hnil hfield]

theorem normal_shown : Normal (shown abs (piled abs r)) := by
  by_cases hdot : shown abs (piled abs r) = dot
  · exact Or.inl hdot
  · have hfield := @isField_piled abs r hnames
    right
    rw [segments_shown hnames hdot, isAbs_shown hnames]
    exact ⟨fun h => (hfield _ h).1 rfl, dot_not_mem_piled hnames, (settle abs r).1, r.2, piled_eq abs r,
      fun h => (hnames _ h).2.2 rfl, fun habs => if_pos habs⟩

end

/-- What is resolved is a normal form. -/
theorem normal_resolve (p : Str) : Normal (resolve [p]) := by
  rw [resolve_eq]
  exact normal_shown isName_of_mem

theorem isAbs_resolve (p : Str) : isAbs (resolve [p]) = isAbs p := by
  rw [resolve_eq, isAbs_shown isName_of_mem]

theorem reduce_resolve (p : Str) : reduce ((fields slash (resolve [p])).map move) =
    settle (isAbs p) (reduce ((fields slash p).map move)) := by
  rw [resolve_eq, reduce_shown isName_of_mem]

/-- What is resolved is not resolved any further. -/
theorem resolve_resolve (p : Str) : resolve [resolve [p]] = resolve [p] := by
  rw [resolve_eq (resolve [p]), isAbs_resolve, reduce_resolve, piled_settle, ← resolve_eq]

theorem location_eq (start : List Str) (p : Str) :
    location start p = place (if isAbs p then [] else start) (reduce ((fields slash p).map move)) := by
  rw [location, walk_eq, reduce_moves]

theorem location_congr {p q : Str} (habs : isAbs p = isAbs q) (hfields : fields slash p = fields slash q)
    (start : List Str) : location start p = location start q := by
  rw [location_eq, location_eq, habs, hfields]

/-- Fields one after the other lead from where the first ones do. -/
theorem place_append (start : List Str) (L M : List Str) :
    place start (reduce ((L ++ M).map move)) = place (place start (reduce (L.map move))) (reduce (M.map move)) := by
  rw [← walk_eq, ← walk_eq, ← walk_eq, List.map_append, walk, List.foldl_append]
  rfl

theorem climb_moves (p : Str) : climb (moves p) = (reduce ((fields slash p).map move)).1 := by
  rw [← reduce_moves, fst_reduce]

/-- The place is kept exactly where no two levels are lost. -/
theorem forall_location_iff (p : Str) : (∀ start, location start (resolve [p]) = location start p) ↔
    isAbs p ∨ climb (moves p) ≤ 1 := by
  rw [climb_moves]
  simp only [location_eq, isAbs_resolve, reduce_resolve]
  generalize reduce ((fields slash p).map move) = r
  cases isAbs p with
  | true =>
    have hroot : ∀ k j, place ([] : List Str) (k, r.2) = place [] (j, r.2) := fun k j => by
      rw [place, place, List.take_nil, List.take_nil]
    exact iff_of_true (fun start => hroot _ _) (Or.inl rfl)
  | false =>
    constructor
    · intro h
      have hk : r.1 % 2 = r.1 := eq_of_forall_place h
      exact Or.inr (by omega)
    · rintro (h | h) start
      · exact absurd h Bool.false_ne_true
      · have hk : r.1 % 2 = r.1 := Nat.mod_eq_of_lt (by omega)
        change place start (r.1 % 2, r.2) = place start r
        rw [hk]

/-- What resolving a path should do. -/
structure Resolves (p : Str) : Prop where
  normal : Normal (resolve [p])
  location : ∀ start, location start (resolve [p]) = location start p
  again : resolve [resolve [p]] = resolve [p]

/-- A path is resolved as it should exactly if it is absolute or climbs at most one level above its start. -/
theorem resolves_iff (p : Str) : Resolves p ↔ isAbs p ∨ climb (moves p) ≤ 1 := by
  rw [← forall_location_iff]
  exact ⟨fun h => h.location, fun h => ⟨normal_resolve p, h, resolve_resolve p⟩⟩

/-- `"../.."` is resolved to `"."`. -/
theorem not_forall_resolves : ¬∀ p, Resolves p := by
  intro h
  have hplace := (h (text "../..")).location
  rw [forall_location_iff, isAbs_eq, climb_moves] at hplace
  exact absurd hplace (by decide)

end Path

end Chloride
