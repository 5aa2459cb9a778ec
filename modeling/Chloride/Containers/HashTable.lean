import Mathlib

/-!
# Tables with 64-bit hashes for keys

A table in the order of the first insertions, for the places where only what is found matters and not
how it is stored.
-/

namespace Chloride

/-- The value of a hash. -/
def find {α : Type*} (entries : List (UInt64 × α)) (hash : UInt64) : Option α :=
  (entries.find? fun e => e.1 = hash).map Prod.snd

/-- Insertion: the value of a hash that is there is replaced in its place, a new hash goes to the end. -/
def put {α : Type*} (entries : List (UInt64 × α)) (hash : UInt64) (v : α) : List (UInt64 × α) :=
  if entries.any fun e => e.1 = hash then
    entries.map fun e => if e.1 = hash then (hash, v) else e
  else entries ++ [(hash, v)]

theorem find_cons {α : Type*} (e : UInt64 × α) (entries : List (UInt64 × α)) (hash : UInt64) :
    find (e :: entries) hash = if e.1 = hash then some e.2 else find entries hash := by
  unfold find
  rw [List.find?_cons]
  split <;> simp_all

theorem find_append_singleton {α : Type*} (entries : List (UInt64 × α)) (hash hash' : UInt64)
    (v : α) (h : ∀ e ∈ entries, e.1 ≠ hash) :
    find (entries ++ [(hash, v)]) hash' = if hash = hash' then some v else find entries hash' := by
  induction entries with
  | nil => exact find_cons _ _ _
  | cons e entries ih =>
    rw [List.cons_append, find_cons, find_cons, ih fun e' he' => h e' (List.mem_cons_of_mem _ he')]
    have he := h e List.mem_cons_self
    by_cases heq : e.1 = hash'
    · rw [if_pos heq, if_pos heq, if_neg (heq ▸ he.symm)]
    · rw [if_neg heq, if_neg heq]

/-- What is found after an insertion. -/
theorem find_put {α : Type*} (entries : List (UInt64 × α)) (hash hash' : UInt64) (v : α) :
    find (put entries hash v) hash' = if hash = hash' then some v else find entries hash' := by
  unfold put
  split
  case isTrue hany =>
    induction entries with
    | nil => simp at hany
    | cons e entries ih =>
      rw [List.map_cons, find_cons, find_cons]
      by_cases he : e.1 = hash
      · rw [if_pos he]
        by_cases heq : hash = hash'
        · rw [if_pos heq, if_pos heq]
        · rw [if_neg heq, if_neg heq, if_neg (he ▸ heq)]
          -- The other entries with this hash, if any, do not have the hash that is looked for.
          clear ih hany
          induction entries with
          | nil => rfl
          | cons e' entries ih =>
            rw [List.map_cons, find_cons, find_cons, ih]
            by_cases he' : e'.1 = hash
            · rw [if_pos he', if_neg heq, if_neg (he' ▸ heq)]
            · rw [if_neg he']
      · -- The first entry is another one and stays.
        rw [if_neg he]
        have hany' : (entries.any fun e => e.1 = hash) = true := by
          rw [List.any_cons, Bool.or_eq_true] at hany
          exact hany.resolve_left (by simpa using he)
        rw [ih hany']
        by_cases heq : e.1 = hash'
        · rw [if_pos heq, if_pos heq, if_neg fun h => he (heq.trans h.symm)]
        · rw [if_neg heq, if_neg heq]
  case isFalse hany =>
    refine find_append_singleton entries hash hash' v fun e he heq => hany ?_
    exact List.any_eq_true.mpr ⟨e, he, decide_eq_true heq⟩

theorem find_append {α : Type*} (entries entries' : List (UInt64 × α)) (hash : UInt64) :
    find (entries ++ entries') hash = (find entries hash).or (find entries' hash) := by
  unfold find
  rw [List.find?_append, Option.map_or]

/-- What is found after several insertions is the last one with the hash. -/
theorem find_foldl_put {α : Type*} (entries news : List (UInt64 × α)) (hash : UInt64) :
    find (news.foldl (fun entries e => put entries e.1 e.2) entries) hash =
      (find news.reverse hash).or (find entries hash) := by
  induction news generalizing entries with
  | nil => rfl
  | cons e news ih =>
    have hlast : find [e] hash = if e.1 = hash then some e.2 else none := find_cons e [] hash
    rw [List.foldl_cons, ih, find_put, List.reverse_cons, find_append, hlast, Option.or_assoc]
    by_cases he : e.1 = hash
    · rw [if_pos he, if_pos he]
      rfl
    · rw [if_neg he, if_neg he]
      rfl

/-- A new hash goes to the end. -/
theorem put_of_not_mem {α : Type*} {entries : List (UInt64 × α)} {hash : UInt64} (v : α)
    (h : hash ∉ entries.map Prod.fst) : put entries hash v = entries ++ [(hash, v)] := by
  unfold put
  rw [if_neg]
  intro hany
  obtain ⟨e, he, heq⟩ := List.any_eq_true.mp hany
  exact h (of_decide_eq_true heq ▸ List.mem_map_of_mem he)

/-- The hashes after an insertion. -/
theorem keys_put {α : Type*} (entries : List (UInt64 × α)) (hash : UInt64) (v : α) :
    (put entries hash v).map Prod.fst =
      if hash ∈ entries.map Prod.fst then entries.map Prod.fst
      else entries.map Prod.fst ++ [hash] := by
  split
  case isTrue hmem =>
    obtain ⟨e, he, heq⟩ := List.mem_map.mp hmem
    have hany : (entries.any fun e => e.1 = hash) = true :=
      List.any_eq_true.mpr ⟨e, he, decide_eq_true heq⟩
    unfold put
    rw [if_pos hany, List.map_map]
    apply List.map_congr_left
    intro e' _
    show (if e'.1 = hash then (hash, v) else e').1 = e'.1
    split
    case isTrue h => exact h.symm
    case isFalse => rfl
  case isFalse hnot => rw [put_of_not_mem v hnot, List.map_append, List.map_singleton]

/-- An insertion keeps the hashes distinct. -/
theorem nodup_keys_put {α : Type*} {entries : List (UInt64 × α)} (hash : UInt64) (v : α)
    (h : (entries.map Prod.fst).Nodup) : ((put entries hash v).map Prod.fst).Nodup := by
  rw [keys_put]
  split
  case isTrue => exact h
  case isFalse hnot =>
    rw [← List.concat_eq_append]
    exact h.concat hnot

/-- The hashes after an insertion are the ones before and the new one. -/
theorem mem_keys_put {α : Type*} {entries : List (UInt64 × α)} {hash hash' : UInt64} {v : α} :
    hash' ∈ (put entries hash v).map Prod.fst ↔ hash' = hash ∨ hash' ∈ entries.map Prod.fst := by
  rw [keys_put]
  split
  case isTrue hmem => exact ⟨Or.inr, fun h => h.elim (fun h => h ▸ hmem) id⟩
  case isFalse => rw [List.mem_append, List.mem_singleton, or_comm]

end Chloride
