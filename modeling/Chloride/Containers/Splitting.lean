import Mathlib

/-!
# Lists split at a delimiter

A list cut at the occurrences of another one that are found from the left to the right, each behind the one
before, at most as often as a limit says. The pieces with the delimiter between them give the list back, and
with something else between them they give the list in which the occurrences are replaced.
-/

namespace Splitting

variable {α : Type*} [DecidableEq α]

/-- The pieces of a list, cut at most `m` times at the delimiter `d`. -/
def pieces (d : List α) : ℕ → List α → List (List α)
  | _, [] => [[]]
  | m, a :: t =>
    if 0 < m ∧ d ≠ [] ∧ d <+: a :: t then [] :: pieces d (m - 1) ((a :: t).drop d.length)
    else (pieces d m t).modifyHead (a :: ·)
termination_by _ s => s.length
decreasing_by
  · rename_i h
    have hpos := List.length_pos_of_ne_nil h.2.1
    rw [List.length_drop]
    simp only [List.length_cons]
    omega
  · simp only [List.length_cons]
    omega

variable {d : List α} {m : ℕ} {s : List α}

theorem pieces_nil (d : List α) (m : ℕ) : pieces d m [] = [[]] := by rw [pieces]

/-- At an occurrence the list is cut. -/
theorem pieces_cut (hm : 0 < m) (hd : d ≠ []) (h : d <+: s) :
    pieces d m s = [] :: pieces d (m - 1) (s.drop d.length) := by
  cases s with
  | nil => exact absurd (List.prefix_nil.mp h) hd
  | cons a t => rw [pieces, if_pos ⟨hm, hd, h⟩]

/-- Elsewhere an item goes to the first piece of the rest. -/
theorem pieces_keep {a : α} {t : List α} (h : ¬(0 < m ∧ d ≠ [] ∧ d <+: a :: t)) :
    pieces d m (a :: t) = (pieces d m t).modifyHead (a :: ·) := by
  rw [pieces, if_neg h]

theorem pieces_ne_nil (d : List α) (m : ℕ) (s : List α) : pieces d m s ≠ [] := by
  fun_induction pieces d m s with
  | case1 => exact List.cons_ne_nil _ _
  | case2 => exact List.cons_ne_nil _ _
  | case3 m a t h ih => exact mt List.modifyHead_eq_nil_iff.mp ih

section

omit [DecidableEq α]

theorem intercalate_cons {n p : List α} {L : List (List α)} (h : L ≠ []) :
    n.intercalate (p :: L) = p ++ n ++ n.intercalate L := by
  obtain ⟨q, L, rfl⟩ := List.exists_cons_of_ne_nil h
  exact List.intercalate_cons_cons

theorem intercalate_concat {n p : List α} {L : List (List α)} (h : L ≠ []) :
    n.intercalate (L ++ [p]) = n.intercalate L ++ n ++ p := by
  induction L with
  | nil => exact absurd rfl h
  | cons q L ih =>
    by_cases hL : L = []
    · rw [hL, List.singleton_append, intercalate_cons (List.cons_ne_nil _ _), List.intercalate_singleton,
        List.intercalate_singleton]
    · rw [List.cons_append, intercalate_cons (List.concat_ne_nil _ _), ih hL, intercalate_cons hL]
      simp only [List.append_assoc]

theorem nil_intercalate (L : List (List α)) : List.intercalate [] L = L.flatten := by
  induction L with
  | nil => rfl
  | cons p L ih =>
    by_cases hL : L = []
    · rw [hL, List.intercalate_singleton, List.flatten_singleton]
    · rw [intercalate_cons hL, ih, List.append_nil, List.flatten_cons]

theorem intercalate_modifyHead {n : List α} {a : α} {L : List (List α)} (h : L ≠ []) :
    n.intercalate (L.modifyHead (a :: ·)) = a :: n.intercalate L := by
  obtain ⟨p, L, rfl⟩ := List.exists_cons_of_ne_nil h
  cases L with
  | nil => simp
  | cons q L => simp

end

/-- The pieces with the delimiter between them give the list back. -/
theorem intercalate_pieces (d : List α) (m : ℕ) (s : List α) : d.intercalate (pieces d m s) = s := by
  fun_induction pieces d m s with
  | case1 => exact List.intercalate_singleton
  | case2 m a t h ih =>
    rw [intercalate_cons (pieces_ne_nil _ _ _), ih, List.nil_append]
    exact (List.prefix_iff_eq_append.mp h.2.2)
  | case3 m a t h ih => rw [intercalate_modifyHead (pieces_ne_nil _ _ _), ih]

theorem length_pieces_le (d : List α) (m : ℕ) (s : List α) : (pieces d m s).length ≤ m + 1 := by
  fun_induction pieces d m s with
  | case1 => exact Nat.succ_le_succ (Nat.zero_le _)
  | case2 m a t h ih =>
    rw [List.length_cons]
    omega
  | case3 m a t h ih => rwa [List.length_modifyHead]

/-- The first piece is at the start of the list. -/
theorem prefix_of_pieces {p : List α} {L : List (List α)} (h : pieces d m s = p :: L) : p <+: s := by
  have hjoin := intercalate_pieces d m s
  rw [h] at hjoin
  cases L with
  | nil => exact ⟨[], by rw [List.append_nil, ← hjoin, List.intercalate_singleton]⟩
  | cons q L =>
    rw [List.intercalate_cons_cons, List.append_assoc] at hjoin
    exact ⟨_, hjoin⟩

/-- Before the limit is reached, no piece contains the delimiter. -/
theorem not_infix_of_pieces (hd : d ≠ []) {k : ℕ} {p : List α} (hp : (pieces d m s)[k]? = some p)
    (hk : k < m) : ¬d <:+: p := by
  fun_induction pieces d m s generalizing k p with
  | case1 =>
    obtain ⟨rfl, rfl⟩ : k = 0 ∧ p = [] := by
      cases k with
      | zero => exact ⟨rfl, (Option.some.inj hp).symm⟩
      | succ k => cases hp
    exact mt List.infix_nil.mp hd
  | case2 m a t h ih =>
    cases k with
    | zero =>
      cases hp
      exact mt List.infix_nil.mp hd
    | succ k => exact ih hp (by omega)
  | case3 m a t h ih =>
    obtain ⟨q, L, hq⟩ := List.exists_cons_of_ne_nil (pieces_ne_nil d m t)
    rw [hq] at ih hp
    cases k with
    | zero =>
      cases hp
      have hinitial := prefix_of_pieces hq
      rw [List.infix_cons_iff, not_or]
      exact ⟨fun hcut => h ⟨hk, hd, hcut.trans (List.cons_prefix_cons.mpr ⟨rfl, hinitial⟩)⟩, ih rfl hk⟩
    | succ k => exact ih hp hk

/-- A list that is not cut. -/
theorem pieces_eq_singleton (h : m = 0 ∨ s.length < d.length) : pieces d m s = [s] := by
  fun_induction pieces d m s with
  | case1 => rfl
  | case2 m a t hcut ih =>
    have hle := hcut.2.2.length_le
    omega
  | case3 m a t hcut ih =>
    rw [ih (h.imp_right fun h => by rw [List.length_cons] at h; omega)]
    rfl

/-- A limit that is not below the number of items does not count. -/
theorem pieces_congr {m' : ℕ} (hm : s.length ≤ m) (hm' : s.length ≤ m') : pieces d m s = pieces d m' s := by
  fun_induction pieces d m s generalizing m' with
  | case1 => rw [pieces_nil]
  | case2 m a t h ih =>
    have hpos := List.length_pos_of_ne_nil h.2.1
    have hdrop : ((a :: t).drop d.length).length = t.length + 1 - d.length := by
      rw [List.length_drop, List.length_cons]
    rw [List.length_cons] at hm hm'
    have hrest : pieces d (m - 1) ((a :: t).drop d.length) = pieces d (m' - 1) ((a :: t).drop d.length) :=
      ih (by omega) (by omega)
    rw [pieces_cut (by omega) h.2.1 h.2.2, hrest]
  | case3 m a t h ih =>
    rw [List.length_cons] at hm hm'
    have hrest : pieces d m t = pieces d m' t := ih (by omega) (by omega)
    rw [pieces_keep fun h' => h ⟨by omega, h'.2⟩, hrest]

/-- The pieces of a list that is cut without a limit. -/
def allPieces (d s : List α) : List (List α) := pieces d s.length s

theorem pieces_of_length_le (h : s.length ≤ m) : pieces d m s = allPieces d s := pieces_congr h le_rfl

theorem allPieces_cut (hd : d ≠ []) (h : d <+: s) : allPieces d s = [] :: allPieces d (s.drop d.length) := by
  have hle := h.length_le
  have hpos := List.length_pos_of_ne_nil hd
  rw [allPieces, pieces_cut (by omega) hd h, pieces_of_length_le]
  rw [List.length_drop]
  omega

theorem allPieces_keep {a : α} {t : List α} (h : ¬d <+: a :: t) :
    allPieces d (a :: t) = (allPieces d t).modifyHead (a :: ·) := by
  rw [allPieces, pieces_keep fun h' => h h'.2.2, pieces_of_length_le]
  rw [List.length_cons]
  omega

theorem allPieces_ne_nil (d s : List α) : allPieces d s ≠ [] := pieces_ne_nil _ _ _

/-- A list without an occurrence is one piece. -/
theorem allPieces_of_not_infix (h : ¬d <:+: s) : allPieces d s = [s] := by
  induction s with
  | nil => exact pieces_nil d _
  | cons a s ih =>
    have hkeep : ¬d <+: a :: s := fun hprefix => h hprefix.isInfix
    have hrest : ¬d <:+: s := fun hwithin => h (hwithin.trans (List.suffix_cons a s).isInfix)
    rw [allPieces_keep hkeep, ih hrest, List.modifyHead_cons]

/-- The first piece ends where the delimiter is, if that does not occur in it, nor over its end. -/
theorem allPieces_append_of_not_infix {p : List α} (hd : d ≠ []) (h : ¬d <:+: p ++ d.dropLast) (t : List α) :
    allPieces d (p ++ (d ++ t)) = p :: allPieces d t := by
  induction p with
  | nil => rw [List.nil_append, allPieces_cut hd (List.prefix_append _ _), List.drop_left]
  | cons a p ih =>
    have hkeep : ¬d <+: a :: (p ++ (d ++ t)) := by
      intro hprefix
      -- the delimiter would be in the piece and all but the last of its items
      have hbefore : a :: p ++ d.dropLast <+: a :: (p ++ (d ++ t)) := by
        rw [← List.cons_append, List.prefix_append_right_inj]
        exact (List.dropLast_prefix d).trans (List.prefix_append d t)
      have hlength : d.length ≤ (a :: p ++ d.dropLast).length := by
        rw [List.length_append, List.length_cons, List.length_dropLast]
        omega
      exact h (List.prefix_of_prefix_length_le hprefix hbefore hlength).isInfix
    have hrest : ¬d <:+: p ++ d.dropLast := fun hwithin => h (hwithin.trans (List.suffix_cons a _).isInfix)
    rw [List.cons_append, allPieces_keep hkeep, ih hrest, List.modifyHead_cons]

/-- What is put together with the delimiter is cut in the same pieces again. -/
theorem allPieces_intercalate_of_not_infix {L : List (List α)} (hd : d ≠ []) (hL : L ≠ [])
    (h : ∀ p ∈ L, ¬d <:+: p ++ d.dropLast) : allPieces d (d.intercalate L) = L := by
  induction L with
  | nil => exact absurd rfl hL
  | cons p L ih =>
    obtain ⟨hp, hrest⟩ := List.forall_mem_cons.mp h
    rcases eq_or_ne L [] with rfl | hne
    · rw [List.intercalate_singleton]
      exact allPieces_of_not_infix fun hwithin => hp (hwithin.trans (List.prefix_append _ _).isInfix)
    · rw [intercalate_cons hne, List.append_assoc, allPieces_append_of_not_infix hd hp, ih hne hrest]

/-- The list in which the occurrences are replaced. -/
def replaced (d n s : List α) : List α := n.intercalate (allPieces d s)

theorem replaced_cut {n : List α} (hd : d ≠ []) (h : d <+: s) :
    replaced d n s = n ++ replaced d n (s.drop d.length) := by
  rw [replaced, allPieces_cut hd h, intercalate_cons (allPieces_ne_nil _ _), List.nil_append, replaced]

theorem replaced_keep {n : List α} {a : α} {t : List α} (h : ¬d <+: a :: t) :
    replaced d n (a :: t) = a :: replaced d n t := by
  rw [replaced, allPieces_keep h, intercalate_modifyHead (allPieces_ne_nil _ _), replaced]

theorem replaced_of_length_lt {n : List α} (h : s.length < d.length) : replaced d n s = s := by
  rw [replaced, allPieces, pieces_eq_singleton (Or.inr h), List.intercalate_singleton]

omit [DecidableEq α] in
/-- The length of pieces with something between them. -/
theorem length_intercalate (n : List α) {L : List (List α)} (h : L ≠ []) :
    (n.intercalate L).length + n.length = (L.map List.length).sum + L.length * n.length := by
  induction L with
  | nil => exact absurd rfl h
  | cons p L ih =>
    by_cases hL : L = []
    · subst hL
      rw [List.intercalate_singleton, List.map_cons, List.map_nil, List.sum_cons, List.sum_nil,
        List.length_cons, List.length_nil]
      omega
    · have hrest := ih hL
      rw [intercalate_cons hL, List.length_append, List.length_append, List.map_cons, List.sum_cons,
        List.length_cons, Nat.succ_mul]
      omega

/-- What a replacement does to the length. -/
theorem length_replaced (d n s : List α) :
    (replaced d n s).length + ((allPieces d s).length - 1) * d.length =
      s.length + ((allPieces d s).length - 1) * n.length := by
  have hne := allPieces_ne_nil d s
  have hn := length_intercalate n hne
  have hd := length_intercalate d hne
  have hback : d.intercalate (allPieces d s) = s := intercalate_pieces d s.length s
  obtain ⟨c, hc⟩ : ∃ c, (allPieces d s).length = c + 1 :=
    ⟨_, (Nat.succ_pred_eq_of_pos (List.length_pos_of_ne_nil hne)).symm⟩
  rw [hback, hc, Nat.succ_mul] at hd
  rw [hc, Nat.succ_mul] at hn
  rw [hc, Nat.add_sub_cancel, replaced]
  omega

/-- Where nothing is to be replaced the list stays. -/
theorem replaced_of_not_within {n : List α} (h : ¬d <:+: s) : replaced d n s = s := by
  rw [replaced, allPieces_of_not_infix h, List.intercalate_singleton]

/-- A replacement by something shorter makes a list shorter that has something to be replaced. -/
theorem length_replaced_lt {n : List α} (h : d <:+: s) (hlt : n.length < d.length) :
    (replaced d n s).length < s.length := by
  have hne : d ≠ [] := List.ne_nil_of_length_pos (by omega)
  have hpos : 0 < s.length := lt_of_lt_of_le (List.length_pos_of_ne_nil hne) h.length_le
  have hlength := length_replaced d n s
  have htwo : 2 ≤ (allPieces d s).length := by
    by_contra hfew
    obtain ⟨p, hp⟩ : ∃ p, allPieces d s = [p] := by
      have hpieces := List.length_pos_of_ne_nil (allPieces_ne_nil d s)
      exact List.length_eq_one_iff.mp (by omega)
    have hs : d.intercalate (allPieces d s) = s := intercalate_pieces d s.length s
    rw [hp, List.intercalate_singleton] at hs
    have hget : (allPieces d s)[0]? = some s := by rw [hp, hs, List.getElem?_cons_zero]
    exact not_infix_of_pieces hne hget hpos h
  have hmul : ((allPieces d s).length - 1) * n.length < ((allPieces d s).length - 1) * d.length :=
    Nat.mul_lt_mul_of_pos_left hlt (by omega)
  omega

/-- The replacement of one item by another. -/
theorem replaced_singleton (a b : α) (s : List α) :
    replaced [a] [b] s = s.map fun c => if c = a then b else c := by
  induction s with
  | nil => exact replaced_of_length_lt (Nat.succ_pos 0)
  | cons c t ih =>
    by_cases h : c = a
    · have hinitial : [a] <+: c :: t := ⟨t, by rw [h, List.singleton_append]⟩
      rw [replaced_cut (List.cons_ne_nil _ _) hinitial, List.map_cons, if_pos h]
      exact congrArg (b :: ·) ih
    · have hinitial : ¬[a] <+: c :: t := fun hp => h (List.cons_prefix_cons.mp hp).1.symm
      rw [replaced_keep hinitial, List.map_cons, if_neg h, ih]

end Splitting
