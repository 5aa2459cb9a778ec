import Chloride.Containers.Splitting

/-!
# Fields between separators

The runs of a list that lie between separators, without the empty ones. A list is cut by a fold from the
right whose state is the run before the first separator and the fields behind it, so a fact about the
fields is one about the step of that fold: a separator more beside another one does not count, and a list
without two of them side by side is its fields with one separator between them, up to a separator in front
and one behind.
-/

namespace Fields

variable {α : Type*}

/-- A run before fields, when there is something in it. -/
def push (run : List α) (fields : List (List α)) : List (List α) :=
  if run = [] then fields else run :: fields

theorem push_nil (L : List (List α)) : push [] L = L := if_pos rfl

theorem push_of_ne_nil {run : List α} (h : run ≠ []) (L : List (List α)) : push run L = run :: L := if_neg h

theorem push_append (run : List α) (L M : List (List α)) : push run (L ++ M) = push run L ++ M := by
  by_cases h : run = []
  · rw [h, push_nil, push_nil]
  · rw [push_of_ne_nil h, push_of_ne_nil h, List.cons_append]

/-- What a field is: not empty, and without a separator. -/
def IsField (sep : α) (f : List α) : Prop := f ≠ [] ∧ sep ∉ f

theorem forall_push {sep : α} {run : List α} {L : List (List α)} (hrun : sep ∉ run)
    (h : ∀ f ∈ L, IsField sep f) : ∀ f ∈ push run L, IsField sep f := by
  intro f hf
  by_cases hne : run = []
  · rw [hne, push_nil] at hf
    exact h f hf
  · rw [push_of_ne_nil hne] at hf
    rcases List.mem_cons.mp hf with rfl | hf
    · exact ⟨hne, hrun⟩
    · exact h f hf

variable [DecidableEq α]

/-- The run before the first separator, and the fields behind it. -/
def cut (sep : α) (s : List α) : List α × List (List α) :=
  s.foldr (fun a r => if a = sep then ([], push r.1 r.2) else (a :: r.1, r.2)) ([], [])

/-- The fields of a list. -/
def fields (sep : α) (s : List α) : List (List α) := push (cut sep s).1 (cut sep s).2

variable {sep : α}

theorem cut_nil : cut sep [] = ([], []) := rfl

theorem cut_sep (t : List α) : cut sep (sep :: t) = ([], fields sep t) := by
  rw [cut, List.foldr_cons, if_pos rfl]
  rfl

theorem cut_of_ne {a : α} (h : a ≠ sep) (t : List α) :
    cut sep (a :: t) = (a :: (cut sep t).1, (cut sep t).2) := by
  rw [cut, List.foldr_cons, if_neg h]
  rfl

theorem fields_nil : fields sep [] = [] := rfl

/-- A separator in front does not count. -/
theorem fields_sep (t : List α) : fields sep (sep :: t) = fields sep t := by
  rw [fields, cut_sep, push_nil]

theorem not_mem_cut (s : List α) : sep ∉ (cut sep s).1 := by
  induction s with
  | nil => exact List.not_mem_nil
  | cons a t ih =>
    by_cases h : a = sep
    · rw [h, cut_sep]
      exact List.not_mem_nil
    · rw [cut_of_ne h, List.mem_cons, not_or]
      exact ⟨Ne.symm h, ih⟩

theorem isField_of_mem_cut (s : List α) : ∀ f ∈ (cut sep s).2, IsField sep f := by
  induction s with
  | nil => exact fun f hf => absurd hf List.not_mem_nil
  | cons a t ih =>
    by_cases h : a = sep
    · rw [h, cut_sep]
      exact forall_push (not_mem_cut t) ih
    · rw [cut_of_ne h]
      exact ih

theorem isField_of_mem {s : List α} : ∀ f ∈ fields sep s, IsField sep f :=
  forall_push (not_mem_cut s) (isField_of_mem_cut s)

/-- The fields on the two sides of a separator. -/
theorem cut_append (s t : List α) : cut sep (s ++ sep :: t) = ((cut sep s).1, (cut sep s).2 ++ fields sep t) := by
  induction s with
  | nil => rw [List.nil_append, cut_sep, cut_nil, List.nil_append]
  | cons a s ih =>
    by_cases h : a = sep
    · rw [List.cons_append, h, cut_sep, cut_sep, fields, ih, push_append, ← fields]
    · rw [List.cons_append, cut_of_ne h, cut_of_ne h, ih]

theorem fields_append (s t : List α) : fields sep (s ++ sep :: t) = fields sep s ++ fields sep t := by
  rw [fields, cut_append, push_append, ← fields]

/-- A separator behind does not count. -/
theorem fields_concat (s : List α) : fields sep (s ++ [sep]) = fields sep s := by
  rw [fields_append, fields_nil, List.append_nil]

theorem cut_of_not_mem {f : List α} (h : sep ∉ f) : cut sep f = (f, []) := by
  induction f with
  | nil => rfl
  | cons a f ih =>
    have hne : a ≠ sep := fun hne => h (hne ▸ List.mem_cons_self)
    rw [cut_of_ne hne, ih fun hf => h (List.mem_cons_of_mem _ hf)]

theorem IsField.fields_eq {f : List α} (h : IsField sep f) : fields sep f = [f] := by
  rw [fields, cut_of_not_mem h.2, push_of_ne_nil h.1]

omit [DecidableEq α] in
theorem IsField.head?_ne {f : List α} (h : IsField sep f) : f.head? ≠ some sep := fun hhead =>
  h.2 (List.mem_of_mem_head? hhead)

/-- The fields of a list that is made from fields are those. -/
theorem fields_intercalate {L : List (List α)} (h : ∀ f ∈ L, IsField sep f) :
    fields sep ([sep].intercalate L) = L := by
  induction L with
  | nil => rfl
  | cons f L ih =>
    have hf : IsField sep f := h f List.mem_cons_self
    have hrest := ih fun g hg => h g (List.mem_cons_of_mem _ hg)
    by_cases hL : L = []
    · rw [hL, List.intercalate_singleton, hf.fields_eq]
    · rw [Splitting.intercalate_cons hL, List.append_assoc, List.singleton_append, fields_append, hrest,
        hf.fields_eq, List.singleton_append]

/-! ## Separators side by side -/

/-- One separator in the place of two changes no field. -/
theorem cut_replaced (s : List α) : cut sep (Splitting.replaced [sep, sep] [sep] s) = cut sep s := by
  induction hn : s.length using Nat.strong_induction_on generalizing s with
  | _ n ih =>
    by_cases h : [sep, sep] <+: s
    · obtain ⟨t, rfl⟩ := h
      have hn : t.length + 2 = n := by rw [← hn]; simp
      have ht := ih t.length (by omega) t rfl
      rw [Splitting.replaced_cut (List.cons_ne_nil _ _) (List.prefix_append _ _)]
      change cut sep (sep :: Splitting.replaced [sep, sep] [sep] t) = cut sep (sep :: sep :: t)
      rw [cut_sep, cut_sep, fields_sep, fields, ht, fields]
    · cases s with
      | nil =>
        rw [Splitting.replaced_of_length_lt]
        exact Nat.succ_pos _
      | cons a t =>
        have hn : t.length + 1 = n := by rw [← hn]; simp
        have ht := ih t.length (by omega) t rfl
        rw [Splitting.replaced_keep h]
        by_cases ha : a = sep
        · rw [ha, cut_sep, cut_sep, fields, ht, fields]
        · rw [cut_of_ne ha, cut_of_ne ha, ht]

/-- One separator in the place of two at the front is still there. -/
theorem head?_replaced (s : List α) : (Splitting.replaced [sep, sep] [sep] s).head? = s.head? := by
  by_cases h : [sep, sep] <+: s
  · obtain ⟨t, rfl⟩ := h
    rw [Splitting.replaced_cut (List.cons_ne_nil _ _) (List.prefix_append _ _)]
    rfl
  · cases s with
    | nil =>
      rw [Splitting.replaced_of_length_lt]
      exact Nat.succ_pos _
    | cons a t =>
      rw [Splitting.replaced_keep h]
      rfl

/-- Fields that follow something, each with a separator in front. -/
def spread (sep : α) (L : List (List α)) : List α := (L.map (sep :: ·)).flatten

omit [DecidableEq α] in
theorem spread_cons (f : List α) (L : List (List α)) : spread sep (f :: L) = sep :: f ++ spread sep L := by
  rw [spread, List.map_cons, List.flatten_cons, spread]

omit [DecidableEq α] in
theorem append_spread (f : List α) (L : List (List α)) :
    f ++ spread sep L = [sep].intercalate (f :: L) := by
  induction L generalizing f with
  | nil => rw [List.intercalate_singleton, spread, List.map_nil, List.flatten_nil, List.append_nil]
  | cons g L ih =>
    rw [spread_cons, List.intercalate_cons_cons, ← ih g, List.cons_append, List.append_assoc,
      List.singleton_append]

omit [DecidableEq α] in
theorem intercalate_append {L : List (List α)} (hL : L ≠ []) (M : List (List α)) :
    [sep].intercalate (L ++ M) = [sep].intercalate L ++ spread sep M := by
  obtain ⟨f, L, rfl⟩ := List.exists_cons_of_ne_nil hL
  rw [List.cons_append, ← append_spread, ← append_spread, List.append_assoc, spread, spread, spread,
    List.map_append, List.flatten_append]

/-- A list without two separators side by side is its first run and the fields behind it, up to a separator
at the end. -/
theorem eq_of_not_infix {s : List α} (h : ¬[sep, sep] <:+: s) :
    s = (cut sep s).1 ++ spread sep (cut sep s).2 ∨ s = (cut sep s).1 ++ spread sep (cut sep s).2 ++ [sep] := by
  induction s with
  | nil => exact Or.inl rfl
  | cons a t ih =>
    have ht : ¬[sep, sep] <:+: t := fun ht => h (List.infix_cons ht)
    by_cases ha : a = sep
    · subst ha
      rw [cut_sep, List.nil_append]
      by_cases hrun : (cut a t).1 = []
      · -- what follows is no separator, so there is nothing behind this one
        cases t with
        | nil => exact Or.inr rfl
        | cons b t =>
          exfalso
          by_cases hb : b = a
          · exact h (hb ▸ ⟨[], t, rfl⟩)
          · rw [cut_of_ne hb] at hrun
            exact List.cons_ne_nil _ _ hrun
      · rw [fields, push_of_ne_nil hrun, spread_cons]
        rcases ih ht with ih | ih
        · exact Or.inl (congrArg (a :: ·) ih)
        · exact Or.inr (congrArg (a :: ·) ih)
    · rw [cut_of_ne ha]
      rcases ih ht with ih | ih
      · exact Or.inl (congrArg (a :: ·) ih)
      · exact Or.inr (congrArg (a :: ·) ih)

/-- The pieces that are not empty are the fields. -/
theorem filter_allPieces (s : List α) :
    (Splitting.allPieces [sep] s).filter (· ≠ []) = fields sep s := by
  suffices h : ∃ L, Splitting.allPieces [sep] s = (cut sep s).1 :: L ∧
      L.filter (· ≠ []) = (cut sep s).2 by
    obtain ⟨L, hL, hfilter⟩ := h
    rw [hL, List.filter_cons, hfilter, fields, push]
    by_cases hrun : (cut sep s).1 = [] <;> simp [hrun]
  induction s with
  | nil => exact ⟨[], Splitting.pieces_nil _ _, rfl⟩
  | cons a t ih =>
    obtain ⟨L, hL, hfilter⟩ := ih
    by_cases ha : a = sep
    · subst ha
      have hcut : [a] <+: a :: t := ⟨t, rfl⟩
      refine ⟨(cut a t).1 :: L, ?_, ?_⟩
      · rw [Splitting.allPieces_cut (List.cons_ne_nil _ _) hcut, cut_sep]
        exact congrArg ([] :: ·) hL
      · rw [cut_sep, List.filter_cons, hfilter, fields, push]
        by_cases hrun : (cut a t).1 = [] <;> simp [hrun]
    · have hkeep : ¬[sep] <+: a :: t := by
        rw [List.cons_prefix_cons]
        exact fun h => ha h.1.symm
      refine ⟨L, ?_, ?_⟩
      · rw [Splitting.allPieces_keep hkeep, hL, cut_of_ne ha]
        rfl
      · rw [cut_of_ne ha, hfilter]

/-- No piece has a separator in it. -/
theorem not_mem_of_mem_allPieces {s : List α} : ∀ f ∈ Splitting.allPieces [sep] s, sep ∉ f := by
  induction s with
  | nil =>
    intro f hf
    rw [Splitting.allPieces, Splitting.pieces_nil, List.mem_singleton] at hf
    exact hf ▸ List.not_mem_nil
  | cons a t ih =>
    by_cases ha : [sep] <+: a :: t
    · rw [Splitting.allPieces_cut (List.cons_ne_nil _ _) ha]
      intro f hf
      rcases List.mem_cons.mp hf with rfl | hf
      · exact List.not_mem_nil
      · exact ih f hf
    · have hne : sep ≠ a := fun h => ha ⟨t, by rw [h, List.singleton_append]⟩
      rw [Splitting.allPieces_keep ha]
      obtain ⟨first, rest, hpieces⟩ := List.exists_cons_of_ne_nil (Splitting.allPieces_ne_nil [sep] t)
      rw [hpieces] at ih ⊢
      intro f hf
      rcases List.mem_cons.mp hf with rfl | hf
      · exact fun h => (List.mem_cons.mp h).elim hne (ih first List.mem_cons_self)
      · exact ih f (List.mem_cons_of_mem _ hf)

/-- A list is its first piece and the others, each with a separator in front. -/
theorem eq_append_spread {s f : List α} {L : List (List α)} (h : Splitting.allPieces [sep] s = f :: L) :
    s = f ++ spread sep L := by
  have hjoin : [sep].intercalate (Splitting.allPieces [sep] s) = s := Splitting.intercalate_pieces _ _ s
  rw [← hjoin, h, append_spread]

theorem allPieces_of_not_mem {f : List α} (h : sep ∉ f) : Splitting.allPieces [sep] f = [f] :=
  Splitting.allPieces_of_not_infix fun hwithin => h ((List.singleton_infix_iff _ _).mp hwithin)

/-- The pieces on the two sides of a separator. -/
theorem allPieces_append (s t : List α) :
    Splitting.allPieces [sep] (s ++ sep :: t) = Splitting.allPieces [sep] s ++ Splitting.allPieces [sep] t := by
  induction s with
  | nil =>
    have hcut : [sep] <+: sep :: t := ⟨t, rfl⟩
    rw [List.nil_append, Splitting.allPieces_cut (List.cons_ne_nil _ _) hcut, Splitting.allPieces,
      Splitting.allPieces, Splitting.pieces_nil]
    rfl
  | cons a s ih =>
    by_cases ha : a = sep
    · have hcut : ∀ u, [sep] <+: a :: u := fun u => ⟨u, by rw [ha, List.singleton_append]⟩
      rw [List.cons_append, Splitting.allPieces_cut (List.cons_ne_nil _ _) (hcut _),
        Splitting.allPieces_cut (List.cons_ne_nil _ _) (hcut _)]
      exact congrArg ([] :: ·) ih
    · have hkeep : ∀ u, ¬[sep] <+: a :: u := fun u h => ha (List.cons_prefix_cons.mp h).1.symm
      rw [List.cons_append, Splitting.allPieces_keep (hkeep _), Splitting.allPieces_keep (hkeep _), ih]
      obtain ⟨first, rest, hpieces⟩ := List.exists_cons_of_ne_nil (Splitting.allPieces_ne_nil [sep] s)
      rw [hpieces]
      rfl

/-- The pieces of a list that is made from fields are those. -/
theorem allPieces_intercalate {L : List (List α)} (hL : L ≠ []) (h : ∀ f ∈ L, IsField sep f) :
    Splitting.allPieces [sep] ([sep].intercalate L) = L := by
  apply Splitting.allPieces_intercalate_of_not_infix (List.cons_ne_nil _ _) hL
  intro f hf hwithin
  rw [List.dropLast_singleton, List.append_nil, List.singleton_infix_iff] at hwithin
  exact (h f hf).2 hwithin

omit [DecidableEq α] in
/-- What is made from fields does not begin with a separator. -/
theorem head?_intercalate {L : List (List α)} (h : ∀ f ∈ L, IsField sep f) :
    ([sep].intercalate L).head? ≠ some sep := by
  cases L with
  | nil => exact Option.some_ne_none _ ∘ Eq.symm
  | cons f L =>
    have hf : IsField sep f := h f List.mem_cons_self
    rw [← append_spread, List.head?_append_of_ne_nil _ hf.1]
    exact hf.head?_ne

omit [DecidableEq α] in
/-- What is made from fields does not end with a separator. -/
theorem exists_intercalate_eq_concat {L : List (List α)} (hL : L ≠ []) (h : ∀ f ∈ L, IsField sep f) :
    ∃ x a, a ≠ sep ∧ [sep].intercalate L = x ++ [a] := by
  induction L with
  | nil => exact absurd rfl hL
  | cons f L ih =>
    have hf : IsField sep f := h f List.mem_cons_self
    by_cases hrest : L = []
    · refine ⟨f.dropLast, f.getLast hf.1, fun ha => hf.2 (ha ▸ List.getLast_mem _), ?_⟩
      rw [hrest, List.intercalate_singleton, List.dropLast_append_getLast]
    · obtain ⟨x, a, ha, hx⟩ := ih hrest fun g hg => h g (List.mem_cons_of_mem _ hg)
      refine ⟨f ++ [sep] ++ x, a, ha, ?_⟩
      rw [Splitting.intercalate_cons hrest, hx, List.append_assoc (f ++ [sep])]

omit [DecidableEq α] in
/-- Separators in front of something and in it are side by side only there. -/
theorem not_infix_append {f t : List α} (hf : sep ∉ f) (hhead : t.head? ≠ some sep) (ht : ¬[sep, sep] <:+: t) :
    ¬[sep, sep] <:+: f ++ sep :: t := by
  induction f with
  | nil =>
    rw [List.nil_append, List.infix_cons_iff, not_or]
    refine ⟨fun h => ?_, ht⟩
    obtain ⟨u, hu⟩ := (List.cons_prefix_cons.mp h).2
    exact hhead (hu ▸ rfl)
  | cons a f ih =>
    have hne : sep ≠ a := fun h => hf (h ▸ List.mem_cons_self)
    rw [List.cons_append, List.infix_cons_iff, not_or]
    exact ⟨fun h => hne (List.cons_prefix_cons.mp h).1, ih fun h => hf (List.mem_cons_of_mem _ h)⟩

omit [DecidableEq α] in
/-- What is made from fields has no separators side by side. -/
theorem not_infix_intercalate {L : List (List α)} (h : ∀ f ∈ L, IsField sep f) :
    ¬[sep, sep] <:+: [sep].intercalate L := by
  induction L with
  | nil => exact fun hnil => List.cons_ne_nil _ _ (List.infix_nil.mp hnil)
  | cons f L ih =>
    have hf : IsField sep f := h f List.mem_cons_self
    have hrest : ∀ g ∈ L, IsField sep g := fun g hg => h g (List.mem_cons_of_mem _ hg)
    by_cases hL : L = []
    · rw [hL, List.intercalate_singleton]
      exact fun hmiddle => hf.2 (hmiddle.subset List.mem_cons_self)
    · rw [Splitting.intercalate_cons hL, List.append_assoc, List.singleton_append]
      exact not_infix_append hf.2 (head?_intercalate hrest) (ih hrest)

/-! ## A list that ends early -/

section

omit [DecidableEq α]

/-- The fields that are left where a list ends before the first member without `q`. -/
def keep (q : α → Bool) : List (List α) → List (List α)
  | [] => []
  | f :: L => if f.all q then f :: keep q L else push (f.takeWhile q) []

variable {q : α → Bool}

theorem keep_of_forall {L : List (List α)} (h : ∀ f ∈ L, f.all q) : keep q L = L := by
  induction L with
  | nil => rfl
  | cons f L ih => rw [keep, if_pos (h f List.mem_cons_self), ih fun g hg => h g (List.mem_cons_of_mem _ hg)]

/-- What follows the field where the list ends does not count. -/
theorem keep_append_of_exists {L : List (List α)} (h : ∃ f ∈ L, ¬f.all q) (M : List (List α)) :
    keep q (L ++ M) = keep q L := by
  induction L with
  | nil => exact absurd h (by simp)
  | cons f L ih =>
    rw [List.cons_append, keep, keep]
    split
    · rename_i hf
      have hrest : ∃ g ∈ L, ¬g.all q := by
        obtain ⟨g, hg, hno⟩ := h
        rcases List.mem_cons.mp hg with rfl | hg
        · exact absurd hf hno
        · exact ⟨g, hg, hno⟩
      rw [ih hrest]
    · rfl

theorem all_push (run : List α) (L : List (List α)) : (push run L).all (·.all q) = (run.all q && L.all (·.all q)) := by
  by_cases h : run = []
  · rw [h, push_nil, List.all_nil, Bool.true_and]
  · rw [push_of_ne_nil h, List.all_cons]

theorem keep_push (run : List α) (L : List (List α)) :
    keep q (push run L) = push (run.takeWhile q) (if run.all q then keep q L else []) := by
  by_cases h : run = []
  · rw [h, push_nil, List.takeWhile_nil, push_nil, List.all_nil, if_pos rfl]
  · rw [push_of_ne_nil h, keep]
    split
    · rename_i hall
      rw [List.takeWhile_eq_self_iff.mpr (List.all_eq_true.mp hall), push_of_ne_nil h]
    · rfl

end

theorem cut_takeWhile {q : α → Bool} (hsep : q sep = true) (s : List α) :
    cut sep (s.takeWhile q) =
      ((cut sep s).1.takeWhile q, if (cut sep s).1.all q then keep q (cut sep s).2 else []) := by
  induction s with
  | nil => rfl
  | cons a s ih =>
    by_cases ha : a = sep
    · rw [ha, List.takeWhile_cons_of_pos hsep, cut_sep, cut_sep, fields, ih, ← keep_push, ← fields]
      rfl
    · rw [cut_of_ne ha, List.all_cons]
      by_cases hq : q a = true
      · rw [List.takeWhile_cons_of_pos hq, cut_of_ne ha, ih, List.takeWhile_cons_of_pos hq, hq, Bool.true_and]
      · rw [List.takeWhile_cons_of_neg hq, List.takeWhile_cons_of_neg hq, Bool.eq_false_of_not_eq_true hq,
          Bool.false_and]
        rfl

/-- The fields of a list that ends before the first member without `q`. -/
theorem fields_takeWhile {q : α → Bool} (hsep : q sep = true) (s : List α) :
    fields sep (s.takeWhile q) = keep q (fields sep s) := by
  rw [fields, cut_takeWhile hsep, ← keep_push, ← fields]

theorem all_cut {q : α → Bool} (hsep : q sep = true) (s : List α) :
    s.all q = ((cut sep s).1.all q && (cut sep s).2.all (·.all q)) := by
  induction s with
  | nil => rfl
  | cons a s ih =>
    by_cases ha : a = sep
    · rw [ha, cut_sep, List.all_cons, hsep, fields, all_push, ih]
      rfl
    · rw [cut_of_ne ha, List.all_cons, List.all_cons, ih, Bool.and_assoc]

/-- A list ends nowhere early exactly if no field does. -/
theorem all_fields {q : α → Bool} (hsep : q sep = true) (s : List α) : (fields sep s).all (·.all q) = s.all q := by
  rw [fields, all_push, ← all_cut hsep]

end Fields
