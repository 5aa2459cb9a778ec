import Mathlib

/-!
# Chains

A chain is a sequence of items with a separator between every two of them. It is cut at the separators
that satisfy a predicate into the chains between those.
-/

/-- An item, and further items, each behind a separator. -/
structure Chain (α ω : Type*) where
  first : α
  rest : List (ω × α)

namespace Chain

variable {α ω : Type*}

/-- The items in order. -/
def items (c : Chain α ω) : List α := c.first :: c.rest.map Prod.snd

/-- The separators in order. -/
def seps (c : Chain α ω) : List ω := c.rest.map Prod.fst

/-- The items and the separators in order. -/
def flatten (c : Chain α ω) : List (α ⊕ ω) := .inl c.first :: c.rest.flatMap fun x => [.inr x.1, .inl x.2]

/-- Two chains with a separator between them. -/
def append (d : Chain α ω) (o : ω) (c : Chain α ω) : Chain α ω :=
  ⟨d.first, d.rest ++ (o, c.first) :: c.rest⟩

@[simp]
theorem items_append (d : Chain α ω) (o : ω) (c : Chain α ω) :
    (d.append o c).items = d.items ++ c.items := by
  unfold items append
  simp

@[simp]
theorem seps_append (d : Chain α ω) (o : ω) (c : Chain α ω) :
    (d.append o c).seps = d.seps ++ o :: c.seps := by
  unfold seps append
  simp

@[simp]
theorem flatten_append (d : Chain α ω) (o : ω) (c : Chain α ω) :
    (d.append o c).flatten = d.flatten ++ .inr o :: c.flatten := by
  unfold flatten append
  simp

theorem length_items (c : Chain α ω) : c.items.length = c.seps.length + 1 := by
  unfold items seps
  simp

/-- Every list of items with one separator less is a chain. -/
theorem exists_of_lengths {as : List α} {os : List ω} (h : as.length = os.length + 1) :
    ∃ c : Chain α ω, c.items = as ∧ c.seps = os := by
  cases as with
  | nil => cases h
  | cons a as =>
    have hlength : as.length = os.length := by simpa using h
    refine ⟨⟨a, os.zip as⟩, ?_, List.map_fst_zip (by omega)⟩
    rw [items, List.map_snd_zip (by omega)]

/-! ## Cutting -/

/-- The chains between the separators that satisfy a predicate, of an item and what is behind it. -/
def cutRest (p : ω → Bool) (a : α) : List (ω × α) → List (Chain α ω)
  | [] => [⟨a, []⟩]
  | (o, b) :: rest =>
    if p o then ⟨a, []⟩ :: cutRest p b rest
    else (cutRest p b rest).modifyHead fun c => append ⟨a, []⟩ o c

/-- The chains between the separators that satisfy a predicate. -/
def cut (p : ω → Bool) (c : Chain α ω) : List (Chain α ω) := cutRest p c.first c.rest

section Cut

variable {p : ω → Bool} {o : ω} {c d : Chain α ω}

theorem cutRest_of_forall {a : α} {rest : List (ω × α)} (h : ∀ x ∈ rest, p x.1 = false) :
    cutRest p a rest = [⟨a, rest⟩] := by
  induction rest generalizing a with
  | nil => rfl
  | cons x rest ih =>
    rw [List.forall_mem_cons] at h
    rw [cutRest, if_neg (by simp [h.1]), ih h.2]
    rfl

theorem cutRest_append {a b : α} {rest rest' : List (ω × α)} (h : ∀ x ∈ rest, p x.1 = false)
    (ho : p o = true) :
    cutRest p a (rest ++ (o, b) :: rest') = ⟨a, rest⟩ :: cutRest p b rest' := by
  induction rest generalizing a with
  | nil => rw [List.nil_append, cutRest, if_pos ho]
  | cons x rest ih =>
    rw [List.forall_mem_cons] at h
    rw [List.cons_append, cutRest, if_neg (by simp [h.1]), ih h.2]
    rfl

/-- Without such a separator there is nothing to cut. -/
theorem cut_of_forall (h : ∀ o ∈ c.seps, p o = false) : c.cut p = [c] :=
  cutRest_of_forall fun x hx => h x.1 (List.mem_map_of_mem hx)

/-- The first cut is at the first such separator. -/
theorem cut_append (h : ∀ o ∈ d.seps, p o = false) (ho : p o = true) :
    (d.append o c).cut p = d :: c.cut p :=
  cutRest_append (fun x hx => h x.1 (List.mem_map_of_mem hx)) ho

/-- A chain with such a separator is divided at the first one. -/
theorem exists_append (h : ∃ o ∈ c.seps, p o = true) :
    ∃ d o c', (∀ o ∈ d.seps, p o = false) ∧ p o = true ∧ c = append d o c' := by
  obtain ⟨first, rest⟩ := c
  induction rest generalizing first with
  | nil =>
    obtain ⟨o, ho, _⟩ := h
    cases ho
  | cons x rest ih =>
    cases hx : p x.1 with
    | true => exact ⟨⟨first, []⟩, x.1, ⟨x.2, rest⟩, nofun, hx, rfl⟩
    | false =>
      have hrest : ∃ o ∈ seps ⟨x.2, rest⟩, p o = true := by
        obtain ⟨o, ho, hp⟩ := h
        rcases List.mem_cons.mp ho with rfl | ho
        · rw [hx] at hp
          cases hp
        · exact ⟨o, ho, hp⟩
      obtain ⟨d, o, c', hd, ho, heq⟩ := ih x.2 hrest
      refine ⟨append ⟨first, []⟩ x.1 d, o, c', ?_, ho, ?_⟩
      · rw [seps_append, List.forall_mem_append, List.forall_mem_cons]
        exact ⟨nofun, hx, hd⟩
      · unfold append at heq ⊢
        rw [Chain.mk.injEq] at heq
        rw [heq.2, ← heq.1]
        rfl

/-- Induction over the cuts from the first. -/
@[elab_as_elim]
theorem cutInduction (p : ω → Bool) {motive : Chain α ω → Prop}
    (whole : ∀ c : Chain α ω, (∀ o ∈ c.seps, p o = false) → motive c)
    (append : ∀ d o c, (∀ o ∈ d.seps, p o = false) → p o = true → motive c → motive (append d o c))
    (c : Chain α ω) : motive c := by
  by_cases h : ∃ o ∈ c.seps, p o = true
  · obtain ⟨d, o, c', hd, ho, heq⟩ := exists_append h
    rw [heq]
    exact append d o c' hd ho (cutInduction p whole append c')
  · exact whole c fun o ho => Bool.eq_false_iff.mpr fun hp => h ⟨o, ho, hp⟩
termination_by c.rest.length
decreasing_by
  rw [heq]
  show c'.rest.length < (d.rest ++ (o, c'.first) :: c'.rest).length
  rw [List.length_append, List.length_cons]
  omega

theorem cut_ne_nil (p : ω → Bool) (c : Chain α ω) : c.cut p ≠ [] := by
  induction c using cutInduction p with
  | whole c h =>
    rw [cut_of_forall h]
    exact List.cons_ne_nil _ _
  | append d o c h ho _ =>
    rw [cut_append h ho]
    exact List.cons_ne_nil _ _

/-- The separators that are left are those that do not satisfy the predicate. -/
theorem seps_of_mem_cut (hd : d ∈ c.cut p) (ho : o ∈ d.seps) : p o = false ∧ o ∈ c.seps := by
  induction c using cutInduction p with
  | whole c h =>
    rw [cut_of_forall h, List.mem_singleton] at hd
    subst hd
    exact ⟨h o ho, ho⟩
  | append e o' c h ho' ih =>
    rw [cut_append h ho'] at hd
    rw [seps_append]
    rcases List.mem_cons.mp hd with rfl | hd
    · exact ⟨h o ho, List.mem_append_left _ ho⟩
    · obtain ⟨hp, hmem⟩ := ih hd
      exact ⟨hp, List.mem_append_right _ (List.mem_cons_of_mem _ hmem)⟩

/-- Each of the chains has at most the separators of the chain that is cut. -/
theorem length_seps_le_of_mem_cut (hd : d ∈ c.cut p) : d.seps.length ≤ c.seps.length := by
  induction c using cutInduction p with
  | whole c h =>
    rw [cut_of_forall h, List.mem_singleton] at hd
    rw [hd]
  | append e o c h ho ih =>
    rw [cut_append h ho] at hd
    rw [seps_append, List.length_append, List.length_cons]
    rcases List.mem_cons.mp hd with rfl | hd
    · omega
    · have := ih hd
      omega

/-- If something is cut, each of the chains has fewer separators. -/
theorem length_seps_lt_of_mem_cut (hd : d ∈ c.cut p) (h : ∃ o ∈ c.seps, p o = true) :
    d.seps.length < c.seps.length := by
  obtain ⟨e, o, c', he, ho, rfl⟩ := exists_append h
  rw [cut_append he ho] at hd
  rw [seps_append, List.length_append, List.length_cons]
  rcases List.mem_cons.mp hd with rfl | hd
  · omega
  · have := length_seps_le_of_mem_cut hd
    omega

/-- The chains, with what the separators between them are to `f`, are the whole chain. -/
theorem flatten_cut {ω' : Type*} {f : ω → ω'} {s : ω'} (hf : ∀ o ∈ c.seps, p o = true → f o = s)
    {ds : List (Chain α ω)} (hcut : c.cut p = d :: ds) :
    c.flatten.map (Sum.map id f) = d.flatten.map (Sum.map id f) ++
      ds.flatMap fun e => .inr s :: e.flatten.map (Sum.map id f) := by
  induction c using cutInduction p generalizing d ds with
  | whole c h =>
    rw [cut_of_forall h, List.cons.injEq] at hcut
    obtain ⟨rfl, rfl⟩ := hcut
    exact (List.append_nil _).symm
  | append e o c h ho ih =>
    rw [cut_append h ho, List.cons.injEq] at hcut
    obtain ⟨rfl, rfl⟩ := hcut
    rw [seps_append, List.forall_mem_append, List.forall_mem_cons] at hf
    rw [flatten_append, List.map_append, List.map_cons, Sum.map_inr, hf.2.1 ho]
    cases hcut : c.cut p with
    | nil => exact absurd hcut (cut_ne_nil p c)
    | cons d' ds' => rw [ih hf.2.2 hcut, List.flatMap_cons, List.cons_append]

end Cut

/-! ## Mapping -/

section Map

variable {β ω' : Type*} {f : α → β} {g : ω → ω'}

/-- Something done to every item and every separator. -/
def map (f : α → β) (g : ω → ω') (c : Chain α ω) : Chain β ω' := ⟨f c.first, c.rest.map (Prod.map g f)⟩

theorem seps_map (c : Chain α ω) : (c.map f g).seps = c.seps.map g := by
  unfold seps map
  rw [List.map_map, List.map_map]
  rfl

theorem map_append (d : Chain α ω) (o : ω) (c : Chain α ω) :
    (d.append o c).map f g = (d.map f g).append (g o) (c.map f g) := by
  unfold append map
  rw [List.map_append]
  rfl

/-- The separators are told apart by what they are mapped to. -/
theorem cut_map {p : ω' → Bool} (c : Chain α ω) :
    (c.map f g).cut p = (c.cut fun o => p (g o)).map (map f g) := by
  induction c using cutInduction fun o => p (g o) with
  | whole c h =>
    have hmap : ∀ o ∈ (c.map f g).seps, p o = false := by
      rw [seps_map, List.forall_mem_map]
      exact h
    rw [cut_of_forall h, cut_of_forall hmap]
    rfl
  | append d o c h ho ih =>
    have hmap : ∀ o ∈ (d.map f g).seps, p o = false := by
      rw [seps_map, List.forall_mem_map]
      exact h
    rw [cut_append h ho, map_append, cut_append hmap ho, ih, List.map_cons]

end Map

end Chain
