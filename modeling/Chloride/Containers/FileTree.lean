import Mathlib.Data.List.AList
import Chloride.Containers.Walks

/-!
# File systems with symbolic links

A file system is a finite map from places to entries. A place is the list of the names on the way to it from the root,
and everything but the root is in a directory. A route is walked from a place move by move: a symbolic link on the way
is walked in its turn, as long as there are not too many of them. `walk_mono` says that a walk leads to the same place
where there are more entries, so that what is removed from a file system or added to it does not turn a route to
another place.
-/

namespace FileTree

open Walks (Move)

variable {Name Content : Type}

/-- The text of a symbolic link, or of a path. -/
structure Route (Name : Type) where
  absolute : Bool
  moves : List (Move Name)
  deriving DecidableEq

/-- Where a route begins that is walked from a place. -/
def Route.origin (route : Route Name) (place : List Name) : List Name := if route.absolute then [] else place

inductive Entry (Name Content : Type) where
  | file (content : Content)
  | directory
  | link (target : Route Name)
  | other
  deriving DecidableEq

theorem Entry.directory_ne_link (target : Route Name) : (.directory : Entry Name Content) ≠ .link target := nofun

instance (e : Option (Entry Name Content)) : Decidable (e = some .directory) :=
  match e with
  | some .directory => .isTrue rfl
  | some (.file _) => .isFalse nofun
  | some (.link _) => .isFalse nofun
  | some .other => .isFalse nofun
  | none => .isFalse nofun

end FileTree

open FileTree in
/-- A file system. -/
structure FileTree (Name Content : Type) [DecidableEq Name] where
  entries : AList fun _ : List Name => Entry Name Content
  root : [] ∉ entries
  parent : ∀ {place name}, place ++ [name] ∈ entries → place ≠ [] → entries.lookup place = some .directory

namespace FileTree

open Walks (Move)

variable {Name Content : Type} [DecidableEq Name] (t : FileTree Name Content)

/-- What is at a place. -/
def entry (place : List Name) : Option (Entry Name Content) :=
  if place = [] then some .directory else t.entries.lookup place

/-- The names of the entries of a directory. -/
def names (place : List Name) : List Name :=
  t.entries.keys.filterMap fun key => if key.dropLast = place then key.getLast? else none

/-- The length of the longest way into the file system. -/
def depth : ℕ := (t.entries.keys.map List.length).foldr max 0

/-- Without an entry that has none in it. -/
def remove (place : List Name) (hempty : ∀ name, t.entry (place ++ [name]) = none) : FileTree Name Content where
  entries := t.entries.erase place
  root h := t.root (AList.mem_erase.mp h).2
  parent {parent name} hmem hne := by
    have hold := (AList.mem_erase.mp hmem).2
    have hother : parent ≠ place := by
      rintro rfl
      have hnone := hempty name
      rw [entry, if_neg (by simp), AList.lookup_eq_none] at hnone
      exact hnone hold
    rw [AList.lookup_erase_ne hother]
    exact t.parent hold hne

/-- With an entry that is new in a directory, or that has none in it. -/
def put (place : List Name) (name : Name) (e : Entry Name Content) (hparent : t.entry place = some .directory)
    (hempty : ∀ below, t.entry (place ++ [name] ++ [below]) = none) : FileTree Name Content where
  entries := t.entries.insert (place ++ [name]) e
  root h := by
    rcases (AList.mem_insert _).mp h with h | h
    · simp at h
    · exact t.root h
  parent {parent name'} hmem hne := by
    have hold : parent ≠ place ++ [name] := by
      rintro rfl
      have hnone := hempty name'
      rw [entry, if_neg (by simp), AList.lookup_eq_none] at hnone
      rcases (AList.mem_insert _).mp hmem with h | h
      · simp at h
      · exact hnone h
    rw [AList.lookup_insert_ne hold]
    rcases (AList.mem_insert _).mp hmem with h | h
    · obtain ⟨rfl, -⟩ := List.append_inj' h rfl
      rwa [entry, if_neg hne] at hparent
    · exact t.parent h hne

/-! ## Entries -/

@[simp]
theorem entry_nil : t.entry [] = some .directory := if_pos rfl

variable {t} {place : List Name} {name : Name}

theorem entry_of_ne_nil (h : place ≠ []) : t.entry place = t.entries.lookup place := if_neg h

theorem entry_concat : t.entry (place ++ [name]) = t.entries.lookup (place ++ [name]) := if_neg (by simp)

/-- What is in something is in a directory. -/
theorem directory_of_entry (h : t.entry (place ++ [name]) ≠ none) : t.entry place = some .directory := by
  by_cases hplace : place = []
  · rw [hplace, entry_nil]
  · rw [entry_concat] at h
    rw [entry_of_ne_nil hplace]
    exact t.parent (AList.lookup_isSome.mp (Option.isSome_iff_ne_none.mpr h)) hplace

/-- So is what is further down. -/
theorem directory_of_below {rest : List Name} (h : t.entry (place ++ name :: rest) ≠ none) :
    t.entry place = some .directory := by
  induction rest using List.reverseRecOn with
  | nil => exact directory_of_entry h
  | append_singleton rest last ih =>
    apply ih
    have hdir : t.entry (place ++ name :: rest) = some .directory := by
      have hlast : t.entry (place ++ name :: rest ++ [last]) ≠ none := by simpa using h
      exact directory_of_entry hlast
    rw [hdir]
    exact Option.some_ne_none _

/-- There is nothing in what is no directory. -/
theorem entry_concat_eq_none (h : t.entry place ≠ some .directory) (name : Name) : t.entry (place ++ [name]) = none := by
  by_contra hne
  exact h (directory_of_entry hne)

theorem mem_names : name ∈ t.names place ↔ t.entry (place ++ [name]) ≠ none := by
  rw [names, List.mem_filterMap, entry_concat, ← Option.isSome_iff_ne_none, AList.lookup_isSome, AList.mem_keys]
  constructor
  · rintro ⟨key, hkey, hname⟩
    split at hname
    case isTrue hplace =>
      rw [← hplace, List.dropLast_append_getLast? name hname]
      exact hkey
    case isFalse => cases hname
  · intro hmem
    refine ⟨_, hmem, ?_⟩
    simp

theorem names_eq_nil : t.names place = [] ↔ ∀ name, t.entry (place ++ [name]) = none := by
  rw [List.eq_nil_iff_forall_not_mem]
  exact forall_congr' fun name => by rw [mem_names, not_not]

theorem length_le_depth (h : t.entry place ≠ none) : place.length ≤ t.depth := by
  by_cases hplace : place = []
  · rw [hplace]
    exact Nat.zero_le _
  · rw [entry_of_ne_nil hplace, ← Option.isSome_iff_ne_none, AList.lookup_isSome, AList.mem_keys] at h
    have hle : ∀ keys : List (List Name), place ∈ keys → place.length ≤ (keys.map List.length).foldr max 0 := by
      intro keys
      induction keys with
      | nil => exact fun h => absurd h List.not_mem_nil
      | cons key keys ih =>
        intro hmem
        rw [List.map_cons, List.foldr_cons]
        rcases List.mem_cons.mp hmem with rfl | hmem
        · exact le_max_left _ _
        · exact (ih hmem).trans (le_max_right _ _)
    exact hle _ h

/-! ## What is changed -/

theorem entry_remove_of_ne {hempty : ∀ name, t.entry (place ++ [name]) = none} {q : List Name} (h : q ≠ place) :
    (t.remove place hempty).entry q = t.entry q := by
  by_cases hq : q = []
  · rw [hq, entry_nil, entry_nil]
  · rw [entry_of_ne_nil hq, entry_of_ne_nil hq]
    exact AList.lookup_erase_ne h

theorem entry_remove {hempty : ∀ name, t.entry (place ++ [name]) = none} (h : place ≠ []) :
    (t.remove place hempty).entry place = none := by
  rw [entry_of_ne_nil h]
  exact AList.lookup_erase _ _

section

variable {e : Entry Name Content} {hparent : t.entry place = some .directory}
  {hempty : ∀ below, t.entry (place ++ [name] ++ [below]) = none}

theorem entry_put : (t.put place name e hparent hempty).entry (place ++ [name]) = some e := by
  rw [entry_concat]
  exact AList.lookup_insert _

theorem entry_put_of_ne {q : List Name} (h : q ≠ place ++ [name]) :
    (t.put place name e hparent hempty).entry q = t.entry q := by
  by_cases hq : q = []
  · rw [hq, entry_nil, entry_nil]
  · rw [entry_of_ne_nil hq, entry_of_ne_nil hq]
    exact AList.lookup_insert_ne h

end

/-- Everything that is in one file system is in the other. -/
def Sub (t t' : FileTree Name Content) : Prop := ∀ q e, t.entry q = some e → t'.entry q = some e

theorem Sub.refl (t : FileTree Name Content) : t.Sub t := fun _ _ h => h

theorem Sub.trans {t t' t'' : FileTree Name Content} (h : t.Sub t') (h' : t'.Sub t'') : t.Sub t'' :=
  fun q e he => h' q e (h q e he)

/-! ## Walks -/

variable (t) in
/-- Where a walk leads, and how many more symbolic links may be on it. -/
def walk (links : ℕ) (place : List Name) (moves : List (Move Name)) : Option (List Name × ℕ) :=
  match moves with
  | [] => some (place, links)
  | move :: rest =>
    if t.entry place = some .directory then
      match move with
      | .stay => walk links place rest
      | .up => walk links place.dropLast rest
      | .enter name =>
        match t.entry (place ++ [name]) with
        | none => none
        | some (.link target) =>
          match links with
          | 0 => none
          | links + 1 => walk links (target.origin place) (target.moves ++ rest)
        | some _ => walk links (place ++ [name]) rest
    else none
termination_by (links, moves.length)

variable {links : ℕ} {moves : List (Move Name)}

@[simp]
theorem walk_nil (links : ℕ) (place : List Name) : t.walk links place [] = some (place, links) := by
  rw [walk]

/-- Only a directory is walked through. -/
theorem walk_of_not_directory (h : t.entry place ≠ some .directory) (move : Move Name) (rest : List (Move Name)) :
    t.walk links place (move :: rest) = none := by
  rw [walk.eq_def]
  dsimp only
  rw [if_neg h]

section

variable (h : t.entry place = some .directory) (rest : List (Move Name))
include h

theorem walk_stay : t.walk links place (.stay :: rest) = t.walk links place rest := by
  rw [walk.eq_def]
  dsimp only
  rw [if_pos h]

theorem walk_up : t.walk links place (.up :: rest) = t.walk links place.dropLast rest := by
  rw [walk.eq_def]
  dsimp only
  rw [if_pos h]

theorem walk_missing (hnone : t.entry (place ++ [name]) = none) : t.walk links place (.enter name :: rest) = none := by
  rw [walk.eq_def]
  dsimp only
  rw [if_pos h]
  simp only [hnone]

/-- There is one symbolic link too many. -/
theorem walk_loop {target : Route Name} (hlink : t.entry (place ++ [name]) = some (.link target)) :
    t.walk 0 place (.enter name :: rest) = none := by
  rw [walk.eq_def]
  dsimp only
  rw [if_pos h]
  simp only [hlink]

theorem walk_link {target : Route Name} (hlink : t.entry (place ++ [name]) = some (.link target)) :
    t.walk (links + 1) place (.enter name :: rest) = t.walk links (target.origin place) (target.moves ++ rest) := by
  rw [walk.eq_def]
  dsimp only
  rw [if_pos h]
  simp only [hlink]

theorem walk_enter {e : Entry Name Content} (he : t.entry (place ++ [name]) = some e)
    (hlink : ∀ target, e ≠ .link target) :
    t.walk links place (.enter name :: rest) = t.walk links (place ++ [name]) rest := by
  rw [walk.eq_def]
  dsimp only
  rw [if_pos h]
  cases e with
  | link target => exact absurd rfl (hlink target)
  | _ => simp only [he]

end

/-- A walk, one part behind the other. -/
theorem walk_append (links : ℕ) (place : List Name) (moves moves' : List (Move Name)) :
    t.walk links place (moves ++ moves') = (t.walk links place moves).bind fun r => t.walk r.2 r.1 moves' := by
  -- The cases of a walk: its end, the moves, a name that is missing, a link or something else, and no directory.
  induction links, place, moves using walk.induct t with
  | case1 links place => rw [List.nil_append, walk_nil, Option.bind_some]
  | case2 links place rest hdir ih => rw [List.cons_append, walk_stay hdir, walk_stay hdir, ih]
  | case3 links place rest hdir ih => rw [List.cons_append, walk_up hdir, walk_up hdir, ih]
  | case4 links place rest hdir name hnone =>
    rw [List.cons_append, walk_missing hdir _ hnone, walk_missing hdir _ hnone, Option.bind_none]
  | case5 place rest hdir name target hlink =>
    rw [List.cons_append, walk_loop hdir _ hlink, walk_loop hdir _ hlink, Option.bind_none]
  | case6 place rest hdir name target hlink links ih =>
    rw [List.cons_append, walk_link hdir _ hlink, walk_link hdir _ hlink, ← List.append_assoc, ih]
  | case7 links place rest hdir name e hlink he ih =>
    rw [List.cons_append, walk_enter hdir _ he hlink, walk_enter hdir _ he hlink, ih]
  | case8 links place move rest hdir =>
    rw [List.cons_append, walk_of_not_directory hdir, walk_of_not_directory hdir, Option.bind_none]

section

variable {move : Move Name} {rest : List (Move Name)} {r : List Name × ℕ}

theorem directory_of_walk (h : t.walk links place (move :: rest) = some r) : t.entry place = some .directory := by
  by_contra hdir
  rw [walk_of_not_directory hdir] at h
  cases h

theorem entry_of_walk (h : t.walk links place (.enter name :: rest) = some r) :
    ∃ e, t.entry (place ++ [name]) = some e := by
  rw [← Option.ne_none_iff_exists']
  intro hnone
  rw [walk_missing (directory_of_walk h) _ hnone] at h
  cases h

end

/-- Where a walk leads in two file systems, it leads where there is what they have in common. -/
theorem walk_common {t₁ t₂ t' : FileTree Name Content}
    (h : ∀ q e e', t₁.entry q = some e → t₂.entry q = some e' → e' = e ∧ t'.entry q = some e)
    {links : ℕ} {place : List Name} {moves : List (Move Name)} {r r' : List Name × ℕ}
    (hwalk : t₁.walk links place moves = some r) (hwalk' : t₂.walk links place moves = some r') :
    t'.walk links place moves = some r := by
  induction links, place, moves using walk.induct t₁ with
  | case1 links place => rwa [walk_nil] at hwalk ⊢
  | case2 links place rest hdir ih =>
    have hdir' := directory_of_walk hwalk'
    rw [walk_stay hdir] at hwalk
    rw [walk_stay hdir'] at hwalk'
    rw [walk_stay (h _ _ _ hdir hdir').2, ih hwalk hwalk']
  | case3 links place rest hdir ih =>
    have hdir' := directory_of_walk hwalk'
    rw [walk_up hdir] at hwalk
    rw [walk_up hdir'] at hwalk'
    rw [walk_up (h _ _ _ hdir hdir').2, ih hwalk hwalk']
  | case4 links place rest hdir name hnone =>
    rw [walk_missing hdir _ hnone] at hwalk
    cases hwalk
  | case5 place rest hdir name target hlink =>
    rw [walk_loop hdir _ hlink] at hwalk
    cases hwalk
  | case6 place rest hdir name target hlink links ih =>
    have hdir' := directory_of_walk hwalk'
    obtain ⟨e, he⟩ := entry_of_walk hwalk'
    obtain ⟨rfl, hlink'⟩ := h _ _ _ hlink he
    rw [Nat.succ_eq_add_one] at hwalk hwalk' ⊢
    rw [walk_link hdir _ hlink] at hwalk
    rw [walk_link hdir' _ he] at hwalk'
    rw [walk_link (h _ _ _ hdir hdir').2 _ hlink', ih hwalk hwalk']
  | case7 links place rest hdir name e hlink he ih =>
    have hdir' := directory_of_walk hwalk'
    obtain ⟨e', he'⟩ := entry_of_walk hwalk'
    obtain ⟨rfl, hentry⟩ := h _ _ _ he he'
    rw [walk_enter hdir _ he hlink] at hwalk
    rw [walk_enter hdir' _ he' hlink] at hwalk'
    rw [walk_enter (h _ _ _ hdir hdir').2 _ hentry hlink, ih hwalk hwalk']
  | case8 links place move rest hdir =>
    rw [walk_of_not_directory hdir] at hwalk
    cases hwalk

/-- A walk leads to the same place where there are more entries. -/
theorem walk_mono {t' : FileTree Name Content} (h : t.Sub t') {links : ℕ} {place : List Name}
    {moves : List (Move Name)} {r : List Name × ℕ} (hwalk : t.walk links place moves = some r) :
    t'.walk links place moves = some r :=
  walk_common (fun q e _ he he' => ⟨Option.some.inj (he'.symm.trans he), h q e he⟩) hwalk hwalk

/-! ## Routes -/

section

variable (t) (links : ℕ) (cwd : List Name) (route : Route Name)

/-- Where a route leads, symbolic links followed. -/
def follow : Option (List Name) := (t.walk links (route.origin cwd) route.moves).map Prod.fst

/-- The directory in which the last name of a route is looked for, and that name. -/
def last : Option (List Name × Name) :=
  match route.moves.getLast? with
  | some (.enter name) =>
    (t.walk links (route.origin cwd) route.moves.dropLast).bind fun r =>
      if t.entry r.1 = some .directory then some (r.1, name) else none
  | _ => none

/-- What a route is the path of, the last name not followed. -/
def lstat : Option (Entry Name Content) :=
  match t.last links cwd route with
  | some (dir, name) => t.entry (dir ++ [name])
  | none => (t.follow links cwd route).bind t.entry

/-- The place that a route is the path of, the last name not followed. -/
def lplace : Option (List Name) :=
  match t.last links cwd route with
  | some (dir, name) => some (dir ++ [name])
  | none => t.follow links cwd route

/-- The place that a route leads to or that a new entry would have. -/
def target : Option (List Name) :=
  (t.follow links cwd route).or ((t.last links cwd route).map fun (dir, name) => dir ++ [name])

/-- The entry of a route is removed, if it is no directory. -/
def unlink : Option (FileTree Name Content) :=
  (t.last links cwd route).bind fun (dir, name) =>
    if h : t.entry (dir ++ [name]) ≠ none ∧ t.entry (dir ++ [name]) ≠ some .directory then
      some (t.remove (dir ++ [name]) (entry_concat_eq_none h.2))
    else none

/-- The entry of a route is removed, if it is a directory with nothing in it. -/
def rmdir : Option (FileTree Name Content) :=
  (t.last links cwd route).bind fun (dir, name) =>
    if h : t.entry (dir ++ [name]) = some .directory ∧ t.names (dir ++ [name]) = [] then
      some (t.remove (dir ++ [name]) (names_eq_nil.mp h.2))
    else none

end

/-- The route with one name more. -/
def Route.concat (route : Route Name) (name : Name) : Route Name := ⟨route.absolute, route.moves ++ [.enter name]⟩

/-- The file systems differ in that there is nothing at a place any more. -/
def Removed (t t' : FileTree Name Content) (place : List Name) : Prop :=
  t'.entry place = none ∧ ∀ q ≠ place, t'.entry q = t.entry q

theorem Removed.sub {t' : FileTree Name Content} (h : t.Removed t' place) : t'.Sub t := by
  intro q e he
  by_cases hq : q = place
  · rw [hq, h.1] at he
    cases he
  · rwa [h.2 q hq] at he

variable {t' : FileTree Name Content} {links : ℕ} {cwd : List Name} {route : Route Name} {dir : List Name}

theorem removed_remove (hempty : ∀ below, t.entry (dir ++ [name] ++ [below]) = none) :
    t.Removed (t.remove (dir ++ [name]) hempty) (dir ++ [name]) :=
  ⟨entry_remove (by simp), fun _ hq => entry_remove_of_ne hq⟩

theorem follow_mono (h : t.Sub t') (hfollow : t.follow links cwd route = some place) :
    t'.follow links cwd route = some place := by
  obtain ⟨r, hwalk, hr⟩ := Option.map_eq_some_iff.mp hfollow
  rw [follow, walk_mono h hwalk, Option.map_some, hr]

/-- The last name of a route is looked for where the moves in front of it lead. -/
theorem last_eq_some : t.last links cwd route = some (dir, name) ↔ ∃ moves left,
    route.moves = moves ++ [.enter name] ∧ t.walk links (route.origin cwd) moves = some (dir, left) ∧
      t.entry dir = some .directory := by
  unfold last
  constructor
  · intro h
    split at h
    case h_1 name' hlast =>
      obtain ⟨⟨dir', left⟩, hwalk, h⟩ := Option.bind_eq_some_iff.mp h
      obtain ⟨hdir, h⟩ := Option.ite_none_right_eq_some.mp h
      obtain ⟨rfl, rfl⟩ := Prod.mk.inj (Option.some.inj h)
      exact ⟨_, left, (List.dropLast_append_getLast? _ hlast).symm, hwalk, hdir⟩
    case h_2 => cases h
  · rintro ⟨moves, left, hmoves, hwalk, hdir⟩
    rw [hmoves, List.getLast?_concat, List.dropLast_concat]
    dsimp only
    rw [hwalk, Option.bind_some, if_pos hdir]

theorem last_mono (h : t.Sub t') (hlast : t.last links cwd route = some (dir, name)) :
    t'.last links cwd route = some (dir, name) := by
  obtain ⟨moves, left, hmoves, hwalk, hdir⟩ := last_eq_some.mp hlast
  exact last_eq_some.mpr ⟨moves, left, hmoves, walk_mono h hwalk, h _ _ hdir⟩

/-- A route leads to its last entry, if that is no symbolic link. -/
theorem follow_of_last (hlast : t.last links cwd route = some (dir, name)) {e : Entry Name Content}
    (he : t.entry (dir ++ [name]) = some e) (hlink : ∀ target, e ≠ .link target) :
    t.follow links cwd route = some (dir ++ [name]) := by
  obtain ⟨moves, left, hmoves, hwalk, hdir⟩ := last_eq_some.mp hlast
  rw [follow, hmoves, walk_append, hwalk, Option.bind_some, walk_enter hdir _ he hlink, walk_nil, Option.map_some]

/-- What a new entry is the last one of leads nowhere. -/
theorem follow_of_new (hlast : t.last links cwd route = some (dir, name)) (hnone : t.entry (dir ++ [name]) = none) :
    t.follow links cwd route = none := by
  obtain ⟨moves, left, hmoves, hwalk, hdir⟩ := last_eq_some.mp hlast
  rw [follow, hmoves, walk_append, hwalk, Option.bind_some, walk_missing hdir _ hnone, Option.map_none]

theorem target_of_new (hlast : t.last links cwd route = some (dir, name)) (hnone : t.entry (dir ++ [name]) = none) :
    t.target links cwd route = some (dir ++ [name]) := by
  rw [target, follow_of_new hlast hnone, hlast, Option.none_or, Option.map_some]

theorem last_concat (hfollow : t.follow links cwd route = some dir) (hdir : t.entry dir = some .directory) :
    t.last links cwd (route.concat name) = some (dir, name) := by
  obtain ⟨⟨dir', left⟩, hwalk, rfl⟩ := Option.map_eq_some_iff.mp hfollow
  exact last_eq_some.mpr ⟨route.moves, left, rfl, hwalk, hdir⟩

theorem of_last_concat {dir' : List Name} {name' : Name} (hfollow : t.follow links cwd route = some dir)
    (hlast : t.last links cwd (route.concat name) = some (dir', name')) : dir' = dir ∧ name' = name := by
  obtain ⟨moves, left, hmoves, hwalk, -⟩ := last_eq_some.mp hlast
  obtain ⟨rfl, hname⟩ := List.append_inj' hmoves rfl
  obtain ⟨r, hwalk', rfl⟩ := Option.map_eq_some_iff.mp hfollow
  have heq := Option.some.inj (hwalk'.symm.trans hwalk)
  rw [heq]
  cases hname
  exact ⟨rfl, rfl⟩

/-- What is removed by `unlink`. -/
theorem of_unlink (h : t.unlink links cwd route = some t') : ∃ dir name, t.last links cwd route = some (dir, name) ∧
    t.entry (dir ++ [name]) ≠ none ∧ t.entry (dir ++ [name]) ≠ some .directory ∧ t.Removed t' (dir ++ [name]) := by
  obtain ⟨⟨dir, name⟩, hlast, h⟩ := Option.bind_eq_some_iff.mp h
  dsimp only at h
  split at h
  case isTrue hentry =>
    cases h
    exact ⟨dir, name, hlast, hentry.1, hentry.2, removed_remove _⟩
  case isFalse => cases h

/-- What is removed by `rmdir`. -/
theorem of_rmdir (h : t.rmdir links cwd route = some t') : ∃ dir name, t.last links cwd route = some (dir, name) ∧
    t.entry (dir ++ [name]) = some .directory ∧ t.names (dir ++ [name]) = [] ∧ t.Removed t' (dir ++ [name]) := by
  obtain ⟨⟨dir, name⟩, hlast, h⟩ := Option.bind_eq_some_iff.mp h
  dsimp only at h
  split at h
  case isTrue hentry =>
    cases h
    exact ⟨dir, name, hlast, hentry.1, hentry.2, removed_remove _⟩
  case isFalse => cases h

/-! ## New entries -/

variable (t) in
/-- An entry is made at a route, if there is none: the file system with it, and where it is. -/
def add (links : ℕ) (cwd : List Name) (route : Route Name) (e : Entry Name Content) :
    Option (FileTree Name Content × List Name × Name) :=
  (t.last links cwd route).bind fun (dir, name) =>
    if h : t.entry dir = some .directory ∧ t.entry (dir ++ [name]) = none then
      some (t.put dir name e h.1 (entry_concat_eq_none (h.2 ▸ nofun)), dir, name)
    else none

variable (t) in
/-- What is at a place and is no directory is something else now. -/
def write (dir : List Name) (name : Name) (e : Entry Name Content) : Option (FileTree Name Content) :=
  if h : t.entry dir = some .directory ∧ t.entry (dir ++ [name]) ≠ none ∧ t.entry (dir ++ [name]) ≠ some .directory then
    some (t.put dir name e h.1 (entry_concat_eq_none h.2.2))
  else none

/-- The file systems differ in what is at a place. -/
def Put (t t' : FileTree Name Content) (place : List Name) (e : Entry Name Content) : Prop :=
  t'.entry place = some e ∧ ∀ q ≠ place, t'.entry q = t.entry q

theorem Put.sub {e : Entry Name Content} (h : t.Put t' place e) (hnone : t.entry place = none) : t.Sub t' := by
  intro q e' he
  have hq : q ≠ place := by
    rintro rfl
    rw [hnone] at he
    cases he
  rwa [h.2 q hq]

theorem of_add {e : Entry Name Content} (h : t.add links cwd route e = some (t', dir, name)) :
    t.last links cwd route = some (dir, name) ∧ t.entry (dir ++ [name]) = none ∧ t.Put t' (dir ++ [name]) e := by
  obtain ⟨⟨dir', name'⟩, hlast, h⟩ := Option.bind_eq_some_iff.mp h
  dsimp only at h
  split at h
  case isTrue hentry =>
    cases h
    exact ⟨hlast, hentry.2, entry_put, fun _ hq => entry_put_of_ne hq⟩
  case isFalse => cases h

theorem add_of_last {e : Entry Name Content} (hlast : t.last links cwd route = some (dir, name))
    (hnone : t.entry (dir ++ [name]) = none) :
    ∃ t', t.add links cwd route e = some (t', dir, name) ∧ t.Put t' (dir ++ [name]) e := by
  obtain ⟨-, -, -, -, hdir⟩ := last_eq_some.mp hlast
  refine ⟨t.put dir name e hdir (entry_concat_eq_none (hnone ▸ nofun)), ?_, entry_put, fun _ hq => entry_put_of_ne hq⟩
  rw [add, hlast, Option.bind_some]
  exact dif_pos ⟨hdir, hnone⟩

theorem of_write {e : Entry Name Content} (h : t.write dir name e = some t') : t.Put t' (dir ++ [name]) e := by
  unfold write at h
  split at h
  case isTrue hentry =>
    cases h
    exact ⟨entry_put, fun _ hq => entry_put_of_ne hq⟩
  case isFalse => cases h

theorem write_of_entry {e old : Entry Name Content} (hold : t.entry (dir ++ [name]) = some old) (hnot : old ≠ .directory) :
    ∃ t', t.write dir name e = some t' ∧ t.Put t' (dir ++ [name]) e := by
  have hdir := directory_of_entry (hold ▸ Option.some_ne_none old)
  have hnot' : t.entry (dir ++ [name]) ≠ some .directory := fun h => hnot (Option.some.inj (hold.symm.trans h))
  refine ⟨_, dif_pos ⟨hdir, hold ▸ Option.some_ne_none old, hnot'⟩, entry_put, fun _ hq => entry_put_of_ne hq⟩

end FileTree
