import BitTorrent.Path
import Mathlib.Data.List.Infix

/-! Where a joined path leads. A path has components: a leading `/` or `.`, and then the steps
between its slashes, where `..` goes up by one. A path is within a root if it begins with the
components of the root, and if resolving the `..` without looking at any disk comes to the place of
the root or to one that is reached from it by names only. Joined segments are within every root
exactly if none of them is absolute and, through all of them, no step goes up further than others
have gone down. -/

namespace BitTorrent.Path

inductive Component where
  | root
  /-- A dot at the head of a path; elsewhere dots are left out. -/
  | here
  | up
  | name (chars : List Char)
  deriving DecidableEq

/-- A step goes up or has a name. -/
def Component.IsStep (c : Component) : Prop := c = .up ∨ ∃ chars, c = .name chars

/-- What stands between two slashes; nothing and a dot are no step. -/
def step? (part : List Char) : Option Component :=
  if part = [] ∨ part = ['.'] then none
  else if part = ['.', '.'] then some .up
  else some (.name part)

def steps (path : List Char) : List Component := (path.splitOn '/').filterMap step?

/-- What is in front of the steps. -/
def lead (path : List Char) : List Component :=
  if path.head? = some '/' then [.root]
  else if (path.splitOn '/').head? = some ['.'] then [.here]
  else []

def components (path : List Char) : List Component := lead path ++ steps path

/-- Goes on from a place, which is given from its innermost component on. There is nothing above the
root directory; above a place that is not known there is one more that is not known. -/
def enter (place : List Component) : Component → List Component
  | .root => [.root]
  | .here => place
  | .up =>
    match place with
    | .name _ :: outer => outer
    | .root :: outer => .root :: outer
    | outer => .up :: outer
  | .name chars => .name chars :: place

/-- The place of a path, as far as its text tells. -/
def resolve (path : List Char) : List Component := (components path).foldl enter []

/-- The path begins with the components of the root and leads to its place or to one below. -/
def Within (root path : String) : Prop :=
  components root.toList <+: components path.toList ∧
    ∃ below : List (List Char), resolve path.toList = below.map .name ++ resolve root.toList

/-- From `n` steps below some place on, no step leads above that place. -/
def Level (n : Nat) (cs : List Component) : Prop :=
  ∀ front, front <+: cs → front.count .up ≤ n + front.countP (· ≠ .up)

/-- No segment is absolute, and through all of them no step goes up further than others have gone
down. -/
structure Contained (segments : List String) : Prop where
  relative : ∀ s ∈ segments, s.toList.head? ≠ some '/'
  level : Level 0 (segments.flatMap fun s => steps s.toList)

variable {path a b s : List Char} {segments : List (List Char)}

/-! ### Components -/

theorem steps_append_cons (a b : List Char) : steps (a ++ '/' :: b) = steps a ++ steps b := by
  rw [steps, List.splitOn_append_cons_self, List.filterMap_append]
  rfl

/-- What is behind a slash makes no difference to what is in front of the steps. -/
theorem lead_append_cons (a b : List Char) :
    lead (a ++ '/' :: b) = if a = [] then [.root] else lead a := by
  by_cases ha : a = []
  · subst ha
    rfl
  · have hhead : (a ++ '/' :: b).head? = a.head? := List.head?_append_of_ne_nil a ha
    have hpart : ((a ++ '/' :: b).splitOn '/').head? = (a.splitOn '/').head? := by
      rw [List.splitOn_append_cons_self]
      exact List.head?_append_of_ne_nil _ (List.splitOn_ne_nil '/' a)
    rw [if_neg ha, lead, hhead, hpart, lead]

theorem isStep_of_mem_steps {c : Component} (h : c ∈ steps path) : c.IsStep := by
  obtain ⟨part, -, hpart⟩ := List.mem_filterMap.mp h
  unfold step? at hpart
  split at hpart
  · cases hpart
  · split at hpart
    · exact .inl (Option.some.inj hpart).symm
    · exact .inr ⟨part, (Option.some.inj hpart).symm⟩

theorem lead_of_relative (h : path.head? ≠ some '/') : lead path = [] ∨ lead path = [.here] := by
  rw [lead, if_neg h]
  split
  · exact .inr rfl
  · exact .inl rfl

/-! ### Joining -/

theorem push_nil (s : List Char) : push [] s = s := by
  unfold push
  split
  · rfl
  · rw [if_pos (.inl rfl), List.nil_append]

theorem push_ne_nil (h : path ≠ []) (s : List Char) : push path s ≠ [] := by
  unfold push
  split
  · rintro rfl
    contradiction
  · split
    · simp [h]
    · simp

/-- A relative segment adds its steps. -/
theorem components_push (h : path ≠ []) (hs : s.head? ≠ some '/') :
    components (push path s) = components path ++ steps s := by
  rw [push, if_neg hs]
  by_cases hslash : path.getLast? = some '/'
  · obtain ⟨a, rfl⟩ := List.getLast?_eq_some_iff.mp hslash
    have hsteps : steps (a ++ ['/']) = steps a := by
      rw [steps_append_cons]
      exact List.append_nil _
    rw [if_pos (.inr hslash), List.append_assoc, List.singleton_append, components, components,
      steps_append_cons, hsteps, lead_append_cons, lead_append_cons, List.append_assoc]
  · rw [if_neg (not_or_intro h hslash), components, components, steps_append_cons, lead_append_cons,
      if_neg h, List.append_assoc]

/-- Relative segments add their steps, by induction on them. -/
theorem components_foldl_push (h : path ≠ []) (hs : ∀ s ∈ segments, s.head? ≠ some '/') :
    components (segments.foldl push path) = components path ++ segments.flatMap steps := by
  induction segments generalizing path with
  | nil => rw [List.foldl_nil, List.flatMap_nil, List.append_nil]
  | cons s segments ih =>
    obtain ⟨hhead, htail⟩ := List.forall_mem_cons.mp hs
    rw [List.foldl_cons, ih (push_ne_nil h s) htail, components_push h hhead, List.flatMap_cons,
      List.append_assoc]

/-- Where nothing is in front of them, they may begin with a dot. -/
theorem exists_components_foldl_push (hs : ∀ s ∈ segments, s.head? ≠ some '/') :
    ∃ dot, (dot = [] ∨ dot = [.here]) ∧
      components (segments.foldl push []) = dot ++ segments.flatMap steps := by
  induction segments with
  | nil => exact ⟨[], .inl rfl, rfl⟩
  | cons s segments ih =>
    obtain ⟨hhead, htail⟩ := List.forall_mem_cons.mp hs
    rw [List.foldl_cons, push_nil, List.flatMap_cons]
    by_cases hnil : s = []
    · subst hnil
      exact ih htail
    · refine ⟨lead s, lead_of_relative hhead, ?_⟩
      rw [components_foldl_push hnil htail, components, List.append_assoc]

/-- An absolute segment makes the path absolute. -/
theorem head?_push (h : path.head? = some '/' ∨ s.head? = some '/') :
    (push path s).head? = some '/' := by
  unfold push
  split
  · assumption
  · rename_i hs
    have hpath := h.resolve_right hs
    have hne : path ≠ [] := by
      rintro rfl
      cases hpath
    split
    · rw [List.head?_append_of_ne_nil path hne, hpath]
    · rw [List.head?_append_of_ne_nil path hne, hpath]

theorem head?_foldl_push (h : path.head? = some '/' ∨ ∃ s ∈ segments, s.head? = some '/') :
    (segments.foldl push path).head? = some '/' := by
  induction segments generalizing path with
  | nil => simpa using h
  | cons s segments ih =>
    refine ih ?_
    rcases h with h | ⟨s', hs', h⟩
    · exact .inl (head?_push (.inl h))
    · rcases List.mem_cons.mp hs' with rfl | hmem
      · exact .inl (head?_push (.inr h))
      · exact .inr ⟨s', hmem, h⟩

/-! ### Resolving -/

section Resolving

variable {n : Nat} {c : Component} {cs place : List Component} {chars : List Char}

theorem level_cons : Level n (c :: cs) ↔ ∀ front, front <+: cs →
    (c :: front).count .up ≤ n + (c :: front).countP (· ≠ .up) := by
  constructor
  · intro h front hfront
    exact h (c :: front) ((List.prefix_cons_inj c).mpr hfront)
  · intro h front hfront
    rcases List.prefix_cons_iff.mp hfront with rfl | ⟨rest, rfl, hrest⟩
    · exact Nat.zero_le _
    · exact h rest hrest

theorem level_cons_up : Level n (.up :: cs) ↔ ∃ m, n = m + 1 ∧ Level m cs := by
  have hcount (front : List Component) : (Component.up :: front).count .up = front.count .up + 1 :=
    List.count_cons_self
  have hnames (front : List Component) :
      (Component.up :: front).countP (· ≠ .up) = front.countP (· ≠ .up) :=
    List.countP_cons_of_neg (by simp)
  simp only [level_cons, hcount, hnames]
  constructor
  · intro h
    have hfirst := h [] List.nil_prefix
    rw [List.count_nil, List.countP_nil] at hfirst
    refine ⟨n - 1, by omega, fun front hfront => ?_⟩
    have hnext := h front hfront
    omega
  · rintro ⟨m, rfl, h⟩ front hfront
    have hnext := h front hfront
    omega

theorem level_cons_name : Level n (.name chars :: cs) ↔ Level (n + 1) cs := by
  have hcount (front : List Component) :
      (Component.name chars :: front).count .up = front.count .up :=
    List.count_cons_of_ne (by simp)
  have hnames (front : List Component) :
      (Component.name chars :: front).countP (· ≠ .up) = front.countP (· ≠ .up) + 1 :=
    List.countP_cons_of_pos (by simp)
  simp only [level_cons, hcount, hnames]
  constructor
  · intro h front hfront
    have hnext := h front hfront
    omega
  · intro h front hfront
    have hnext := h front hfront
    omega

theorem level_nil (n : Nat) : Level n [] := by
  intro front hfront
  rw [List.prefix_nil.mp hfront]
  exact Nat.zero_le _

/-- While no step leads above a place, what is left of all steps are names below it. -/
theorem exists_below_of_level (below : List (List Char)) (hcs : ∀ c ∈ cs, c.IsStep)
    (h : Level below.length cs) :
    ∃ below' : List (List Char), cs.foldl enter (below.map .name ++ place) =
      below'.map .name ++ place := by
  induction cs generalizing below with
  | nil => exact ⟨below, rfl⟩
  | cons c cs ih =>
    obtain ⟨hc, htail⟩ := List.forall_mem_cons.mp hcs
    rcases hc with rfl | ⟨chars, rfl⟩
    · obtain ⟨m, hm, hlevel⟩ := level_cons_up.mp h
      cases below with
      | nil => cases hm
      | cons outer below =>
        obtain rfl : below.length = m := Nat.succ.inj hm
        exact ih below htail hlevel
    · exact ih (chars :: below) htail (level_cons_name.mp h)

/-- What is not a name stays in a place once it is there. -/
theorem mem_foldl_enter (hc : ∀ chars, c ≠ .name chars) (hcs : ∀ c ∈ cs, c.IsStep)
    (h : c ∈ place) : c ∈ cs.foldl enter place := by
  induction cs generalizing place with
  | nil => exact h
  | cons s cs ih =>
    obtain ⟨hs, htail⟩ := List.forall_mem_cons.mp hcs
    refine ih htail ?_
    rcases hs with rfl | ⟨chars, rfl⟩
    · simp only [enter]
      split
      · exact (List.mem_cons.mp h).resolve_left (hc _)
      · exact h
      · exact List.mem_cons_of_mem _ h
    · exact List.mem_cons_of_mem _ h

/-- From a place that is known by names only, a step above it is never undone. -/
theorem level_of_foldl_enter (below : List (List Char)) {below' : List (List Char)}
    (hcs : ∀ c ∈ cs, c.IsStep) (h : cs.foldl enter (below.map .name) = below'.map .name) :
    Level below.length cs := by
  induction cs generalizing below with
  | nil => exact level_nil _
  | cons c cs ih =>
    obtain ⟨hc, htail⟩ := List.forall_mem_cons.mp hcs
    rcases hc with rfl | ⟨chars, rfl⟩
    · cases below with
      | nil =>
        have hup : .up ∈ cs.foldl enter [.up] := mem_foldl_enter nofun htail List.mem_cons_self
        have hnames : cs.foldl enter [.up] = below'.map .name := h
        simp [hnames] at hup
      | cons outer below => exact level_cons_up.mpr ⟨below.length, rfl, ih below htail h⟩
    · exact level_cons_name.mpr (ih (chars :: below) htail h)

end Resolving

/-! ### Segments under a root -/

theorem toList_join (root : String) (segments : List String) :
    (join (root :: segments)).toList = (segments.map String.toList).foldl push root.toList := by
  rw [join, String.toList_ofList, List.foldl_cons, push_nil, List.foldl_map]

theorem isStep_of_mem_flatMap {c : Component} (h : c ∈ segments.flatMap steps) : c.IsStep := by
  obtain ⟨s, -, hs⟩ := List.mem_flatMap.mp h
  exact isStep_of_mem_steps hs

/-- Contained segments are joined to a path within any root. -/
theorem Contained.within {segments : List String} (h : Contained segments) (root : String) :
    Within root (join (root :: segments)) := by
  have hrelative : ∀ s ∈ segments.map String.toList, s.head? ≠ some '/' :=
    List.forall_mem_map.mpr h.relative
  obtain ⟨dot, hdot, hcomponents⟩ : ∃ dot, (dot = [] ∨ dot = [.here]) ∧
      components (join (root :: segments)).toList = components root.toList ++
        (dot ++ (segments.map String.toList).flatMap steps) := by
    rw [toList_join]
    by_cases hroot : root.toList = []
    · rw [hroot]
      exact exists_components_foldl_push hrelative
    · exact ⟨[], .inl rfl, components_foldl_push hroot hrelative⟩
  have hlevel : Level 0 ((segments.map String.toList).flatMap steps) := by
    rw [List.flatMap_map]
    exact h.level
  refine ⟨⟨_, hcomponents.symm⟩, ?_⟩
  have hresolve : resolve (join (root :: segments)).toList =
      ((segments.map String.toList).flatMap steps).foldl enter (resolve root.toList) := by
    rw [resolve, hcomponents, List.foldl_append, List.foldl_append]
    rcases hdot with rfl | rfl <;> rfl
  rw [hresolve]
  exact exists_below_of_level [] (fun c => isStep_of_mem_flatMap) hlevel

/-- Segments that are joined to a path within the root that has no components are contained. -/
theorem contained_of_within {segments : List String} (h : Within "" (join ("" :: segments))) :
    Contained segments := by
  obtain ⟨-, below, hbelow⟩ := h
  have hnames : resolve ((segments.map String.toList).foldl push []) = below.map .name := by
    have hjoin : (join ("" :: segments)).toList = (segments.map String.toList).foldl push [] :=
      toList_join "" segments
    rw [← hjoin, hbelow]
    exact List.append_nil _
  have hrelative : ∀ s ∈ segments, s.toList.head? ≠ some '/' := by
    intro s hs habsolute
    have hhead : ((segments.map String.toList).foldl push []).head? = some '/' :=
      head?_foldl_push (.inr ⟨s.toList, List.mem_map_of_mem hs, habsolute⟩)
    have hroot : .root ∈ resolve ((segments.map String.toList).foldl push []) := by
      rw [resolve, components, lead, if_pos hhead, List.foldl_append]
      exact mem_foldl_enter nofun (fun c => isStep_of_mem_steps) (List.mem_singleton.mpr rfl)
    simp [hnames] at hroot
  refine ⟨hrelative, ?_⟩
  obtain ⟨dot, hdot, hcomponents⟩ :=
    exists_components_foldl_push (List.forall_mem_map.mpr hrelative)
  have hsteps : ((segments.map String.toList).flatMap steps).foldl enter [] = below.map .name := by
    rw [← hnames, resolve, hcomponents, List.foldl_append]
    rcases hdot with rfl | rfl <;> rfl
  have hlevel := level_of_foldl_enter [] (fun c => isStep_of_mem_flatMap) hsteps
  rwa [List.flatMap_map] at hlevel

end BitTorrent.Path
