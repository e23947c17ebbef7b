import Unics.Lib.Forest

/-!
# Tables of named entries as maps from paths

A `Tree` whose siblings have distinct names is a map from paths to entries: a path is the list of
names from the root down, and no two entries lie at the same one. `Lies` puts an entry at its path,
`pathOf` is the path of an index, and `pathMap view nodes` is the map, through a view that keeps of
an entry what its users know.

The three changes a table makes are the three changes of one point of the map: `pathMap_insert`,
`pathMap_remove` and `pathMap_replace`. So a program that keeps such a table can be compared with
one that keeps a map.
-/

namespace Unics.Lib

variable {ι α ν β : Type*}

/-! ## Where an entry lies -/

/-- The entry at an index lies at a path: the names on the way down from the root. -/
inductive Lies (parent : α → Option ι) (name : α → ν) (root : ι) (nodes : ι → Option α) :
    List ν → ι → Prop
  | root : Lies parent name root nodes [] root
  | into {path : List ν} {d i : ι} {a : α} : Lies parent name root nodes path d →
      nodes i = some a → parent a = some d → Lies parent name root nodes (path ++ [name a]) i

/-- Two entries with the same parent and name are the same. -/
def Siblings (parent : α → Option ι) (name : α → ν) (nodes : ι → Option α) : Prop :=
  ∀ i j a b, nodes i = some a → nodes j = some b → parent a = parent b → name a = name b → i = j

section Lies

variable {parent : α → Option ι} {name : α → ν} {inner : α → Prop} {nodes : ι → Option α}
  {root : ι}

/-- The empty path is the root's. -/
theorem Lies.eq_root {i : ι} (h : Lies parent name root nodes [] i) : i = root := by
  generalize hnil : [] = path at h
  cases h with
  | root => rfl
  | into => exact absurd hnil.symm (List.append_ne_nil_of_right_ne_nil _ (List.cons_ne_nil _ _))

/-- At a path with a last name lies an entry of that name, under the one at the path without it. -/
theorem lies_concat_iff {path : List ν} {n : ν} {i : ι} :
    Lies parent name root nodes (path ++ [n]) i ↔
      ∃ d a, Lies parent name root nodes path d ∧ nodes i = some a ∧ parent a = some d ∧
        name a = n := by
  constructor
  · intro h
    generalize hwhole : path ++ [n] = whole at h
    cases h with
    | root =>
      exact absurd hwhole (List.append_ne_nil_of_right_ne_nil _ (List.cons_ne_nil _ _))
    | into hd ha hpar =>
      obtain ⟨rfl, hlast⟩ := List.append_inj' hwhole rfl
      exact ⟨_, _, hd, ha, hpar, (List.cons.inj hlast).1.symm⟩
  · rintro ⟨d, a, hd, ha, hpar, rfl⟩
    exact hd.into ha hpar

/-- One entry lies at a path. -/
theorem Lies.index_unique (hs : Siblings parent name nodes) {path : List ν} {i j : ι}
    (hi : Lies parent name root nodes path i) (hj : Lies parent name root nodes path j) :
    i = j := by
  induction hi generalizing j with
  | root => exact hj.eq_root.symm
  | into _ ha hpar ih =>
    obtain ⟨e, b, he, hb, hbpar, hname⟩ := lies_concat_iff.mp hj
    obtain rfl := ih he
    exact hs _ _ _ _ ha hb (hpar.trans hbpar.symm) hname.symm

/-- Nothing that has a parent is the root. -/
theorem Tree.ne_root (h : Tree parent inner nodes root) {i d : ι} {a : α} (ha : nodes i = some a)
    (hpar : parent a = some d) : i ≠ root := by
  rintro rfl
  obtain ⟨b, hb, -, hnone⟩ := h.top
  obtain rfl := Option.some.inj (hb.symm.trans ha)
  exact absurd (hpar.symm.trans hnone) (Option.some_ne_none d)

/-- Nothing hangs under an index that is free. -/
theorem Tree.not_child_of_free (h : Tree parent inner nodes root) {i k : ι} {b : α}
    (hfree : nodes i = none) (hb : nodes k = some b) : parent b ≠ some i := by
  intro hpar
  obtain ⟨j, c, hj, hc, -⟩ := h.parents k b hb (h.ne_root hb hpar)
  obtain rfl := Option.some.inj (hj.symm.trans hpar)
  rw [hfree] at hc
  exact absurd hc.symm (Option.some_ne_none c)

/-- An entry lies at one path. -/
theorem Lies.path_unique (h : Tree parent inner nodes root) {p q : List ν} {i : ι}
    (hp : Lies parent name root nodes p i) (hq : Lies parent name root nodes q i) : p = q := by
  induction hp generalizing q with
  | root =>
    cases hq with
    | root => rfl
    | into _ ha hpar => exact absurd rfl (h.ne_root ha hpar)
  | into _ ha hpar ih =>
    cases hq with
    | root => exact absurd rfl (h.ne_root ha hpar)
    | into hq hb hbpar =>
      obtain rfl := Option.some.inj (ha.symm.trans hb)
      obtain rfl := Option.some.inj (hpar.symm.trans hbpar)
      rw [ih hq]

/-- Every entry lies somewhere. -/
theorem Tree.exists_lies (h : Tree parent inner nodes root) (name : α → ν) {i : ι} {a : α}
    (ha : nodes i = some a) : ∃ path, Lies parent name root nodes path i := by
  obtain ⟨indices, hclimb⟩ := h.climbs i a ha
  clear ha
  induction hclimb with
  | root => exact ⟨[], .root⟩
  | up hb hpar _ ih =>
    obtain ⟨path, hpath⟩ := ih
    exact ⟨_, hpath.into hb hpar⟩

/-- What lies at a path is an entry. -/
theorem Lies.exists_entry (h : Tree parent inner nodes root) {path : List ν} {i : ι}
    (hi : Lies parent name root nodes path i) : ∃ a, nodes i = some a := by
  cases hi with
  | root =>
    obtain ⟨a, ha, -⟩ := h.top
    exact ⟨a, ha⟩
  | into _ ha => exact ⟨_, ha⟩

/-- Paths last as long as the names and links of their entries do. -/
theorem Lies.mono {nodes' : ι → Option α} {path : List ν} {i : ι}
    (hi : Lies parent name root nodes path i)
    (hkeep : ∀ j a, nodes j = some a → ∃ b, nodes' j = some b ∧ parent b = parent a ∧
      name b = name a) : Lies parent name root nodes' path i := by
  induction hi with
  | root => exact .root
  | into _ ha hpar ih =>
    obtain ⟨b, hb, hbpar, hname⟩ := hkeep _ _ ha
    rw [← hname]
    exact ih.into hb (hbpar.trans hpar)

/-- The path of an index, where there is one. -/
noncomputable def pathOf (parent : α → Option ι) (name : α → ν) (root : ι) (nodes : ι → Option α)
    (i : ι) : List ν :=
  open Classical in
  if h : ∃ path, Lies parent name root nodes path i then h.choose else []

theorem Lies.pathOf_eq (h : Tree parent inner nodes root) {path : List ν} {i : ι}
    (hi : Lies parent name root nodes path i) : pathOf parent name root nodes i = path := by
  have found : ∃ path, Lies parent name root nodes path i := ⟨path, hi⟩
  rw [pathOf, dif_pos found]
  exact found.choose_spec.path_unique h hi

end Lies

/-! ## Paths after a change -/

section Changes

variable [DecidableEq ι] {parent : α → Option ι} {name : α → ν} {inner : α → Prop}
  {nodes : ι → Option α} {root i : ι} {a b : α} {here path : List ν} {k : ι}

/-- A new entry lies under its parent, and the other entries where they did. -/
theorem lies_insert_iff (h : Tree parent inner nodes root) (hfree : nodes i = none) {d : ι}
    (hpar : parent a = some d) (hd : Lies parent name root nodes here d) :
    Lies parent name root (Function.update nodes i (some a)) path k ↔
      (path = here ++ [name a] ∧ k = i) ∨ Lies parent name root nodes path k := by
  have keep : ∀ {p j}, Lies parent name root nodes p j →
      Lies parent name root (Function.update nodes i (some a)) p j :=
    fun hp => hp.mono fun _ c hc => ⟨c, filled_keeps hfree hc, rfl, rfl⟩
  constructor
  · intro hk
    induction hk with
    | root => exact .inr .root
    | @into path e k b _ hb hbpar ih =>
      rcases filled_iff.mp hb with ⟨rfl, rfl⟩ | ⟨-, hold⟩
      · obtain rfl := Option.some.inj (hpar.symm.trans hbpar)
        rcases ih with ⟨-, rfl⟩ | ih
        · -- the new entry is not its own parent: its parent was there before it
          obtain ⟨c, hc⟩ := hd.exists_entry h
          exact absurd (hfree.symm.trans hc) (Option.some_ne_none c).symm
        · exact .inl ⟨by rw [ih.path_unique h hd], rfl⟩
      · rcases ih with ⟨-, rfl⟩ | ih
        · exact absurd hbpar (h.not_child_of_free hfree hold)
        · exact .inr (ih.into hold hbpar)
  · rintro (⟨rfl, rfl⟩ | hk)
    · exact (keep hd).into (Function.update_self ..) hpar
    · exact keep hk

/-- When an entry without children goes, the others stay where they are. -/
theorem lies_remove_iff (hroot : i ≠ root)
    (hleaf : ∀ j c, nodes j = some c → parent c ≠ some i) :
    Lies parent name root (Function.update nodes i none) path k ↔
      Lies parent name root nodes path k ∧ k ≠ i := by
  constructor
  · intro hk
    induction hk with
    | root => exact ⟨.root, hroot.symm⟩
    | into _ hb hbpar ih =>
      obtain ⟨hki, hb⟩ := cleared_iff.mp hb
      exact ⟨ih.1.into hb hbpar, hki⟩
  · rintro ⟨hk, hki⟩
    induction hk with
    | root => exact .root
    | into _ hb hbpar ih =>
      exact (ih fun heq => hleaf _ _ hb (heq ▸ hbpar)).into (cleared_iff.mpr ⟨hki, hb⟩) hbpar

/-- A change to an entry that keeps its name and link moves nothing. -/
theorem lies_replace_iff (ha : nodes i = some a) (hpar : parent b = parent a)
    (hname : name b = name a) :
    Lies parent name root (Function.update nodes i (some b)) path k ↔
      Lies parent name root nodes path k := by
  constructor
  · refine fun hk => hk.mono fun j c hc => ?_
    rcases filled_iff.mp hc with ⟨rfl, rfl⟩ | ⟨_, hc⟩
    · exact ⟨a, ha, hpar.symm, hname.symm⟩
    · exact ⟨c, hc, rfl, rfl⟩
  · refine fun hk => hk.mono fun j c hc => ?_
    by_cases hj : j = i
    · subst hj
      obtain rfl := Option.some.inj (ha.symm.trans hc)
      exact ⟨b, Function.update_self .., hpar, hname⟩
    · exact ⟨c, filled_iff.mpr (.inr ⟨hj, hc⟩), rfl, rfl⟩

end Changes

/-! ## The map -/

/-- What lies at each path, through a view of the entries. -/
noncomputable def pathMap (parent : α → Option ι) (name : α → ν) (root : ι) (view : α → β)
    (nodes : ι → Option α) (path : List ν) : Option β :=
  open Classical in
  if h : ∃ x i a, Lies parent name root nodes path i ∧ nodes i = some a ∧ view a = x then
    some h.choose
  else none

section Map

variable {parent : α → Option ι} {name : α → ν} {inner : α → Prop} {view : α → β}
  {nodes : ι → Option α} {root i : ι} {path here : List ν} {a b : α}

theorem pathMap_eq_some_iff (hs : Siblings parent name nodes) {x : β} :
    pathMap parent name root view nodes path = some x ↔
      ∃ i a, Lies parent name root nodes path i ∧ nodes i = some a ∧ view a = x := by
  rw [pathMap]
  split
  · next h =>
    obtain ⟨j, b, hj, hb, hview⟩ := h.choose_spec
    rw [Option.some.injEq]
    constructor
    · rintro rfl
      exact h.choose_spec
    · rintro ⟨i, a, hi, ha, rfl⟩
      obtain rfl := hj.index_unique hs hi
      obtain rfl := Option.some.inj (hb.symm.trans ha)
      exact hview.symm
  · next h =>
    refine iff_of_false (Option.some_ne_none x).symm fun hx => h ⟨x, hx⟩

/-- The map at the path of an entry. -/
theorem Lies.pathMap_eq (hs : Siblings parent name nodes)
    (hi : Lies parent name root nodes path i) (ha : nodes i = some a) :
    pathMap parent name root view nodes path = some (view a) :=
  (pathMap_eq_some_iff hs).mpr ⟨i, a, hi, ha, rfl⟩

/-- The map below a path: the children of the entry there. -/
theorem Lies.pathMap_child_iff (hs : Siblings parent name nodes)
    (hi : Lies parent name root nodes path i) {n : ν} {x : β} :
    pathMap parent name root view nodes (path ++ [n]) = some x ↔
      ∃ k a, nodes k = some a ∧ parent a = some i ∧ name a = n ∧ view a = x := by
  rw [pathMap_eq_some_iff hs]
  constructor
  · rintro ⟨k, a, hk, ha, hview⟩
    obtain ⟨d, b, hd, hb, hpar, hname⟩ := lies_concat_iff.mp hk
    obtain rfl := Option.some.inj (ha.symm.trans hb)
    obtain rfl := hd.index_unique hs hi
    exact ⟨k, a, ha, hpar, hname, hview⟩
  · rintro ⟨k, a, ha, hpar, rfl, hview⟩
    exact ⟨k, a, hi.into ha hpar, ha, hview⟩

/-- Two tables that show the same at every path. -/
theorem pathMap_ext (hs : Siblings parent name nodes) {m : List ν → Option β}
    (h : ∀ path x, m path = some x ↔
      ∃ i a, Lies parent name root nodes path i ∧ nodes i = some a ∧ view a = x) :
    pathMap parent name root view nodes = m := by
  funext path
  refine Option.ext fun x => ?_
  rw [pathMap_eq_some_iff hs, h path x]

variable [DecidableEq ι] [DecidableEq ν]

/-- A new entry is a new point of the map. -/
theorem pathMap_insert (h : Tree parent inner nodes root) (hs : Siblings parent name nodes)
    (hs' : Siblings parent name (Function.update nodes i (some a))) (hfree : nodes i = none)
    {d : ι} (hpar : parent a = some d) (hd : Lies parent name root nodes here d) :
    pathMap parent name root view (Function.update nodes i (some a)) =
      Function.update (pathMap parent name root view nodes) (here ++ [name a])
        (some (view a)) := by
  have new : Lies parent name root (Function.update nodes i (some a)) (here ++ [name a]) i :=
    (lies_insert_iff h hfree hpar hd).mpr (.inl ⟨rfl, rfl⟩)
  refine pathMap_ext hs' fun path x => ?_
  by_cases hpath : path = here ++ [name a]
  · subst hpath
    rw [Function.update_self, Option.some.injEq]
    constructor
    · rintro rfl
      exact ⟨i, a, new, Function.update_self .., rfl⟩
    · rintro ⟨k, b, hk, hb, rfl⟩
      obtain rfl := hk.index_unique hs' new
      rw [Function.update_self] at hb
      rw [Option.some.inj hb]
  · rw [Function.update_of_ne hpath, pathMap_eq_some_iff hs]
    refine exists_congr fun k => exists_congr fun b => ?_
    rw [lies_insert_iff h hfree hpar hd, filled_iff]
    constructor
    · rintro ⟨hk, hb, hview⟩
      refine ⟨.inr hk, .inr ⟨fun heq => ?_, hb⟩, hview⟩
      rw [heq, hfree] at hb
      exact absurd hb.symm (Option.some_ne_none b)
    · rintro ⟨⟨rfl, -⟩ | hk, hb, hview⟩
      · exact absurd rfl hpath
      · rcases hb with ⟨rfl, -⟩ | ⟨-, hb⟩
        · obtain ⟨c, hc⟩ := hk.exists_entry h
          exact absurd (hfree.symm.trans hc) (Option.some_ne_none c).symm
        · exact ⟨hk, hb, hview⟩

/-- The removal of an entry without children clears its point of the map. -/
theorem pathMap_remove (h : Tree parent inner nodes root) (hs : Siblings parent name nodes)
    (hi : Lies parent name root nodes here i) (hroot : i ≠ root)
    (hleaf : ∀ j c, nodes j = some c → parent c ≠ some i) :
    pathMap parent name root view (Function.update nodes i none) =
      Function.update (pathMap parent name root view nodes) here none := by
  have hs' : Siblings parent name (Function.update nodes i none) := by
    intro j k b c hb hc
    exact hs j k b c (cleared_iff.mp hb).2 (cleared_iff.mp hc).2
  refine pathMap_ext hs' fun path x => ?_
  by_cases hpath : path = here
  · subst hpath
    rw [Function.update_self]
    refine iff_of_false (Option.some_ne_none x).symm ?_
    rintro ⟨k, b, hk, hb, -⟩
    exact (cleared_iff.mp hb).1 (((lies_remove_iff hroot hleaf).mp hk).1.index_unique hs hi)
  · rw [Function.update_of_ne hpath, pathMap_eq_some_iff hs]
    refine exists_congr fun k => exists_congr fun b => ?_
    rw [lies_remove_iff hroot hleaf, cleared_iff]
    constructor
    · rintro ⟨hk, hb, hview⟩
      have apart : k ≠ i := fun heq => hpath ((heq ▸ hk).path_unique h hi)
      exact ⟨⟨hk, apart⟩, ⟨apart, hb⟩, hview⟩
    · rintro ⟨⟨hk, -⟩, ⟨-, hb⟩, hview⟩
      exact ⟨hk, hb, hview⟩

/-- A change to an entry that keeps its name and link changes its point of the map. -/
theorem pathMap_replace (h : Tree parent inner nodes root) (hs : Siblings parent name nodes)
    (hi : Lies parent name root nodes here i) (ha : nodes i = some a)
    (hpar : parent b = parent a) (hname : name b = name a) :
    pathMap parent name root view (Function.update nodes i (some b)) =
      Function.update (pathMap parent name root view nodes) here (some (view b)) := by
  have back : ∀ j c, Function.update nodes i (some b) j = some c →
      ∃ e, nodes j = some e ∧ parent c = parent e ∧ name c = name e := by
    intro j c hc
    rcases filled_iff.mp hc with ⟨rfl, rfl⟩ | ⟨_, hc⟩
    · exact ⟨a, ha, hpar, hname⟩
    · exact ⟨c, hc, rfl, rfl⟩
  have hs' : Siblings parent name (Function.update nodes i (some b)) := by
    intro j k c e hc he hcpar hcname
    obtain ⟨c', hc', hp, hn⟩ := back j c hc
    obtain ⟨e', he', hp', hn'⟩ := back k e he
    exact hs j k c' e' hc' he' (hp.symm.trans (hcpar.trans hp'))
      (hn.symm.trans (hcname.trans hn'))
  have hi' : Lies parent name root (Function.update nodes i (some b)) here i :=
    (lies_replace_iff ha hpar hname).mpr hi
  refine pathMap_ext hs' fun path x => ?_
  by_cases hpath : path = here
  · subst hpath
    rw [Function.update_self, Option.some.injEq]
    constructor
    · rintro rfl
      exact ⟨i, b, hi', Function.update_self .., rfl⟩
    · rintro ⟨k, c, hk, hc, rfl⟩
      obtain rfl := hk.index_unique hs' hi'
      rw [Function.update_self] at hc
      rw [Option.some.inj hc]
  · rw [Function.update_of_ne hpath, pathMap_eq_some_iff hs]
    refine exists_congr fun k => exists_congr fun c => ?_
    rw [lies_replace_iff ha hpar hname, filled_iff]
    constructor
    · rintro ⟨hk, hc, hview⟩
      exact ⟨hk, .inr ⟨fun heq => hpath ((heq ▸ hk).path_unique h hi), hc⟩, hview⟩
    · rintro ⟨hk, ⟨rfl, -⟩ | ⟨-, hc⟩, hview⟩
      · exact absurd (hk.path_unique h hi) hpath
      · exact ⟨hk, hc, hview⟩

end Map

end Unics.Lib
