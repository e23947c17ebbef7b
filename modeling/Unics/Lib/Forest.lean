import Mathlib.Data.Fintype.Fin
import Mathlib.Data.Finset.Card

/-!
# Tables of linked entries

A table gives an entry, or nothing, at each index, and changes one index at a time:
`Function.update nodes i (some a)` fills it and `Function.update nodes i none` clears it. Two
questions come up about such a table.

- *Where are its entries?* `occupied nodes` is the set of filled indices. It is `Compact` when the
  filled indices are the first ones. Filling the lowest free index keeps that; clearing an index
  keeps it exactly when the index is the last filled one.
- *How do they hang together?* Entries carry a link to a parent. `Climb` is the path from an index
  up to the root, and a `Tree` is a table in which every entry has one. A new entry under an inner
  entry and the removal of an entry without children keep a tree.

A path is an inductive derivation and links are functional, so a path never repeats an index:
`Climb.nodup` is the absence of cycles.
-/

namespace Unics.Lib

variable {ι α : Type*}

/-! ## Changes -/

section Changes

variable [DecidableEq ι] {nodes : ι → Option α} {i j : ι} {a b : α}

/-- The entries of a table after an index is filled. -/
theorem filled_iff : Function.update nodes i (some a) j = some b ↔
    (j = i ∧ a = b) ∨ (j ≠ i ∧ nodes j = some b) := by
  by_cases h : j = i
  · subst h
    simp only [Function.update_self, Option.some.injEq, true_and, ne_eq, not_true_eq_false,
      false_and, or_false]
  · simp only [Function.update_of_ne h, h, false_and, ne_eq, not_false_eq_true, true_and, false_or]

/-- The entries of a table after an index is cleared. -/
theorem cleared_iff : Function.update nodes i none j = some b ↔ j ≠ i ∧ nodes j = some b := by
  by_cases h : j = i
  · subst h
    simp only [Function.update_self, reduceCtorEq, ne_eq, not_true_eq_false, false_and]
  · simp only [Function.update_of_ne h, ne_eq, h, not_false_eq_true, true_and]

/-- An entry that is there before an empty index is filled is there afterwards. -/
theorem filled_keeps (hfree : nodes i = none) (hb : nodes j = some b) :
    Function.update nodes i (some a) j = some b := by
  refine filled_iff.mpr (.inr ⟨fun heq => ?_, hb⟩)
  rw [heq, hfree] at hb
  exact absurd hb.symm (Option.some_ne_none b)

/-- What a table holds after an empty index is filled. -/
theorem exists_filled_iff (hfree : nodes i = none) :
    (∃ j, Function.update nodes i (some a) j = some b) ↔ b = a ∨ ∃ j, nodes j = some b := by
  constructor
  · rintro ⟨j, hj⟩
    rcases filled_iff.mp hj with ⟨_, heq⟩ | ⟨_, hj⟩
    · exact .inl heq.symm
    · exact .inr ⟨j, hj⟩
  · rintro (rfl | ⟨j, hj⟩)
    · exact ⟨i, Function.update_self ..⟩
    · exact ⟨j, filled_keeps hfree hj⟩

/-- What a table holds after the only index of an entry is cleared. -/
theorem exists_cleared_iff (hi : nodes i = some a) (only : ∀ j, nodes j = some a → j = i) :
    (∃ j, Function.update nodes i none j = some b) ↔ b ≠ a ∧ ∃ j, nodes j = some b := by
  constructor
  · rintro ⟨j, hj⟩
    obtain ⟨hne, hj⟩ := cleared_iff.mp hj
    exact ⟨fun heq => hne (only j (heq ▸ hj)), j, hj⟩
  · rintro ⟨hne, j, hj⟩
    refine ⟨j, cleared_iff.mpr ⟨fun heq => hne ?_, hj⟩⟩
    rw [heq, hi] at hj
    exact (Option.some.inj hj).symm

end Changes

/-! ## Occupied indices -/

section Occupied

variable [Fintype ι]

/-- The indices that hold an entry. -/
def occupied (nodes : ι → Option α) : Finset ι := Finset.univ.filter fun i => (nodes i).isSome

@[simp] theorem mem_occupied {nodes : ι → Option α} {i : ι} :
    i ∈ occupied nodes ↔ (nodes i).isSome := by
  simp only [occupied, Finset.mem_filter, Finset.mem_univ, true_and]

variable [DecidableEq ι]

theorem occupied_update_some (nodes : ι → Option α) (i : ι) (a : α) :
    occupied (Function.update nodes i (some a)) = insert i (occupied nodes) := by
  ext j
  by_cases h : j = i
  · subst h
    simp only [mem_occupied, Function.update_self, Option.isSome_some, Finset.mem_insert, true_or]
  · simp only [mem_occupied, Function.update_of_ne h, Finset.mem_insert, h, false_or]

theorem occupied_update_none (nodes : ι → Option α) (i : ι) :
    occupied (Function.update nodes i none) = (occupied nodes).erase i := by
  ext j
  by_cases h : j = i
  · subst h
    simp only [mem_occupied, Function.update_self, Option.isSome_none, Bool.false_eq_true,
      Finset.mem_erase, ne_eq, not_true_eq_false, false_and]
  · simp only [mem_occupied, Function.update_of_ne h, Finset.mem_erase, ne_eq, h,
      not_false_eq_true, true_and]

/-- Replacing an entry occupies nothing new. -/
theorem occupied_replace {nodes : ι → Option α} {i : ι} {a : α} (h : nodes i = some a) (b : α) :
    occupied (Function.update nodes i (some b)) = occupied nodes := by
  rw [occupied_update_some]
  exact Finset.insert_eq_of_mem (mem_occupied.mpr (by rw [h]; rfl))

theorem card_occupied_insert {nodes : ι → Option α} {i : ι} (h : nodes i = none) (a : α) :
    (occupied (Function.update nodes i (some a))).card = (occupied nodes).card + 1 := by
  rw [occupied_update_some, Finset.card_insert_of_notMem]
  rw [mem_occupied, h]
  exact Bool.noConfusion

theorem card_occupied_remove {nodes : ι → Option α} {i : ι} {a : α} (h : nodes i = some a) :
    (occupied (Function.update nodes i none)).card = (occupied nodes).card - 1 := by
  rw [occupied_update_none, Finset.card_erase_of_mem]
  rw [mem_occupied, h]
  rfl

end Occupied

/-! ## Compact sets of indices -/

section Compact

variable {n : ℕ} {S : Finset (Fin n)}

/-- The members are the first indices. -/
def Compact (S : Finset (Fin n)) : Prop := ∀ i, i ∈ S ↔ i.val < S.card

/-- No member lies past the count. -/
theorem compact_iff_lt : Compact S ↔ ∀ i ∈ S, i.val < S.card := by
  constructor
  · intro h i hi
    exact (h i).mp hi
  · intro h
    have sub : S ⊆ Finset.univ.filter fun i : Fin n => i.val < S.card := fun i hi =>
      Finset.mem_filter.mpr ⟨Finset.mem_univ i, h i hi⟩
    have card : (Finset.univ.filter fun i : Fin n => i.val < S.card).card ≤ S.card := by
      rw [Fin.card_filter_val_lt]
      exact Nat.min_le_right _ _
    have eq := Finset.eq_of_subset_of_card_le sub card
    intro i
    rw [eq, Finset.mem_filter, ← eq]
    exact ⟨fun hi => hi.2, fun hi => ⟨Finset.mem_univ i, hi⟩⟩

theorem Compact.insert (h : Compact S) {i : Fin n} (hi : i ∉ S) (hlow : ∀ j < i, j ∈ S) :
    Compact (insert i S) := by
  have hge : S.card ≤ i.val := Nat.not_lt.mp fun hlt => hi ((h i).mpr hlt)
  have hle : i.val ≤ S.card := by
    by_contra hgt
    have lt : (⟨S.card, by omega⟩ : Fin n) < i := by
      show S.card < i.val
      omega
    exact absurd ((h _).mp (hlow _ lt)) (Nat.lt_irrefl _)
  intro j
  rw [Finset.mem_insert, Finset.card_insert_of_notMem hi, h j, Fin.ext_iff]
  omega

/-- Only the last member can go. -/
theorem Compact.erase_iff (h : Compact S) {i : Fin n} (hi : i ∈ S) :
    Compact (S.erase i) ↔ ∀ j ∈ S, j ≤ i := by
  have card : (S.erase i).card = S.card - 1 := Finset.card_erase_of_mem hi
  have bound : S.card ≤ n := card_finset_fin_le S
  constructor
  · intro hc j hj
    by_contra hgt
    have ne : j ≠ i := fun heq => hgt (heq ▸ le_refl _)
    have jlt := (h j).mp hj
    -- the last index below the old count is still a member, but not below the new one
    have last : (⟨S.card - 1, by omega⟩ : Fin n) ∈ S.erase i := by
      refine Finset.mem_erase.mpr
        ⟨fun heq => hgt ?_, (h _).mpr (by show S.card - 1 < S.card; omega)⟩
      rw [← heq]
      show j.val ≤ S.card - 1
      omega
    have := (hc _).mp last
    rw [card] at this
    exact Nat.lt_irrefl _ this
  · intro hlast j
    have ilt := (h i).mp hi
    have top : i.val = S.card - 1 := by
      have lt : S.card - 1 < n := by omega
      have := hlast ⟨S.card - 1, lt⟩ ((h _).mpr (by show S.card - 1 < S.card; omega))
      have : S.card - 1 ≤ i.val := this
      omega
    rw [Finset.mem_erase, h j, card, Ne, Fin.ext_iff]
    omega

end Compact

/-! ## Paths to the root -/

section Paths

variable {parent : α → Option ι} {nodes : ι → Option α} {root : ι}

/-- The path from an index up to the root: each entry on it links to the next one, and the root has
no parent. -/
inductive Climb (parent : α → Option ι) (nodes : ι → Option α) (root : ι) : ι → List ι → Prop
  | root {a : α} : nodes root = some a → parent a = none → Climb parent nodes root root [root]
  | up {i j : ι} {a : α} {path : List ι} : nodes i = some a → parent a = some j →
      Climb parent nodes root j path → Climb parent nodes root i (i :: path)

/-- An index has one path. -/
theorem Climb.unique {i : ι} {p q : List ι} (hp : Climb parent nodes root i p)
    (hq : Climb parent nodes root i q) : p = q := by
  induction hp generalizing q with
  | root ha hnone =>
    cases hq with
    | root => rfl
    | up hb hsome =>
      obtain rfl := Option.some.inj (ha.symm.trans hb)
      exact absurd (hnone.symm.trans hsome) (Option.some_ne_none _).symm
  | up ha hsome _ ih =>
    cases hq with
    | root hb hnone =>
      obtain rfl := Option.some.inj (ha.symm.trans hb)
      exact absurd (hnone.symm.trans hsome) (Option.some_ne_none _).symm
    | up hb hsome' hq =>
      obtain rfl := Option.some.inj (ha.symm.trans hb)
      obtain rfl := Option.some.inj (hsome.symm.trans hsome')
      rw [ih hq]

/-- Every index on a path has a path of its own, no longer than the whole. -/
theorem Climb.of_mem {i k : ι} {path : List ι} (h : Climb parent nodes root i path)
    (hk : k ∈ path) : ∃ q, Climb parent nodes root k q ∧ q.length ≤ path.length := by
  induction h with
  | root ha hnone =>
    obtain rfl := List.mem_singleton.mp hk
    exact ⟨_, .root ha hnone, le_refl _⟩
  | up ha hsome hrest ih =>
    rcases List.mem_cons.mp hk with rfl | hk
    · exact ⟨_, .up ha hsome hrest, le_refl _⟩
    · obtain ⟨q, hq, hlen⟩ := ih hk
      exact ⟨q, hq, hlen.trans (Nat.le_succ _)⟩

/-- A path never repeats an index: links that climb to the root have no cycle. -/
theorem Climb.nodup {i : ι} {path : List ι} (h : Climb parent nodes root i path) :
    path.Nodup := by
  induction h with
  | root => exact List.nodup_singleton _
  | up ha hsome hrest ih =>
    refine List.nodup_cons.mpr ⟨fun hmem => ?_, ih⟩
    -- a repeated index would have a path shorter than its only one
    obtain ⟨q, hq, hlen⟩ := hrest.of_mem hmem
    have := hq.unique (.up ha hsome hrest)
    rw [this, List.length_cons] at hlen
    omega

/-- A path ends at the root. -/
theorem Climb.eq_concat {i : ι} {path : List ι} (h : Climb parent nodes root i path) :
    ∃ below, path = below ++ [root] := by
  induction h with
  | root => exact ⟨[], rfl⟩
  | @up i _ _ _ _ _ _ ih =>
    obtain ⟨below, rfl⟩ := ih
    exact ⟨i :: below, rfl⟩

/-- A path depends only on the links of the entries it visits. -/
theorem Climb.congr {nodes' : ι → Option α} {i : ι} {path : List ι}
    (h : Climb parent nodes root i path)
    (heq : ∀ k ∈ path, ∀ a, nodes k = some a → ∃ b, nodes' k = some b ∧ parent b = parent a) :
    Climb parent nodes' root i path := by
  induction h with
  | root ha hnone =>
    obtain ⟨b, hb, hpar⟩ := heq _ List.mem_cons_self _ ha
    exact .root hb (hpar.trans hnone)
  | up ha hsome _ ih =>
    obtain ⟨b, hb, hpar⟩ := heq _ List.mem_cons_self _ ha
    exact .up hb (hpar.trans hsome) (ih fun k hk => heq k (List.mem_cons_of_mem _ hk))

/-- An entry without children is on no path but its own. -/
theorem Climb.not_mem_of_leaf {i k : ι} {path : List ι} (h : Climb parent nodes root k path)
    (hleaf : ∀ j a, nodes j = some a → parent a ≠ some i) (hne : k ≠ i) : i ∉ path := by
  induction h with
  | root => exact fun hmem => hne (List.mem_singleton.mp hmem).symm
  | up ha hsome _ ih =>
    intro hmem
    rcases List.mem_cons.mp hmem with rfl | hmem
    · exact hne rfl
    · exact ih (fun heq => hleaf _ _ ha (heq ▸ hsome)) hmem

end Paths

/-! ## Trees -/

section Trees

variable {parent : α → Option ι} {inner : α → Prop} {nodes : ι → Option α} {root : ι}

/-- A table that is a tree: the root is an inner entry without a parent, the parent of every other
entry is an inner entry, and every entry climbs to the root. -/
structure Tree (parent : α → Option ι) (inner : α → Prop) (nodes : ι → Option α) (root : ι) :
    Prop where
  top : ∃ a, nodes root = some a ∧ inner a ∧ parent a = none
  parents : ∀ i a, nodes i = some a → i ≠ root →
    ∃ j b, parent a = some j ∧ nodes j = some b ∧ inner b
  climbs : ∀ i a, nodes i = some a → ∃ path, Climb parent nodes root i path

variable [DecidableEq ι]

/-- A change to an entry that keeps its link and its kind. -/
theorem Tree.replace (h : Tree parent inner nodes root) {i : ι} {a b : α} (ha : nodes i = some a)
    (hpar : parent b = parent a) (hinner : inner a → inner b) :
    Tree parent inner (Function.update nodes i (some b)) root := by
  have keep : ∀ k c, nodes k = some c → ∃ d, Function.update nodes i (some b) k = some d ∧
      parent d = parent c ∧ (inner c → inner d) := by
    intro k c hc
    by_cases hk : k = i
    · subst hk
      obtain rfl := Option.some.inj (ha.symm.trans hc)
      exact ⟨b, Function.update_self .., hpar, hinner⟩
    · exact ⟨c, filled_iff.mpr (.inr ⟨hk, hc⟩), rfl, id⟩
  have back : ∀ k d, Function.update nodes i (some b) k = some d →
      ∃ c, nodes k = some c ∧ parent d = parent c := by
    intro k d hd
    rcases filled_iff.mp hd with ⟨rfl, rfl⟩ | ⟨_, hd⟩
    · exact ⟨a, ha, hpar⟩
    · exact ⟨d, hd, rfl⟩
  refine ⟨?_, fun k d hd hk => ?_, fun k d hd => ?_⟩
  · obtain ⟨c, hc, hin, hnone⟩ := h.top
    obtain ⟨d, hd, hpard, hind⟩ := keep root c hc
    exact ⟨d, hd, hind hin, hpard.trans hnone⟩
  · obtain ⟨c, hc, hpard⟩ := back k d hd
    obtain ⟨j, e, hj, he, hin⟩ := h.parents k c hc hk
    obtain ⟨e', he', -, hin'⟩ := keep j e he
    exact ⟨j, e', hpard.trans hj, he', hin' hin⟩
  · obtain ⟨c, hc, -⟩ := back k d hd
    obtain ⟨path, hpath⟩ := h.climbs k c hc
    refine ⟨path, hpath.congr fun m _ e he => ?_⟩
    obtain ⟨e', he', hpare, -⟩ := keep m e he
    exact ⟨e', he', hpare⟩

/-- A new entry under an inner one. -/
theorem Tree.insert (h : Tree parent inner nodes root) {i j : ι} {a b : α} (hfree : nodes i = none)
    (hpar : parent a = some j) (hj : nodes j = some b) (hinner : inner b) :
    Tree parent inner (Function.update nodes i (some a)) root := by
  have climb : ∀ {k : ι} {path : List ι}, Climb parent nodes root k path →
      Climb parent (Function.update nodes i (some a)) root k path :=
    fun hp => hp.congr fun _ _ c hc => ⟨c, filled_keeps hfree hc, rfl⟩
  refine ⟨?_, fun k c hc hk => ?_, fun k c hc => ?_⟩
  · obtain ⟨c, hc, hin, hnone⟩ := h.top
    exact ⟨c, filled_keeps hfree hc, hin, hnone⟩
  · rcases filled_iff.mp hc with ⟨rfl, rfl⟩ | ⟨_, hc⟩
    · exact ⟨j, b, hpar, filled_keeps hfree hj, hinner⟩
    · obtain ⟨m, d, hm, hd, hin⟩ := h.parents k c hc hk
      exact ⟨m, d, hm, filled_keeps hfree hd, hin⟩
  · rcases filled_iff.mp hc with ⟨rfl, rfl⟩ | ⟨_, hc⟩
    · obtain ⟨path, hpath⟩ := h.climbs j b hj
      exact ⟨k :: path, .up (Function.update_self ..) hpar (climb hpath)⟩
    · obtain ⟨path, hpath⟩ := h.climbs k c hc
      exact ⟨path, climb hpath⟩

/-- The removal of an entry that has no children. -/
theorem Tree.remove (h : Tree parent inner nodes root) {i : ι} (hroot : i ≠ root)
    (hleaf : ∀ j a, nodes j = some a → parent a ≠ some i) :
    Tree parent inner (Function.update nodes i none) root := by
  refine ⟨?_, fun k c hc hk => ?_, fun k c hc => ?_⟩
  · obtain ⟨c, hc, hin, hnone⟩ := h.top
    exact ⟨c, cleared_iff.mpr ⟨hroot.symm, hc⟩, hin, hnone⟩
  · obtain ⟨-, hc⟩ := cleared_iff.mp hc
    obtain ⟨m, d, hm, hd, hin⟩ := h.parents k c hc hk
    have : m ≠ i := fun heq => hleaf k c hc (heq ▸ hm)
    exact ⟨m, d, hm, cleared_iff.mpr ⟨this, hd⟩, hin⟩
  · obtain ⟨hki, hc⟩ := cleared_iff.mp hc
    obtain ⟨path, hpath⟩ := h.climbs k c hc
    have hnot := hpath.not_mem_of_leaf hleaf hki
    refine ⟨path, hpath.congr fun m hm d hd => ⟨d, cleared_iff.mpr ⟨?_, hd⟩, rfl⟩⟩
    exact fun heq => hnot (heq ▸ hm)

end Trees

end Unics.Lib
