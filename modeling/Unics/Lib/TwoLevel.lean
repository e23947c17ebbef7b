import Mathlib.Logic.Basic

/-!
# Two-level tables in a memory of frames

A memory of frames gives every frame a word at each index. One frame is a directory: an entry of it
may lead to another frame, a table, and an entry of a table may hold a leaf. The structure stands
for the partial map `lookup`, from pairs of indices to leaves.

What makes it one is that no two entries lead to the same table and none to the directory
(`TableFormat.Sound`). Then writing a leaf changes the map at one place (`Sound.lookup_setLeaf`),
and a table that is cleared before it is entered changes it nowhere (`Sound.lookup_entered`).
-/

namespace Unics.Lib

variable {F I V W : Type*}

/-- How the words of a directory and of a table are read. -/
structure TableFormat (F V W : Type*) where
  /-- The table to which an entry of the directory leads. -/
  next : V → Option F
  /-- The leaf that an entry of a table holds. -/
  leaf : V → Option W

/-- A memory with one word written. -/
def setWord [DecidableEq F] [DecidableEq I] (m : F → I → V) (f : F) (i : I) (v : V) : F → I → V :=
  fun g j => if g = f ∧ j = i then v else m g j

/-- A memory with a frame filled with a word. -/
def fillFrame [DecidableEq F] (m : F → I → V) (f : F) (v : V) : F → I → V :=
  fun g j => if g = f then v else m g j

/-- A memory with a frame cleared and entered in the directory. -/
def enterTable [DecidableEq F] [DecidableEq I] (m : F → I → V) (dir t : F) (i : I)
    (zero entry : V) : F → I → V :=
  setWord (fillFrame m t zero) dir i entry

namespace TableFormat

/-- The map that the structure stands for. -/
def lookup (fmt : TableFormat F V W) (m : F → I → V) (dir : F) (i j : I) : Option W :=
  (fmt.next (m dir i)).bind fun t => fmt.leaf (m t j)

/-- A frame of the structure. -/
def InUse (fmt : TableFormat F V W) (m : F → I → V) (dir f : F) : Prop :=
  f = dir ∨ ∃ i, fmt.next (m dir i) = some f

/-- No frame of the structure has two roles in it. -/
structure Sound (fmt : TableFormat F V W) (m : F → I → V) (dir : F) : Prop where
  ne_dir : ∀ i t, fmt.next (m dir i) = some t → t ≠ dir
  unique : ∀ i i' t, fmt.next (m dir i) = some t → fmt.next (m dir i') = some t → i = i'

variable {fmt : TableFormat F V W} {m : F → I → V} {dir t : F} {i j : I} {v : V}

/-- An empty directory is the empty map. -/
theorem sound_of_empty (h : ∀ i, fmt.next (m dir i) = none) : fmt.Sound m dir where
  ne_dir i t ht := by
    rw [h i] at ht
    cases ht
  unique i _ t ht := by
    rw [h i] at ht
    cases ht

theorem lookup_of_empty (h : fmt.next (m dir i) = none) : fmt.lookup m dir i j = none := by
  rw [lookup, h]
  rfl

theorem lookup_of_table (h : fmt.next (m dir i) = some t) :
    fmt.lookup m dir i j = fmt.leaf (m t j) := by
  rw [lookup, h]
  rfl

variable [DecidableEq F] [DecidableEq I]

/-! ## Writing a leaf -/

/-- A write to a table leaves the directory as it is. -/
theorem Sound.dir_setLeaf (h : fmt.Sound m dir) (ht : fmt.next (m dir i) = some t) (i' : I) :
    setWord m t j v dir i' = m dir i' :=
  if_neg fun hw => h.ne_dir i t ht hw.1.symm

theorem Sound.setLeaf (h : fmt.Sound m dir) (ht : fmt.next (m dir i) = some t) :
    fmt.Sound (setWord m t j v) dir where
  ne_dir i' t' ht' := by
    rw [h.dir_setLeaf ht] at ht'
    exact h.ne_dir i' t' ht'
  unique i₁ i₂ t' h₁ h₂ := by
    rw [h.dir_setLeaf ht] at h₁ h₂
    exact h.unique i₁ i₂ t' h₁ h₂

/-- A write to a table changes the map at one place. -/
theorem Sound.lookup_setLeaf (h : fmt.Sound m dir) (ht : fmt.next (m dir i) = some t) (i' j' : I) :
    fmt.lookup (setWord m t j v) dir i' j' =
      if i' = i ∧ j' = j then fmt.leaf v else fmt.lookup m dir i' j' := by
  unfold lookup
  rw [h.dir_setLeaf ht]
  cases hnext : fmt.next (m dir i') with
  | none =>
    rw [if_neg]
    · rfl
    · rintro ⟨rfl, _⟩
      rw [ht] at hnext
      cases hnext
  | some t' =>
    show fmt.leaf (if t' = t ∧ j' = j then v else m t' j') = _
    by_cases hi : i' = i
    · subst hi
      obtain rfl := Option.some.inj (hnext.symm.trans ht)
      by_cases hj : j' = j
      · rw [if_pos ⟨rfl, hj⟩, if_pos ⟨rfl, hj⟩]
      · rw [if_neg fun hw => hj hw.2, if_neg fun hw => hj hw.2]
        rfl
    · -- another entry leads to another table
      have other : t' ≠ t := by
        rintro rfl
        exact hi (h.unique i' i t' hnext ht)
      rw [if_neg fun hw => other hw.1, if_neg fun hw => hi hw.1]
      rfl

/-! ## Entering a table -/

section EnterTable

variable {zero entry : V}

theorem dir_enterTable (hfresh : ¬ fmt.InUse m dir t) (i' : I) :
    enterTable m dir t i zero entry dir i' = if i' = i then entry else m dir i' := by
  have ne : dir ≠ t := fun heq => hfresh (.inl heq.symm)
  unfold enterTable setWord fillFrame
  rw [if_neg ne]
  by_cases hi : i' = i
  · rw [if_pos ⟨rfl, hi⟩, if_pos hi]
  · rw [if_neg fun hw => hi hw.2, if_neg hi]

theorem Sound.entered (h : fmt.Sound m dir) (hfresh : ¬ fmt.InUse m dir t)
    (hentry : fmt.next entry = some t) : fmt.Sound (enterTable m dir t i zero entry) dir where
  ne_dir i' t' ht' := by
    rw [dir_enterTable hfresh] at ht'
    split at ht'
    · rw [hentry] at ht'
      obtain rfl := Option.some.inj ht'
      exact fun heq => hfresh (.inl heq)
    · exact h.ne_dir i' t' ht'
  unique i₁ i₂ t' h₁ h₂ := by
    rw [dir_enterTable hfresh] at h₁ h₂
    split at h₁
    · next e₁ =>
      split at h₂
      · next e₂ => exact e₁.trans e₂.symm
      · rw [hentry] at h₁
        obtain rfl := Option.some.inj h₁
        exact absurd (.inr ⟨i₂, h₂⟩) hfresh
    · split at h₂
      · rw [hentry] at h₂
        obtain rfl := Option.some.inj h₂
        exact absurd (.inr ⟨i₁, h₁⟩) hfresh
      · exact h.unique i₁ i₂ t' h₁ h₂

/-- A table of words without a leaf changes the map nowhere. -/
theorem Sound.lookup_entered (h : fmt.Sound m dir) (hfresh : ¬ fmt.InUse m dir t)
    (hnone : fmt.next (m dir i) = none) (hentry : fmt.next entry = some t)
    (hzero : fmt.leaf zero = none) (i' j : I) :
    fmt.lookup (enterTable m dir t i zero entry) dir i' j = fmt.lookup m dir i' j := by
  have ne : t ≠ dir := fun heq => hfresh (.inl heq)
  have read : ∀ f, f ≠ dir → enterTable m dir t i zero entry f j =
      if f = t then zero else m f j := fun f hf => if_neg fun hw => hf hw.1
  unfold lookup
  rw [dir_enterTable hfresh]
  by_cases hi : i' = i
  · subst hi
    rw [if_pos rfl, hentry, hnone]
    show fmt.leaf _ = none
    rw [read t ne, if_pos rfl, hzero]
  · rw [if_neg hi]
    cases hnext : fmt.next (m dir i') with
    | none => rfl
    | some t' =>
      show fmt.leaf _ = fmt.leaf (m t' j)
      have other : t' ≠ t := by
        rintro rfl
        exact hfresh (.inr ⟨i', hnext⟩)
      rw [read t' (h.ne_dir i' t' hnext), if_neg other]

end EnterTable

end TableFormat

end Unics.Lib
