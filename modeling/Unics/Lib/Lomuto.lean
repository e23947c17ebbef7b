import Mathlib.Data.List.Nodup
import Mathlib.Logic.Equiv.Basic

/-!
# Quicksort in place

Quicksort with Lomuto's partition, on the places `lo ≤ k < hi` of a table. The comparison has a
state of its own and may answer anything at all: the table is rearranged within the places. Where
it goes by a total preorder, they are sorted.
-/

namespace Unics.Lib

variable {σ α : Type}

/-- Two places exchanged. -/
def swapAt (f : ℕ → α) (i j : ℕ) : ℕ → α := f ∘ Equiv.swap i j

/-- The `n` places from `j` on are compared with the last one, and what is less goes to place `i`
and on. -/
def lomutoLoop (less : σ → α → α → Bool × σ) (last : ℕ) :
    ℕ → ℕ → ℕ → σ → (ℕ → α) → ℕ × σ × (ℕ → α)
  | 0, _, i, s, f => (i, s, f)
  | n + 1, j, i, s, f =>
    if (less s (f j) (f last)).1 then
      lomutoLoop less last n (j + 1) (i + 1) (less s (f j) (f last)).2 (swapAt f i j)
    else lomutoLoop less last n (j + 1) i (less s (f j) (f last)).2 f

/-- The places around the last one, and where that is in the end. -/
def lomuto (less : σ → α → α → Bool × σ) (lo hi : ℕ) (s : σ) (f : ℕ → α) : ℕ × σ × (ℕ → α) :=
  let r := lomutoLoop less (hi - 1) (hi - 1 - lo) lo lo s f
  (r.1, r.2.1, swapAt r.2.2 r.1 (hi - 1))

def sortPlaces (less : σ → α → α → Bool × σ) : ℕ → ℕ → ℕ → σ → (ℕ → α) → σ × (ℕ → α)
  | 0, _, _, s, f => (s, f)
  | n + 1, lo, hi, s, f =>
    if lo + 1 < hi then
      let r := lomuto less lo hi s f
      let left := sortPlaces less n lo r.1 r.2.1 r.2.2
      sortPlaces less n (r.1 + 1) hi left.1 left.2
    else (s, f)

/-- One place, or none, is sorted as it is. -/
theorem sortPlaces_of_le (less : σ → α → α → Bool × σ) (n : ℕ) {lo hi : ℕ} (s : σ) (f : ℕ → α)
    (h : hi ≤ lo + 1) : sortPlaces less n lo hi s f = (s, f) := by
  cases n with
  | zero => rfl
  | succ n => exact if_neg (Nat.not_lt.mpr h)

/-! ## Rearranging -/

/-- What stands in the places has changed places, and nothing else has. -/
def Rearranges (lo hi : ℕ) (f g : ℕ → α) : Prop :=
  ∃ π : Equiv.Perm ℕ, (∀ k, k < lo ∨ hi ≤ k → π k = k) ∧ g = f ∘ π

namespace Rearranges

variable {lo hi : ℕ} {f g h : ℕ → α}

theorem refl (lo hi : ℕ) (f : ℕ → α) : Rearranges lo hi f f :=
  ⟨Equiv.refl ℕ, fun _ _ => rfl, rfl⟩

theorem trans (hfg : Rearranges lo hi f g) (hgh : Rearranges lo hi g h) :
    Rearranges lo hi f h := by
  obtain ⟨π, hπ, rfl⟩ := hfg
  obtain ⟨ρ, hρ, rfl⟩ := hgh
  refine ⟨ρ.trans π, fun k hk => ?_, rfl⟩
  rw [Equiv.trans_apply, hρ k hk, hπ k hk]

theorem mono {lo' hi' : ℕ} (hlo : lo' ≤ lo) (hhi : hi ≤ hi') (hfg : Rearranges lo hi f g) :
    Rearranges lo' hi' f g := by
  obtain ⟨π, hπ, hg⟩ := hfg
  exact ⟨π, fun k hk => hπ k (by omega), hg⟩

theorem swapAt {i j : ℕ} (hi₁ : lo ≤ i) (hi₂ : i < hi) (hj₁ : lo ≤ j) (hj₂ : j < hi)
    (f : ℕ → α) : Rearranges lo hi f (swapAt f i j) :=
  ⟨Equiv.swap i j, fun _ _ => Equiv.swap_apply_of_ne_of_ne (by omega) (by omega), rfl⟩

theorem outside (hfg : Rearranges lo hi f g) {k : ℕ} (hk : k < lo ∨ hi ≤ k) : g k = f k := by
  obtain ⟨π, hπ, rfl⟩ := hfg
  exact congrArg f (hπ k hk)

/-- A permutation that moves nothing outside the places keeps them. -/
theorem stays {π : Equiv.Perm ℕ} (hπ : ∀ k, k < lo ∨ hi ≤ k → π k = k) {k : ℕ} (hlo : lo ≤ k)
    (hhi : k < hi) : lo ≤ π k ∧ π k < hi := by
  by_contra hout
  have same : π k = k := π.injective (hπ (π k) (by omega))
  omega

/-- What stands in one of the places stood in one of them. -/
theorem inside (hfg : Rearranges lo hi f g) {k : ℕ} (hlo : lo ≤ k) (hhi : k < hi) :
    ∃ k', lo ≤ k' ∧ k' < hi ∧ g k = f k' := by
  obtain ⟨π, hπ, rfl⟩ := hfg
  obtain ⟨hfirst, hlast⟩ := stays hπ hlo hhi
  exact ⟨π k, hfirst, hlast, rfl⟩

theorem map_range {n : ℕ} (hfg : Rearranges 0 n f g) :
    ((List.range n).map g).Perm ((List.range n).map f) := by
  obtain ⟨π, hπ, rfl⟩ := hfg
  have hsymm : ∀ k, k < 0 ∨ n ≤ k → π.symm k = k :=
    fun k hk => π.symm_apply_eq.mpr (hπ k hk).symm
  have places : ((List.range n).map π).Perm (List.range n) := by
    have nodup : ((List.range n).map π).Nodup := List.nodup_range.map π.injective
    refine (List.perm_ext_iff_of_nodup nodup List.nodup_range).mpr fun k => ?_
    rw [List.mem_map, List.mem_range]
    constructor
    · rintro ⟨m, hm, rfl⟩
      exact (stays hπ (Nat.zero_le m) (List.mem_range.mp hm)).2
    · intro hk
      have before := (stays hsymm (Nat.zero_le k) hk).2
      exact ⟨π.symm k, List.mem_range.mpr before, π.apply_symm_apply k⟩
  rw [← List.map_map]
  exact places.map f

end Rearranges

/-! ## The partition -/

section Partition

variable {less : σ → α → α → Bool × σ} {last n j i : ℕ} {s : σ} {f : ℕ → α}

theorem swapAt_left (f : ℕ → α) (i j : ℕ) : swapAt f i j i = f j :=
  congrArg f (Equiv.swap_apply_left i j)

theorem swapAt_right (f : ℕ → α) (i j : ℕ) : swapAt f i j j = f i :=
  congrArg f (Equiv.swap_apply_right i j)

theorem swapAt_other (f : ℕ → α) {i j k : ℕ} (hi : k ≠ i) (hj : k ≠ j) : swapAt f i j k = f k :=
  congrArg f (Equiv.swap_apply_of_ne_of_ne hi hj)

/-- Whatever the answers are, the loop rearranges the places before the last one. -/
theorem lomutoLoop_rearranges (less : σ → α → α → Bool × σ) (s : σ) (f : ℕ → α) (hij : i ≤ j)
    (hlast : j + n = last) :
    i ≤ (lomutoLoop less last n j i s f).1 ∧ (lomutoLoop less last n j i s f).1 ≤ last ∧
      Rearranges i last f (lomutoLoop less last n j i s f).2.2 := by
  induction n generalizing j i s f with
  | zero => exact ⟨Nat.le_refl i, by rw [lomutoLoop]; omega, .refl i last f⟩
  | succ n ih =>
    rw [lomutoLoop]
    split
    · obtain ⟨hfirst, hend, hrest⟩ := ih (j := j + 1) (i := i + 1) (less s (f j) (f last)).2
        (swapAt f i j) (by omega) (by omega)
      have swapped : Rearranges i last f (swapAt f i j) :=
        .swapAt (Nat.le_refl i) (by omega) hij (by omega) f
      exact ⟨by omega, hend, swapped.trans (hrest.mono (Nat.le_succ i) (Nat.le_refl last))⟩
    · exact ih _ f (by omega) (by omega)

variable {lo hi : ℕ}

theorem lomuto_rearranges (less : σ → α → α → Bool × σ) (s : σ) (f : ℕ → α) (h : lo < hi) :
    lo ≤ (lomuto less lo hi s f).1 ∧ (lomuto less lo hi s f).1 < hi ∧
      Rearranges lo hi f (lomuto less lo hi s f).2.2 := by
  obtain ⟨hfirst, hend, hloop⟩ := lomutoLoop_rearranges less s f (Nat.le_refl lo)
    (by omega : lo + (hi - 1 - lo) = hi - 1)
  refine ⟨hfirst, by rw [lomuto]; omega, ?_⟩
  exact (hloop.mono (Nat.le_refl lo) (Nat.sub_le hi 1)).trans
    (.swapAt hfirst (by omega) (by omega) (by omega) _)

theorem sortPlaces_rearranges (less : σ → α → α → Bool × σ) (n lo hi : ℕ) (s : σ) (f : ℕ → α) :
    Rearranges lo hi f (sortPlaces less n lo hi s f).2 := by
  induction n generalizing lo hi s f with
  | zero => exact .refl lo hi f
  | succ n ih =>
    rw [sortPlaces]
    split
    · obtain ⟨hfirst, hend, hpart⟩ := lomuto_rearranges less s f (by omega : lo < hi)
      have left := ih lo (lomuto less lo hi s f).1 (lomuto less lo hi s f).2.1
        (lomuto less lo hi s f).2.2
      refine (hpart.trans (left.mono (Nat.le_refl lo) (by omega))).trans ?_
      exact (ih _ hi _ _).mono (by omega) (Nat.le_refl hi)
    · exact .refl lo hi f

end Partition

/-! ## Sorting -/

section Sorting

variable {less : σ → α → α → Bool × σ} {le : α → α → Prop}

/-- The comparison goes by the preorder, whatever state it is in. -/
def GoesBy (less : σ → α → α → Bool × σ) (le : α → α → Prop) : Prop :=
  ∀ s a b, (less s a b).1 = true ↔ ¬ le b a

/-- The places before `i` are below a pivot, and those from there to `j` are not. -/
structure SplitAt (le : α → α → Prop) (pivot : α) (lo i j : ℕ) (f : ℕ → α) : Prop where
  below : ∀ k, lo ≤ k → k < i → ¬ le pivot (f k)
  above : ∀ k, i ≤ k → k < j → le pivot (f k)

theorem SplitAt.start (pivot : α) (lo : ℕ) (f : ℕ → α) : SplitAt le pivot lo lo lo f :=
  ⟨fun _ hlo hk => absurd hk (Nat.not_lt.mpr hlo), fun _ hlo hk => absurd hk (Nat.not_lt.mpr hlo)⟩

theorem lomutoLoop_splitAt (hless : GoesBy less le) {last n lo i j : ℕ} {s : σ} {f : ℕ → α}
    (hij : i ≤ j) (hlast : j + n = last) (h : SplitAt le (f last) lo i j f) :
    SplitAt le (f last) lo (lomutoLoop less last n j i s f).1 last
      (lomutoLoop less last n j i s f).2.2 := by
  induction n generalizing i j s f with
  | zero =>
    obtain rfl : j = last := hlast
    exact h
  | succ n ih =>
    rw [lomutoLoop]
    split
    · next hanswer =>
      have hpivot : swapAt f i j last = f last := swapAt_other f (by omega) (by omega)
      rw [← hpivot]
      refine ih (by omega) (by omega) ⟨fun k hlo hk => ?_, fun k hk hj => ?_⟩
      all_goals rw [hpivot]
      · by_cases hi : k = i
        · rw [hi, swapAt_left]
          exact (hless _ _ _).mp hanswer
        · rw [swapAt_other f hi (by omega)]
          exact h.below k hlo (by omega)
      · by_cases hlast : k = j
        · rw [hlast, swapAt_right]
          exact h.above i (Nat.le_refl i) (by omega)
        · rw [swapAt_other f (by omega) hlast]
          exact h.above k (by omega) (by omega)
    · next hanswer =>
      refine ih (by omega) (by omega) ⟨h.below, fun k hk hj => ?_⟩
      by_cases hlast : k = j
      · rw [hlast]
        exact not_not.mp fun hle => hanswer ((hless _ _ _).mpr hle)
      · exact h.above k hk (by omega)

/-- What stands before place `m` is not above it, and what stands behind is not below. -/
structure Parted (le : α → α → Prop) (lo hi m : ℕ) (f : ℕ → α) : Prop where
  below : ∀ k, lo ≤ k → k < m → le (f k) (f m)
  above : ∀ k, m < k → k < hi → le (f m) (f k)

/-- The last place goes between the two parts. -/
theorem SplitAt.parted (htotal : ∀ a b, le a b ∨ le b a) {lo m last : ℕ} {f : ℕ → α}
    (h : SplitAt le (f last) lo m last f) (hm : m ≤ last) :
    Parted le lo (last + 1) m (swapAt f m last) := by
  refine ⟨fun k hlo hk => ?_, fun k hk hlast => ?_⟩
  · rw [swapAt_left, swapAt_other f (by omega) (by omega)]
    exact (htotal _ _).resolve_right (h.below k hlo hk)
  · rw [swapAt_left]
    by_cases hend : k = last
    · rw [hend, swapAt_right]
      exact h.above m (Nat.le_refl m) (by omega)
    · rw [swapAt_other f (by omega) hend]
      exact h.above k (by omega) (by omega)

theorem lomuto_parted (hless : GoesBy less le) (htotal : ∀ a b, le a b ∨ le b a) {lo hi : ℕ}
    (s : σ) (f : ℕ → α) (h : lo < hi) :
    Parted le lo hi (lomuto less lo hi s f).1 (lomuto less lo hi s f).2.2 := by
  have length : lo + (hi - 1 - lo) = hi - 1 := by omega
  obtain ⟨-, hend, hloop⟩ := lomutoLoop_rearranges less s f (Nat.le_refl lo) length
  have split := lomutoLoop_splitAt hless (s := s) (Nat.le_refl lo) length (.start (f (hi - 1)) lo f)
  have pivot := hloop.outside (k := hi - 1) (.inr (Nat.le_refl _))
  rw [← pivot] at split
  have parted := split.parted htotal hend
  rw [Nat.sub_add_cancel (by omega)] at parted
  exact parted

/-- Rearranging one part leaves the other one and the place between them. -/
theorem Parted.left {lo hi m : ℕ} {f g : ℕ → α} (h : Parted le lo hi m f)
    (hfg : Rearranges lo m f g) : Parted le lo hi m g := by
  have pivot := hfg.outside (k := m) (.inr (Nat.le_refl m))
  refine ⟨fun k hlo hk => ?_, fun k hk hhi => ?_⟩
  · obtain ⟨k', hlo', hk', heq⟩ := hfg.inside hlo hk
    rw [pivot, heq]
    exact h.below k' hlo' hk'
  · rw [pivot, hfg.outside (.inr (Nat.le_of_lt hk))]
    exact h.above k hk hhi

theorem Parted.right {lo hi m : ℕ} {f g : ℕ → α} (h : Parted le lo hi m f)
    (hfg : Rearranges (m + 1) hi f g) : Parted le lo hi m g := by
  have pivot := hfg.outside (k := m) (.inl (Nat.lt_succ_self m))
  refine ⟨fun k hlo hk => ?_, fun k hk hhi => ?_⟩
  · rw [pivot, hfg.outside (.inl (by omega))]
    exact h.below k hlo hk
  · obtain ⟨k', hlo', hk', heq⟩ := hfg.inside hk hhi
    rw [pivot, heq]
    exact h.above k' hlo' hk'

/-- The places are in order. -/
def Sorted (le : α → α → Prop) (lo hi : ℕ) (f : ℕ → α) : Prop :=
  ∀ a b, lo ≤ a → a < b → b < hi → le (f a) (f b)

theorem Sorted.congr {lo hi : ℕ} {f g : ℕ → α} (h : Sorted le lo hi f)
    (heq : ∀ k, lo ≤ k → k < hi → g k = f k) : Sorted le lo hi g := by
  intro a b ha hab hb
  rw [heq a ha (by omega), heq b (by omega) hb]
  exact h a b ha hab hb

/-- Two parts in order and the place between them are in order. -/
theorem Parted.sorted (htrans : ∀ a b c, le a b → le b c → le a c) {lo hi m : ℕ} {f : ℕ → α}
    (h : Parted le lo hi m f) (hleft : Sorted le lo m f) (hright : Sorted le (m + 1) hi f) :
    Sorted le lo hi f := by
  intro a b ha hab hb
  by_cases ham : a < m
  · by_cases hbm : b < m
    · exact hleft a b ha hab hbm
    · by_cases heq : b = m
      · rw [heq]
        exact h.below a ha ham
      · exact htrans _ _ _ (h.below a ha ham) (h.above b (by omega) hb)
  · by_cases heq : a = m
    · rw [heq]
      exact h.above b (by omega) hb
    · exact hright a b (by omega) hab hb

theorem sortPlaces_sorted (hless : GoesBy less le) (htotal : ∀ a b, le a b ∨ le b a)
    (htrans : ∀ a b c, le a b → le b c → le a c) {n lo hi : ℕ} (s : σ) (f : ℕ → α)
    (hn : hi - lo ≤ n) : Sorted le lo hi (sortPlaces less n lo hi s f).2 := by
  induction n generalizing lo hi s f with
  | zero => exact fun a b _ _ _ => by omega
  | succ n ih =>
    rw [sortPlaces]
    split
    · obtain ⟨hfirst, hend, -⟩ := lomuto_rearranges less s f (by omega : lo < hi)
      have parted := lomuto_parted hless htotal s f (by omega : lo < hi)
      generalize lomuto less lo hi s f = r at hfirst hend parted ⊢
      dsimp only
      have leftMoves := sortPlaces_rearranges less n lo r.1 r.2.1 r.2.2
      have leftSorted := ih r.2.1 r.2.2 (by omega : r.1 - lo ≤ n)
      generalize sortPlaces less n lo r.1 r.2.1 r.2.2 = left at leftMoves leftSorted ⊢
      have rightMoves := sortPlaces_rearranges less n (r.1 + 1) hi left.1 left.2
      have rightSorted := ih left.1 left.2 (by omega : hi - (r.1 + 1) ≤ n)
      refine ((parted.left leftMoves).right rightMoves).sorted htrans ?_ rightSorted
      exact leftSorted.congr fun k _ hk => rightMoves.outside (.inl (by omega))
    · exact fun a b _ _ _ => by omega

end Sorting

end Unics.Lib
