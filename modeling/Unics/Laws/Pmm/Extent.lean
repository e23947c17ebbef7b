import Unics.Laws.Pmm.Ownership

/-!
# The region that a range becomes

`pmm_add_region` drops the slack in front of the first page boundary and cuts the rest into pages.
It subtracts the slack without asking whether the range is that long. Where it is not, the
difference wraps, and a range of a few bytes becomes a region of 2 ^ 20 - 1 pages
(`newRegion_pages_of_not_reach`). `pmmAddRegion_within_iff` is the exact condition.
-/

namespace Unics

open Unics.Lib

/-- The number is the address of a whole page of the range. -/
def WholePage (base : UIntPtr) (size : SizeT) (a : Nat) : Prop :=
  a % 4096 = 0 ∧ base.toNat ≤ a ∧ a + 4096 ≤ base.toNat + size.toNat

/-- The region is page aligned, not empty and inside the range, and has every whole page of it. -/
structure PmmRegion.Within (r : PmmRegion) (base : UIntPtr) (size : SizeT) : Prop where
  aligned : r.base.toNat % 4096 = 0
  nonempty : 0 < r.pages.toNat
  starts : base.toNat ≤ r.base.toNat
  ends : r.base.toNat + 4096 * r.pages.toNat ≤ base.toNat + size.toNat
  whole : ∀ a, WholePage base size a →
    r.base.toNat ≤ a ∧ a + 4096 ≤ r.base.toNat + 4096 * r.pages.toNat

/-- How adding a range should end: a region within it is put on the list, or the list stays as it
was, for want of a whole page or of memory. -/
inductive AddsWithin (s : Pmm) (base : UIntPtr) (size : SizeT) (heap : PmmHeap) : Pmm × Int → Prop
  | added {r : PmmRegion} (within : r.Within base size) :
      AddsWithin s base size heap ({ s with regions := r :: s.regions }, 0)
  | refused
      (why : (∀ a, ¬ WholePage base size a) ∨ heap.malloc = false ∨ heap.calloc = false) :
      AddsWithin s base size heap (s, -1)

section Extent

variable {base : UIntPtr} {size : SizeT} {zone : PmmZone} {heap : PmmHeap}

/-- The slack in front of the first page boundary, the one at the end of the address space
included. -/
theorem toNat_slack (base : UIntPtr) :
    (pmmPageAlignUp base - base).toNat = (4096 - base.toNat % 4096) % 4096 := by
  have lt := base.isLt
  by_cases hlow : base.toNat + 4095 < 2 ^ 32
  · have up := toNat_pmmPageAlignUp hlow
    have le : base ≤ pmmPageAlignUp base := by
      rw [BitVec.le_def]
      omega
    rw [BitVec.toNat_sub_of_le le]
    omega
  · rw [pmmPageAlignUp_wraps hlow, BitVec.toNat_sub]
    show (2 ^ 32 - base.toNat + 0) % 2 ^ 32 = _
    omega

/-- The pages of a new region, counted with the wrap of the subtraction. -/
theorem toNat_newRegion_pages :
    (newRegion base size zone).pages.toNat =
      (2 ^ 32 - (pmmPageAlignUp base - base).toNat + size.toNat) % 2 ^ 32 / 4096 := by
  show (pmmPageAlignDown (size - (pmmPageAlignUp base - base)) / pmmPageSize).toNat = _
  rw [BitVec.toNat_udiv, toNat_pmmPageAlignDown, toNat_pmmPageSize, BitVec.toNat_sub]
  omega

/-- A range that ends before its first page boundary becomes almost the whole address space. -/
theorem newRegion_pages_of_not_reach (hreach : ¬ ReachesPage base size) :
    (newRegion base size zone).pages.toNat = 2 ^ 20 - 1 := by
  have slack := toNat_slack base
  have short : size.toNat < (pmmPageAlignUp base - base).toNat :=
    Nat.lt_of_not_le fun hle => hreach (BitVec.le_def.mpr hle)
  rw [toNat_newRegion_pages]
  omega

theorem newRegion_pages_ne_zero (hreach : ¬ ReachesPage base size) :
    (newRegion base size zone).pages ≠ 0 := by
  intro hzero
  have pages := @newRegion_pages_of_not_reach base size zone hreach
  rw [hzero] at pages
  exact absurd pages (by decide)

/-- A range that reaches its first page boundary becomes its whole pages. -/
theorem newRegion_within (hfits : base.toNat + size.toNat ≤ 2 ^ 32) (hreach : ReachesPage base size)
    (hpages : (newRegion base size zone).pages ≠ 0) :
    (newRegion base size zone).Within base size := by
  have slack := toNat_slack base
  have reach : (pmmPageAlignUp base - base).toNat ≤ size.toNat := hreach
  have pages := @toNat_newRegion_pages base size zone
  have pos := toNat_pos hpages
  have lt := base.isLt
  -- a boundary that wraps to 0 would leave no page
  have low : base.toNat + 4095 < 2 ^ 32 := by
    by_contra hhigh
    omega
  have up : (newRegion base size zone).base.toNat = (base.toNat + 4095) / 4096 * 4096 :=
    toNat_pmmPageAlignUp low
  have bound := size.isLt
  refine ⟨?_, pos, ?_, ?_, fun a ha => ?_⟩
  · omega
  · omega
  · omega
  · obtain ⟨aligned, starts, ends⟩ := ha
    omega

/-- A range that reaches its first page boundary and becomes no page has none. -/
theorem no_wholePage (hreach : ReachesPage base size)
    (hpages : (newRegion base size zone).pages = 0) (a : Nat) : ¬ WholePage base size a := by
  have slack := toNat_slack base
  have reach : (pmmPageAlignUp base - base).toNat ≤ size.toNat := hreach
  have pages := @toNat_newRegion_pages base size zone
  rw [hpages] at pages
  have none : (0 : SizeT).toNat = 0 := rfl
  rw [none] at pages
  have lt := base.isLt
  have bound := size.isLt
  rintro ⟨aligned, starts, ends⟩
  omega

/-- The call, by the three things it asks. -/
theorem pmmAddRegion_eq {s : Pmm} (hinit : s.initialized = true) :
    pmmAddRegion s base size zone heap =
      if (newRegion base size zone).pages = 0 ∨ heap.malloc = false ∨ heap.calloc = false then
        (s, -1)
      else ({ s with regions := newRegion base size zone :: s.regions }, 0) := by
  have steps : pmmAddRegion s base size zone heap =
      if !s.initialized then (s, -1)
      else if (newRegion base size zone).pages = 0 then (s, -1)
      else if !heap.malloc then (s, -1)
      else if !heap.calloc then (s, -1)
      else ({ s with regions := newRegion base size zone :: s.regions }, 0) := rfl
  rw [steps, hinit, Bool.not_true, if_neg Bool.false_ne_true]
  by_cases hpages : (newRegion base size zone).pages = 0
  · rw [if_pos hpages, if_pos (.inl hpages)]
  rw [if_neg hpages]
  cases hmalloc : heap.malloc with
  | false => simp only [Bool.not_false, if_true, true_or, or_true]
  | true =>
    cases hcalloc : heap.calloc with
    | false =>
      simp only [Bool.not_true, Bool.not_false, Bool.false_eq_true, if_false, if_true, or_true]
    | true =>
      simp only [Bool.not_true, Bool.false_eq_true, if_false, Bool.true_eq_false, or_false, hpages]

/-- The region of a range that ends before its first page boundary is not within it. -/
theorem not_addsWithin_of_not_reach {s : Pmm} (hreach : ¬ ReachesPage base size) :
    ¬ AddsWithin s base size heap
      ({ s with regions := newRegion base size zone :: s.regions }, 0) := by
  intro h
  generalize hres : ({ s with regions := newRegion base size zone :: s.regions }, (0 : Int)) = res
    at h
  cases h with
  | @added r within =>
    -- the range is shorter than a page
    obtain ⟨same, -⟩ := List.cons.inj (congrArg Pmm.regions (Prod.mk.inj hres).1)
    have pages := @newRegion_pages_of_not_reach base size zone hreach
    have slack := toNat_slack base
    have short : size.toNat < (pmmPageAlignUp base - base).toNat :=
      Nat.lt_of_not_le fun hle => hreach (BitVec.le_def.mpr hle)
    have starts := within.starts
    have ends := within.ends
    rw [← same, pages] at ends
    rw [← same] at starts
    omega
  | refused =>
    have code : (0 : Int) = -1 := (Prod.mk.inj hres).2
    exact absurd code (by decide)

/-- For every range that does not reach past the address space: adding it ends as it should exactly
when the range reaches its first page boundary, or there is no memory to go wrong with. -/
theorem pmmAddRegion_within_iff {s : Pmm} (hinit : s.initialized = true)
    (hfits : base.toNat + size.toNat ≤ 2 ^ 32) (zone : PmmZone) (heap : PmmHeap) :
    AddsWithin s base size heap (pmmAddRegion s base size zone heap) ↔
      ReachesPage base size ∨ heap.malloc = false ∨ heap.calloc = false := by
  rw [pmmAddRegion_eq hinit]
  by_cases hheap : heap.malloc = false ∨ heap.calloc = false
  · rw [if_pos (.inr hheap)]
    exact iff_of_true (.refused (.inr hheap)) (.inr hheap)
  refine Iff.trans ?_ (or_iff_left hheap).symm
  constructor
  · intro h
    by_contra hreach
    have some_page := @newRegion_pages_ne_zero base size zone hreach
    rw [if_neg (not_or.mpr ⟨some_page, hheap⟩)] at h
    exact not_addsWithin_of_not_reach hreach h
  · intro hreach
    by_cases hpages : (newRegion base size zone).pages = 0
    · rw [if_pos (.inl hpages)]
      exact .refused (.inl (no_wholePage hreach hpages))
    · rw [if_neg (not_or.mpr ⟨hpages, hheap⟩)]
      exact .added (newRegion_within hfits hreach hpages)

end Extent

/-- A range that is a page and a bit, over an initialised manager. -/
theorem pmmAddRegion_within_iff_page :
    AddsWithin { regions := [], initialized := true } 0x1001 0x2000 pmmHeapFull
        (pmmAddRegion { regions := [], initialized := true } 0x1001 0x2000 .normal pmmHeapFull) ↔
      ReachesPage 0x1001 0x2000 ∨ pmmHeapFull.malloc = false ∨ pmmHeapFull.calloc = false :=
  pmmAddRegion_within_iff rfl (by decide) .normal pmmHeapFull

/-- A range of 256 bytes inside a page: it becomes a region of 2 ^ 20 - 1 pages. -/
theorem pmmAddRegion_not_within :
    ¬ ∀ (s : Pmm) (base : UIntPtr) (size : SizeT) (zone : PmmZone) (heap : PmmHeap),
      s.initialized = true → base.toNat + size.toNat ≤ 2 ^ 32 →
        AddsWithin s base size heap (pmmAddRegion s base size zone heap) := by
  intro hall
  have h := hall { regions := [], initialized := true } 0x1001 0x100 .normal pmmHeapFull rfl
    (by decide)
  have short : ¬ ReachesPage 0x1001 0x100 := by
    unfold ReachesPage
    decide
  have some_page := @newRegion_pages_ne_zero 0x1001 0x100 .normal short
  have heap : ¬ (pmmHeapFull.malloc = false ∨ pmmHeapFull.calloc = false) := by decide
  rw [pmmAddRegion_eq rfl, if_neg (not_or.mpr ⟨some_page, heap⟩)] at h
  exact not_addsWithin_of_not_reach short h

end Unics
