import Unics.Laws.Pmm.RoundTrip

/-!
# A contiguous allocation is a first fit

`pmm_alloc_pages_zone` over any region list, overlapping regions and regions at address 0 included:
it takes the first range (`FirstRange`) of the zone, marks it and touches nothing else, and it finds
nothing exactly when there is no range. The search itself is `allocPagesFrom_first`; what is added
here is what its writes come to.

Address 0 is also the null pointer, so a range that begins there is found and marked although the
call answers null. "Finds nothing" is therefore a null answer that leaves the list as it was.
-/

namespace Unics

open Unics.Lib

/-- Every page of the region has a bit in its bitmap. -/
def PmmRegion.Covered (r : PmmRegion) : Prop := r.pages.toNat ≤ 64 * r.bitmap.length

/-- `r'` is the region `r` with the bits of a range set, and nothing else changed. -/
structure MarksRange (r r' : PmmRegion) (start count : Nat) : Prop where
  rest : { r' with bitmap := r.bitmap } = r
  words : r'.bitmap.length = r.bitmap.length
  bits : ∀ j, testBit64 r'.bitmap j =
    (decide (start ≤ j ∧ j < start + count) || testBit64 r.bitmap j)

/-- What a first fit leaves and answers: the first range of the zone is marked and its base
returned, or there is none. -/
inductive FirstFitPages (regions : List PmmRegion) (count : Nat) (zone : PmmZone) :
    List PmmRegion × UIntPtr → Prop
  | found {pre post : List PmmRegion} {r r' : PmmRegion} {start : Nat}
      (first : FirstRange regions count zone pre r post start)
      (marks : MarksRange r r' start count) :
      FirstFitPages regions count zone (pre ++ r' :: post, r.pageAddr start)
  | nothing (hnone : ∀ q ∈ regions, q.zone = zone → ∀ start, ¬ ClearRange q start count) :
      FirstFitPages regions count zone (regions, null)

section FirstFit

variable {regions : List PmmRegion} {count : SizeT} {zone : PmmZone}

theorem marksRange_takePages {r : PmmRegion} (hr : r.Covered) {start count : Nat}
    (hfit : start + count ≤ r.pages.toNat) :
    MarksRange r (r.takePages start count) start count where
  rest := rfl
  words := length_setBits _ _ _
  bits j := by
    unfold PmmRegion.Covered at hr
    exact testBit64_setBits (by omega)

/-- A range that is marked was not marked before. -/
theorem MarksRange.ne {r r' : PmmRegion} {start count : Nat} (h : MarksRange r r' start count)
    (hrange : ClearRange r start count) (hpos : 0 < count) : r' ≠ r := by
  rintro rfl
  have marked := h.bits start
  have clear := hrange.clear start (Nat.le_refl start) (by omega)
  rw [clear, decide_eq_true ⟨Nat.le_refl start, by omega⟩] at marked
  cases marked

/-- The loop over the regions is a first fit. -/
theorem allocPagesFrom_firstFit (hcover : ∀ r ∈ regions, r.Covered) (hpos : count ≠ 0) :
    FirstFitPages regions count.toNat zone (allocPagesFrom count zone regions) := by
  rcases allocPagesFrom_first hpos zone regions with
    ⟨hres, hnone⟩ | ⟨pre, r, post, start, hfirst, hres⟩
  · rw [hres]
    exact .nothing hnone
  · rw [hres]
    have mem : r ∈ regions := by
      rw [hfirst.split]
      exact List.mem_append_cons_self
    exact .found hfirst (marksRange_takePages (hcover r mem) hfirst.range.fits)

/-- A first fit leaves the list as it was and answers null only where there is no range. -/
theorem FirstFitPages.nothing_iff (hpos : 0 < count.toNat) {res : List PmmRegion × UIntPtr}
    (h : FirstFitPages regions count.toNat zone res) :
    res = (regions, null) ↔
      ∀ q ∈ regions, q.zone = zone → ∀ start, ¬ ClearRange q start count.toNat := by
  cases h with
  | nothing hnone => exact iff_of_true rfl hnone
  | @found pre post r r' start first marks =>
    have mem : r ∈ regions := by
      rw [first.split]
      exact List.mem_append_cons_self
    refine iff_of_false (fun same => ?_) fun hnone => hnone r mem first.inZone start first.range
    -- the lists agree before and after the region, so the region would be unmarked
    have lists : pre ++ r' :: post = pre ++ r :: post :=
      (congrArg Prod.fst same).trans first.split
    obtain ⟨unmarked, -⟩ := List.cons.inj (List.append_cancel_left lists)
    exact marks.ne first.range hpos unmarked

/-- For every region list, zone and count from 1 on. -/
theorem pmmAllocPagesZone_firstFit {s : Pmm} (hinit : s.regions ≠ [] → s.initialized = true)
    (hcover : ∀ r ∈ s.regions, r.Covered) (hpos : count ≠ 0) (zone : PmmZone) :
    (∃ regions p, FirstFitPages s.regions count.toNat zone (regions, p) ∧
      pmmAllocPagesZone s count zone = ({ s with regions := regions }, p)) ∧
    (pmmAllocPagesZone s count zone = (s, null) ↔
      ∀ q ∈ s.regions, q.zone = zone → ∀ start, ¬ ClearRange q start count.toNat) := by
  by_cases hon : s.initialized = true
  · have call : pmmAllocPagesZone s count zone =
        ({ s with regions := (allocPagesFrom count zone s.regions).1 },
          (allocPagesFrom count zone s.regions).2) := by
      have guard : ¬ (!s.initialized || count == 0) = true := by simpa [hon] using hpos
      rw [pmmAllocPagesZone, if_neg guard]
    have fit : FirstFitPages s.regions count.toNat zone (allocPagesFrom count zone s.regions) :=
      allocPagesFrom_firstFit hcover hpos
    refine ⟨⟨_, _, fit, call⟩, ?_⟩
    rw [call, ← fit.nothing_iff (toNat_pos hpos)]
    constructor
    · intro same
      obtain ⟨state, null⟩ := Prod.mk.inj same
      exact Prod.ext (congrArg Pmm.regions state) null
    · intro same
      rw [same]
  · have empty : s.regions = [] := by
      by_contra hne
      exact hon (hinit hne)
    have nothing : pmmAllocPagesZone s count zone = (s, null) := by
      have guard : (!s.initialized || count == 0) = true := by simp [hon]
      rw [pmmAllocPagesZone, if_pos guard]
    have hnone : ∀ q ∈ s.regions, q.zone = zone → ∀ start, ¬ ClearRange q start count.toNat := by
      intro q hq
      rw [empty] at hq
      exact absurd hq List.not_mem_nil
    exact ⟨⟨s.regions, null, .nothing hnone, nothing⟩, iff_of_true nothing hnone⟩

end FirstFit

/-- Two pages from a region whose first page is taken: the range begins at the second. -/
theorem pmmAllocPagesZone_firstFit_pair :
    let r : PmmRegion :=
      { base := 0x100000, pages := 4, bitmap := [1], bitmapSize := 1, lastAlloc := 0, zone := .dma }
    let s : Pmm := { regions := [r], initialized := true }
    (∃ regions p, FirstFitPages s.regions (2 : SizeT).toNat .dma (regions, p) ∧
      pmmAllocPagesZone s 2 .dma = ({ s with regions := regions }, p)) ∧
    (pmmAllocPagesZone s 2 .dma = (s, null) ↔
      ∀ q ∈ s.regions, q.zone = .dma → ∀ start, ¬ ClearRange q start (2 : SizeT).toNat) := by
  intro r s
  refine pmmAllocPagesZone_firstFit (fun _ => rfl) (fun q hq => ?_) (by decide) .dma
  obtain rfl := List.mem_singleton.mp hq
  show (4 : SizeT).toNat ≤ 64 * 1
  decide

end Unics
