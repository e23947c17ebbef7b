import Unics.Laws.Pmm.Freeing
import Unics.Laws.Pmm.Fresh

/-!
# What every region keeps

The searches of the page allocator go over whole words of a bitmap from a word that the hint names,
and `pmm_get_stats` counts one page at a time. That both are about the same bits rests on three
things of the representation (`PmmRegion.Regular`): the bitmap has a word for each 64 pages, the
hint is a page, and no bit behind the last page is set. Five operations write to a region, and each
keeps them, wherever the region lies and whatever other regions overlap it.

A free whose range does not wrap reads and clears bits of pages only (`FreesFit.touchesPages`).
-/

namespace Unics

open Unics.Lib

/-- A region as the code relies on it. -/
structure PmmRegion.Regular (r : PmmRegion) : Prop where
  small : r.pages.toNat < 2 ^ 20
  words : r.bitmapSize.toNat = (r.pages.toNat + 63) / 64
  length : r.bitmap.length = r.bitmapSize.toNat
  hint : r.lastAlloc.toNat < r.pages.toNat
  padding : ∀ i, r.pages.toNat ≤ i → testBit64 r.bitmap i = false

/-! ## One region -/

section Region

variable {r : PmmRegion}

theorem PmmRegion.Regular.word_lt (h : r.Regular) {i : Nat} (hi : i < r.pages.toNat) :
    i / 64 < r.bitmap.length := by
  rw [h.length, h.words]
  omega

/-- A write that keeps the shape is regular when the hint and the padding are. -/
theorem PmmRegion.Regular.of_shape (h : r.Regular) {r' : PmmRegion} (hshape : r'.shape = r.shape)
    (hint : r'.lastAlloc.toNat < r.pages.toNat)
    (padding : ∀ i, r.pages.toNat ≤ i → testBit64 r'.bitmap i = false) : r'.Regular := by
  have pages : r'.pages = r.pages := congrArg PmmShape.pages hshape
  have size : r'.bitmapSize = r.bitmapSize := congrArg PmmShape.bitmapSize hshape
  have length : r'.bitmap.length = r.bitmap.length := congrArg PmmShape.words hshape
  rw [← pages] at hint padding
  refine ⟨?_, ?_, ?_, hint, padding⟩
  · rw [pages]
    exact h.small
  · rw [size, pages]
    exact h.words
  · rw [length, size]
    exact h.length

/-- A page is no padding. -/
theorem PmmRegion.Regular.padding_set (h : r.Regular) {i j : Nat} (hi : i < r.pages.toNat)
    (hj : r.pages.toNat ≤ j) : testBit64 (setBit64 r.bitmap i) j = false := by
  rw [testBit64_setBit64 (h.word_lt hi), h.padding j hj, decide_eq_false (by omega)]
  rfl

theorem PmmRegion.Regular.takePage (h : r.Regular) {i : Nat} (hi : i < r.pages.toNat) :
    (r.takePage i).Regular := by
  have small := h.small
  refine h.of_shape (shape_takePage r i) ?_ fun j hj => h.padding_set hi hj
  show (BitVec.ofNat 32 i).toNat < r.pages.toNat
  rw [BitVec.toNat_ofNat, Nat.mod_eq_of_lt (by omega)]
  exact hi

theorem PmmRegion.Regular.takePages (h : r.Regular) {startPage count : Nat}
    (hfit : startPage + count ≤ r.pages.toNat) : (r.takePages startPage count).Regular := by
  refine h.of_shape (shape_takePages r startPage count) h.hint fun j hj => ?_
  have length := h.length
  have words := h.words
  show testBit64 (setBits r.bitmap startPage count) j = false
  rw [testBit64_setBits (by omega), h.padding j hj, decide_eq_false (by omega)]
  rfl

/-- The hint goes down if it goes anywhere. -/
theorem PmmRegion.Regular.givePages (h : r.Regular) (startPage count : SizeT) :
    (r.givePages startPage count).Regular := by
  refine h.of_shape (shape_givePages r startPage count) ?_ fun j hj => ?_
  · have hint := h.hint
    show (if startPage < r.lastAlloc then startPage else r.lastAlloc).toNat < r.pages.toNat
    split
    · next lower => exact (BitVec.lt_def.mp lower).trans hint
    · exact hint
  · show testBit64 (clearBits r.bitmap startPage count) j = false
    have clear := h.padding j hj
    by_contra set
    have kept := (testBit64_clearBits.mp (Bool.not_eq_false _ ▸ set)).1
    rw [clear] at kept
    cases kept

theorem allocPageFromRegion_regular (h : r.Regular) : (allocPageFromRegion r).1.Regular := by
  rw [allocPageFromRegion_eq]
  split
  · next w hstop => exact h.takePage (PmmRegion.mirrorPage_lt hstop)
  · exact h

end Region

theorem newRegion_regular {base : UIntPtr} {size : SizeT} {zone : PmmZone}
    (hpages : (newRegion base size zone).pages ≠ 0) : (newRegion base size zone).Regular := by
  have small := newRegion_pages_lt base size zone
  have words : (newRegion base size zone).bitmap.length = _ := newRegion_words base size zone
  have length : (newRegion base size zone).bitmap.length =
      (newRegion base size zone).bitmapSize.toNat := List.length_replicate
  refine ⟨small, length.symm.trans words, length, toNat_pos hpages, fun i _ => ?_⟩
  exact testBit64_of_words (bitmapWord_newRegion base size zone) i

/-! ## Runs -/

/-- What holds of the driver in every state of a run. -/
structure PmmRegular (s : Pmm) : Prop where
  regions : ∀ r ∈ s.regions, r.Regular
  uninitialized : s.initialized = false → s.regions = []

section Calls

variable {s : Pmm} {regions : List PmmRegion}

/-- An initialized driver with regular regions. -/
theorem PmmRegular.of_regions (hregions : ∀ r ∈ regions, r.Regular)
    (hinit : s.initialized = true) : PmmRegular { s with regions := regions } :=
  ⟨hregions, fun no => absurd (hinit.symm.trans no) (by decide)⟩

/-- One region is written to. -/
theorem regular_replace {pre post : List PmmRegion} {r r' : PmmRegion}
    (h : ∀ q ∈ pre ++ r :: post, q.Regular) (hr : r.Regular → r'.Regular) :
    ∀ q ∈ pre ++ r' :: post, q.Regular := by
  intro q hq
  rcases List.mem_append.mp hq with hq | hq
  · exact h q (List.mem_append_left _ hq)
  rcases List.mem_cons.mp hq with rfl | hq
  · exact hr (h r (by simp))
  · exact h q (by simp [hq])

theorem PmmRegular.replace (h : PmmRegular s) {pre post : List PmmRegion} {r r' : PmmRegion}
    (heq : s.regions = pre ++ r :: post) (hr : r.Regular → r'.Regular) :
    PmmRegular { s with regions := pre ++ r' :: post } := by
  refine ⟨regular_replace (heq ▸ h.regions) hr, fun no => ?_⟩
  have none := h.uninitialized no
  rw [heq] at none
  simp at none

theorem regular_updateRegionForAddr (h : ∀ r ∈ regions, r.Regular) {addr : UIntPtr}
    {f : PmmRegion → PmmRegion} (hf : ∀ r : PmmRegion, r.Regular → (f r).Regular) :
    ∀ r ∈ updateRegionForAddr addr f regions, r.Regular := by
  cases hfind : findRegionForAddr regions addr with
  | none =>
    rw [updateRegionForAddr_none hfind]
    exact h
  | some r =>
    obtain ⟨pre, post, rfl, -, hres⟩ := updateRegionForAddr_spec hfind
    rw [hres]
    exact regular_replace h (hf r)

theorem regular_reserveLoop (h : ∀ r ∈ regions, r.Regular) (alignedEnd : UIntPtr) (fuel : Nat)
    (addr : UIntPtr) : ∀ r ∈ reserveLoop alignedEnd fuel addr regions, r.Regular := by
  induction fuel generalizing addr regions with
  | zero => exact h
  | succ fuel ih =>
    rw [reserveLoop]
    split
    · refine ih (regular_updateRegionForAddr h fun r hr => ?_) _
      split
      · next inside =>
        refine hr.of_shape (by simp [PmmRegion.shape]) hr.hint fun j hj => ?_
        exact hr.padding_set (BitVec.lt_def.mp inside) hj
      · exact hr
    · exact h

/-- Several regions may be written to: one whose page is at address 0 does not end the loop. -/
theorem regular_allocPageFrom (want : PmmRegion → Bool) (h : ∀ r ∈ regions, r.Regular) :
    ∀ r ∈ (allocPageFrom want regions).1, r.Regular := by
  induction regions with
  | nil => exact h
  | cons r rest ih =>
    obtain ⟨hr, hrest⟩ := List.forall_mem_cons.mp h
    unfold allocPageFrom
    split
    · dsimp only
      split
      · exact List.forall_mem_cons.mpr ⟨allocPageFromRegion_regular hr, hrest⟩
      · exact List.forall_mem_cons.mpr ⟨allocPageFromRegion_regular hr, ih hrest⟩
    · exact List.forall_mem_cons.mpr ⟨hr, ih hrest⟩

theorem PmmRegular.allocPageZone (h : PmmRegular s) (zone : PmmZone) :
    PmmRegular (pmmAllocPageZone s zone).1 := by
  unfold pmmAllocPageZone
  split
  · exact h
  · next hinit =>
    have initialized : s.initialized = true := by simpa using hinit
    have first := regular_allocPageFrom (fun r => r.zone == zone) h.regions
    dsimp only
    split
    · exact PmmRegular.of_regions first initialized
    · exact PmmRegular.of_regions (regular_allocPageFrom _ first) initialized

theorem PmmRegular.allocPagesZone (h : PmmRegular s) (count : SizeT) (zone : PmmZone) :
    PmmRegular (pmmAllocPagesZone s count zone).1 := by
  rcases pmmAllocPagesZone_spec s count zone with
    hres | ⟨pre, r, post, start, heq, -, -, hfit, -, hres⟩
  · rw [hres]
    exact h
  · rw [hres]
    exact h.replace heq fun hr => hr.takePages hfit

theorem PmmRegular.freePages (h : PmmRegular s) (addr : UIntPtr) (count : SizeT)
    (past : Nat → Bool) : PmmRegular (pmmFreePages s addr count past).1 := by
  rcases pmmFreePages_spec s addr count past with hres | ⟨pre, r, post, heq, -, -, hres⟩
  · rw [hres]
    exact h
  · rw [hres]
    exact h.replace heq fun hr => hr.givePages _ count

/-- What each call keeps. -/
theorem PmmRegular.step (h : PmmRegular s) (c : PmmCall) : PmmRegular (c.effect s).after := by
  cases c with
  | init =>
    show PmmRegular (pmmInit s).1
    unfold pmmInit
    split
    · exact h
    · exact ⟨fun r hr => absurd hr List.not_mem_nil, fun _ => rfl⟩
  | addRegion base size zone heap =>
    show PmmRegular (pmmAddRegion s base size zone heap).1
    by_cases hinit : s.initialized = true
    · rcases pmmAddRegion_spec s base size zone heap with hres | ⟨hpages, hres⟩
      · rw [hres]
        exact h
      · rw [hres]
        exact PmmRegular.of_regions
          (List.forall_mem_cons.mpr ⟨newRegion_regular hpages, h.regions⟩) hinit
    · have failed : pmmAddRegion s base size zone heap = (s, -1) := by
        simp [pmmAddRegion, hinit]
      rw [failed]
      exact h
  | reserveRange start end_ =>
    show PmmRegular (pmmReserveRange s start end_).1
    unfold pmmReserveRange
    split
    · exact h
    · next hinit =>
      exact PmmRegular.of_regions (regular_reserveLoop h.regions _ _ _) (by simpa using hinit)
  | allocPage => exact h.allocPageZone .normal
  | allocPageZone zone => exact h.allocPageZone zone
  | allocPages count => exact h.allocPagesZone count .normal
  | allocPagesZone count zone => exact h.allocPagesZone count zone
  | freePage addr past => exact h.freePages addr 1 past
  | freePages addr count past => exact h.freePages addr count past

end Calls

theorem pmmRegular_start : PmmRegular pmmTraceStart.pmm :=
  ⟨fun _ hr => absurd hr List.not_mem_nil, fun _ => rfl⟩

theorem pmmRegular_run (calls : List PmmCall) :
    PmmRegular (runFrom pmmStep pmmTraceStart calls).pmm :=
  EveryStep.invariant (I := fun t => PmmRegular t.pmm) (fun _ c h _ => h.step c) pmmRegular_start
    (everyStep_true pmmStep pmmTraceStart calls)

/-! ## Frees within the bitmaps -/

/-- The range of a free does not wrap in the region where its address is found. -/
def FreeFits (s : Pmm) (addr : UIntPtr) (count : SizeT) : Prop :=
  ∀ r, findRegionForAddr s.regions addr = some r →
    (r.pageIdx addr).toNat + count.toNat < 2 ^ 32

def FreesFit (t : PmmTrace) : PmmCall → Prop
  | .freePage addr _ => FreeFits t.pmm addr 1
  | .freePages addr count _ => FreeFits t.pmm addr count
  | _ => True

/-- There are fewer than 2 ^ 20 page indices, so only a count near 2 ^ 32 can wrap. -/
theorem freeFits_of_lt {s : Pmm} {addr : UIntPtr} {count : SizeT}
    (h : count.toNat < 2 ^ 32 - 2 ^ 20) : FreeFits s addr count := by
  intro r _
  have bound := (addr - r.base).isLt
  rw [PmmRegion.pageIdx, BitVec.toNat_udiv, toNat_pmmPageSize]
  omega

/-- The loops of a free read and clear bits of the region's pages only. -/
def FreeTouchesPages (s : Pmm) (addr : UIntPtr) (count : SizeT) (past : Nat → Bool) : Prop :=
  ∀ r, pmmFreeRegion s addr count = some r →
    ∀ i ∈ r.freeTouches addr count past, i < r.pages.toNat

def TouchesPages (t : PmmTrace) : PmmCall → Prop
  | .freePage addr past => FreeTouchesPages t.pmm addr 1 past
  | .freePages addr count past => FreeTouchesPages t.pmm addr count past
  | _ => True

theorem FreeFits.touchesPages {s : Pmm} {addr : UIntPtr} {count : SizeT}
    (h : FreeFits s addr count) (past : Nat → Bool) : FreeTouchesPages s addr count past := by
  intro r hr i hi
  have starts := pmmFreeRegion_eq_some.mp hr
  have fits := h r starts.found
  have room := starts.room
  rw [BitVec.lt_def, BitVec.toNat_add, Nat.mod_eq_of_lt fits] at room
  have index := mem_freeIndices (Nat.le_of_lt fits) (mem_freeIndices_of_touched hi)
  omega

theorem FreesFit.touchesPages {t : PmmTrace} {c : PmmCall} (h : FreesFit t c) :
    TouchesPages t c := by
  cases c with
  | freePage addr past => exact FreeFits.touchesPages h past
  | freePages addr count past => exact FreeFits.touchesPages h past
  | _ => trivial

end Unics
