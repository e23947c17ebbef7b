import Unics.Laws.Pmm.Ownership

/-!
# A range allocated and given back

The search of `pmm_alloc_pages_zone` works with page indices of one region; `pmm_free_pages` and
`pmm_is_page_allocated` start from an address and look for the region again. The two views agree
exactly when the lookup comes back to the region the range was taken from, and nothing in the
driver sees to that: a region that ends at 4 GiB holds no address at all, since its end wraps to 0,
and regions may overlap.

No region of any run needs more than a page-aligned base, fewer than 2 ^ 20 pages and a bit for
each page (`PmmShape.Framed`), which holds of every region that `pmm_add_region` makes.
-/

namespace Unics

open Unics.Lib

/-! ## Regions of any run -/

/-- What is true of a region wherever it lies. -/
structure PmmShape.Framed (h : PmmShape) : Prop where
  aligned : h.base.toNat % 4096 = 0
  small : 4096 * h.pages.toNat < 2 ^ 32
  cover : h.pages.toNat ≤ 64 * h.words

/-- Wherever a range lies, the region made from it has its base on a page and a bit for a page. -/
theorem newRegion_framed (base : UIntPtr) (size : SizeT) (zone : PmmZone) :
    (newRegion base size zone).shape.Framed := by
  have pages := newRegion_pages_lt base size zone
  have words := newRegion_words base size zone
  have small : 4096 * (newRegion base size zone).pages.toNat < 2 ^ 32 := by omega
  refine ⟨?_, small, ?_⟩
  · show (pmmPageAlignUp base).toNat % 4096 = 0
    rw [pmmPageAlignUp_eq, toNat_pmmPageAlignDown]
    exact Nat.mul_mod_left _ _
  · show (newRegion base size zone).pages.toNat ≤ 64 * (newRegion base size zone).shape.words
    omega

@[simp] theorem layout_updateRegionForAddr {addr : UIntPtr} {f : PmmRegion → PmmRegion}
    (hf : ∀ r, (f r).shape = r.shape) (regions : List PmmRegion) :
    layout (updateRegionForAddr addr f regions) = layout regions := by
  induction regions with
  | nil => rfl
  | cons q rest ih =>
    rw [updateRegionForAddr]
    split
    · rw [layout_cons, layout_cons, hf]
    · rw [layout_cons, layout_cons, ih]

theorem layout_reservePage (addr : UIntPtr) (regions : List PmmRegion) :
    layout (reservePage addr regions) = layout regions := by
  refine layout_updateRegionForAddr (fun r => ?_) regions
  split
  · simp [PmmRegion.shape]
  · rfl

theorem layout_reserveLoop (alignedEnd : UIntPtr) (fuel : Nat) (addr : UIntPtr)
    (regions : List PmmRegion) :
    layout (reserveLoop alignedEnd fuel addr regions) = layout regions := by
  induction fuel generalizing addr regions with
  | zero => rfl
  | succ fuel ih =>
    rw [reserveLoop]
    split
    · rw [ih, layout_reservePage]
    · rfl

theorem shape_allocPageFromRegion (r : PmmRegion) : (allocPageFromRegion r).1.shape = r.shape := by
  rw [allocPageFromRegion_eq]
  split
  · exact shape_takePage r _
  · rfl

theorem layout_allocPageFrom (want : PmmRegion → Bool) (regions : List PmmRegion) :
    layout (allocPageFrom want regions).1 = layout regions := by
  induction regions with
  | nil => rfl
  | cons r rest ih =>
    unfold allocPageFrom
    split
    · dsimp only
      split
      · rw [layout_cons, layout_cons, shape_allocPageFromRegion]
      · rw [layout_cons, layout_cons, shape_allocPageFromRegion, ih]
    · dsimp only
      rw [layout_cons, layout_cons, ih]

theorem layout_pmmAllocPageZone (s : Pmm) (zone : PmmZone) :
    layout (pmmAllocPageZone s zone).1.regions = layout s.regions := by
  unfold pmmAllocPageZone
  split
  · rfl
  · dsimp only
    split
    · exact layout_allocPageFrom _ _
    · exact (layout_allocPageFrom _ _).trans (layout_allocPageFrom _ _)

theorem layout_pmmAllocPagesZone (s : Pmm) (count : SizeT) (zone : PmmZone) :
    layout (pmmAllocPagesZone s count zone).1.regions = layout s.regions := by
  rcases pmmAllocPagesZone_spec s count zone with
    h | ⟨pre, r, post, start, heq, -, -, -, -, h⟩
  · rw [h]
  · rw [h, heq]
    simp

theorem layout_pmmFreePages (s : Pmm) (addr : UIntPtr) (count : SizeT) (past : Nat → Bool) :
    layout (pmmFreePages s addr count past).1.regions = layout s.regions := by
  rcases pmmFreePages_spec s addr count past with h | ⟨pre, r, post, heq, -, -, h⟩
  · rw [h]
  · rw [h, heq]
    simp

/-- What every region is made with, no call takes from a region. -/
theorem shapes_step {P : PmmShape → Prop}
    (hnew : ∀ base size zone, P (newRegion base size zone).shape) {t : PmmTrace}
    (h : ∀ r ∈ t.pmm.regions, P r.shape) (c : PmmCall) :
    ∀ r ∈ (pmmStep t c).pmm.regions, P r.shape := by
  have keep {after : Pmm} (hlayout : layout after.regions = layout t.pmm.regions) :
      ∀ r ∈ after.regions, P r.shape := shapes_of_layout hlayout h
  cases c with
  | init =>
    show ∀ r ∈ (pmmInit t.pmm).1.regions, P r.shape
    unfold pmmInit
    split
    · exact h
    · exact fun r hr => absurd hr List.not_mem_nil
  | addRegion base size zone heap =>
    show ∀ r ∈ (pmmAddRegion t.pmm base size zone heap).1.regions, P r.shape
    rcases pmmAddRegion_spec t.pmm base size zone heap with hres | ⟨-, hres⟩
    · rw [hres]
      exact h
    · rw [hres]
      intro r hr
      rcases List.mem_cons.mp hr with rfl | hr
      · exact hnew base size zone
      · exact h r hr
  | reserveRange start end_ =>
    show ∀ r ∈ (pmmReserveRange t.pmm start end_).1.regions, P r.shape
    unfold pmmReserveRange
    split
    · exact h
    · exact shapes_of_layout (layout_reserveLoop _ _ _ _) h
  | allocPage => exact keep (layout_pmmAllocPageZone t.pmm .normal)
  | allocPageZone zone => exact keep (layout_pmmAllocPageZone t.pmm zone)
  | allocPages count => exact keep (layout_pmmAllocPagesZone t.pmm count .normal)
  | allocPagesZone count zone => exact keep (layout_pmmAllocPagesZone t.pmm count zone)
  | freePage addr past => exact keep (layout_pmmFreePages t.pmm addr 1 past)
  | freePages addr count past => exact keep (layout_pmmFreePages t.pmm addr count past)

/-- Every region that a run holds has what regions are made with. -/
theorem shapes_run {P : PmmShape → Prop}
    (hnew : ∀ base size zone, P (newRegion base size zone).shape) (calls : List PmmCall) :
    ∀ r ∈ (runFrom pmmStep pmmTraceStart calls).pmm.regions, P r.shape :=
  EveryStep.invariant (I := fun t => ∀ r ∈ t.pmm.regions, P r.shape)
    (fun _ c h _ => shapes_step hnew h c) (fun _ hr => absurd hr List.not_mem_nil)
    (everyStep_true pmmStep pmmTraceStart calls)

/-- Every region of the driver is framed. -/
def PmmFramed (t : PmmTrace) : Prop := ∀ r ∈ t.pmm.regions, r.shape.Framed

theorem pmmFramed_run (calls : List PmmCall) : PmmFramed (runFrom pmmStep pmmTraceStart calls) :=
  shapes_run newRegion_framed calls

/-! ## The range that the search finds -/

/-- `count` pages of the region from `start` on are clear. -/
structure ClearRange (r : PmmRegion) (start count : Nat) : Prop where
  fits : start + count ≤ r.pages.toNat
  clear : ∀ j, start ≤ j → j < start + count → testBit64 r.bitmap j = false

/-- The search finds a range when there is one, and then no later than the first. What carries the
induction is that every clear range begins within the pages being counted, or after them. -/
theorem findConsecutive_lowest {r : PmmRegion} {count n start : Nat}
    (hrange : ClearRange r start count) {i consecutive startPage : Nat}
    (hstate : RunState r i consecutive startPage) (hmore : consecutive < count)
    (hend : i + n = r.pages.toNat) (hwithin : i ≤ start + consecutive) :
    ∃ s, findConsecutive r count (List.range' i n) consecutive startPage = some s ∧ s ≤ start := by
  induction n generalizing i consecutive startPage with
  | zero =>
    have := hrange.fits
    omega
  | succ n ih =>
    rw [List.range'_succ, findConsecutive]
    by_cases hbit : testBit64 r.bitmap i = true
    · rw [hbit, Bool.not_true, if_neg Bool.false_ne_true]
      have after : i < start := by
        by_contra hle
        have clear := hrange.clear i (by omega) (by omega)
        rw [hbit] at clear
        cases clear
      exact ih ⟨fun h => absurd rfl h, fun j _ _ => by omega⟩ (by omega) (by omega) (by omega)
    · have hclear : testBit64 r.bitmap i = false := Bool.not_eq_true _ ▸ hbit
      rw [hclear, Bool.not_false, if_pos rfl]
      have begins : (if consecutive = 0 then i else startPage) + (consecutive + 1) = i + 1 := by
        split
        · omega
        · next hne => have := hstate.begins hne; omega
      dsimp only
      split
      · exact ⟨_, rfl, by omega⟩
      · refine ih ⟨fun _ => begins, fun j hj hlt => ?_⟩ (by omega) (by omega) (by omega)
        by_cases hji : j = i
        · exact hji ▸ hclear
        · exact hstate.clear j (by omega) (by omega)

/-- The first range of `count` clear pages in the zone: in the first region of the list that has
one, the lowest. -/
structure FirstRange (regions : List PmmRegion) (count : Nat) (zone : PmmZone)
    (pre : List PmmRegion) (r : PmmRegion) (post : List PmmRegion) (start : Nat) : Prop where
  split : regions = pre ++ r :: post
  inZone : r.zone = zone
  range : ClearRange r start count
  lowest : ∀ start', ClearRange r start' count → start ≤ start'
  first : ∀ q ∈ pre, q.zone = zone → ∀ start', ¬ ClearRange q start' count

/-- There is one first range at most. -/
theorem FirstRange.unique {regions pre pre' post post' : List PmmRegion} {count start start' : Nat}
    {zone : PmmZone} {r r' : PmmRegion} (h : FirstRange regions count zone pre r post start)
    (h' : FirstRange regions count zone pre' r' post' start') :
    pre = pre' ∧ r = r' ∧ post = post' ∧ start = start' := by
  have same := h.split.symm.trans h'.split
  have order : pre = pre' ∧ r :: post = r' :: post' := by
    rcases List.append_eq_append_iff.mp same with ⟨mid, hpre, hrest⟩ | ⟨mid, hpre, hrest⟩
    · cases mid with
      | nil => exact ⟨by rw [hpre, List.append_nil], hrest⟩
      | cons q mid =>
        obtain ⟨rfl, -⟩ := List.cons.inj hrest
        exact absurd h.range (h'.first r (by simp [hpre]) h.inZone start)
    · cases mid with
      | nil => exact ⟨by rw [hpre, List.append_nil], hrest.symm⟩
      | cons q mid =>
        obtain ⟨rfl, -⟩ := List.cons.inj hrest
        exact absurd h'.range (h.first r' (by simp [hpre]) h'.inZone start')
  obtain ⟨rfl, hrest⟩ := order
  obtain ⟨rfl, rfl⟩ := List.cons.inj hrest
  exact ⟨rfl, rfl, rfl, Nat.le_antisymm (h.lowest _ h'.range) (h'.lowest _ h.range)⟩

/-- The loop over the regions takes the first range, or there is none. -/
theorem allocPagesFrom_first {count : SizeT} (hpos : count ≠ 0) (zone : PmmZone) :
    ∀ regions : List PmmRegion,
      allocPagesFrom count zone regions = (regions, null) ∧
        (∀ q ∈ regions, q.zone = zone → ∀ start, ¬ ClearRange q start count.toNat) ∨
      ∃ pre r post start, FirstRange regions count.toNat zone pre r post start ∧
        allocPagesFrom count zone regions =
          (pre ++ r.takePages start count.toNat :: post, r.pageAddr start)
  | [] => .inl ⟨rfl, fun _ hq => absurd hq List.not_mem_nil⟩
  | r :: rest => by
    have skip (hnone : r.zone = zone → ∀ start, ¬ ClearRange r start count.toNat)
        (halloc : allocPagesFrom count zone (r :: rest) =
          (r :: (allocPagesFrom count zone rest).1, (allocPagesFrom count zone rest).2)) :
        allocPagesFrom count zone (r :: rest) = (r :: rest, null) ∧
          (∀ q ∈ r :: rest, q.zone = zone → ∀ start, ¬ ClearRange q start count.toNat) ∨
        ∃ pre r' post start, FirstRange (r :: rest) count.toNat zone pre r' post start ∧
          allocPagesFrom count zone (r :: rest) =
            (pre ++ r'.takePages start count.toNat :: post, r'.pageAddr start) := by
      rw [halloc]
      rcases allocPagesFrom_first hpos zone rest with ⟨h, hall⟩ | ⟨pre, r', post, start, hfirst, h⟩
      · exact .inl ⟨by rw [h], List.forall_mem_cons.mpr ⟨hnone, hall⟩⟩
      · refine .inr ⟨r :: pre, r', post, start,
          ⟨?_, hfirst.inZone, hfirst.range, hfirst.lowest, ?_⟩, ?_⟩
        · rw [hfirst.split, List.cons_append]
        · exact List.forall_mem_cons.mpr ⟨hnone, hfirst.first⟩
        · rw [h]
          rfl
    have begin : RunState r 0 0 0 := ⟨fun h => absurd rfl h, fun j _ hlt => by omega⟩
    have pos := toNat_pos hpos
    by_cases hz : r.zone = zone
    · cases hf : findConsecutive r count.toNat (List.range r.pages.toNat) 0 0 with
      | none =>
        refine skip (fun _ start hrange => ?_)
          (by rw [allocPagesFrom, if_neg (not_not_intro hz), hf])
        rw [List.range_eq_range'] at hf
        obtain ⟨s, hs, -⟩ :=
          findConsecutive_lowest hrange begin pos (Nat.zero_add _) (Nat.zero_le _)
        rw [hf] at hs
        cases hs
      | some start =>
        rw [List.range_eq_range'] at hf
        have found := findConsecutive_sound begin hf
        have range : ClearRange r start count.toNat := ⟨by omega, found.2⟩
        refine .inr ⟨[], r, rest, start, ⟨rfl, hz, range, fun start' hrange => ?_,
          fun _ hq => absurd hq List.not_mem_nil⟩, ?_⟩
        · obtain ⟨s, hs, hle⟩ :=
            findConsecutive_lowest hrange begin pos (Nat.zero_add _) (Nat.zero_le _)
          rw [hf] at hs
          exact Option.some.inj hs ▸ hle
        · rw [allocPagesFrom, if_neg (not_not_intro hz), List.range_eq_range', hf]
          rfl
    · exact skip (fun h => absurd h hz) (by rw [allocPagesFrom, if_pos hz])

/-! ## The address and the index -/

section Region

variable {r : PmmRegion} {i start count : Nat}

/-- A page address, with its wrap. -/
theorem toNat_pageAddr (r : PmmRegion) (hi : 4096 * i < 2 ^ 32) :
    (r.pageAddr i).toNat = (r.base.toNat + 4096 * i) % 2 ^ 32 := by
  have small : i < 2 ^ 32 := by omega
  rw [PmmRegion.pageAddr, BitVec.toNat_add, BitVec.toNat_mul, BitVec.toNat_ofNat,
    Nat.mod_eq_of_lt small, toNat_pmmPageSize, Nat.add_mod_mod, Nat.mul_comm]

/-- The index is found again from the address, wherever the region lies. -/
theorem pageIdx_pageAddr (r : PmmRegion) (hi : 4096 * i < 2 ^ 32) :
    (r.pageIdx (r.pageAddr i)).toNat = i := by
  have small : i < 2 ^ 32 := by omega
  have offset : r.pageAddr i - r.base = BitVec.ofNat 32 i * pmmPageSize := by
    rw [PmmRegion.pageAddr, BitVec.add_comm, BitVec.add_sub_cancel]
  rw [PmmRegion.pageIdx, offset, BitVec.toNat_udiv, BitVec.toNat_mul, BitVec.toNat_ofNat,
    Nat.mod_eq_of_lt small, toNat_pmmPageSize]
  omega

theorem isPageAligned_pageAddr (hr : r.shape.Framed) (hi : 4096 * i < 2 ^ 32) :
    pmmIsPageAligned (r.pageAddr i) = true := by
  have base : r.base.toNat % 4096 = 0 := hr.aligned
  have low : (r.pageAddr i &&& (pmmPageSize - 1)).toNat = 0 := by
    rw [toNat_and_mask (m := pmmPageSize - 1) (k := 12) (by decide), toNat_pageAddr r hi]
    omega
  exact beq_iff_eq.mpr (BitVec.eq_of_toNat_eq low)

/-- A region holds its pages, except that one that reaches 4 GiB holds nothing. -/
theorem holds_pageAddr_iff (hr : r.shape.Framed) (hi : i < r.pages.toNat) :
    r.holds (r.pageAddr i) = true ↔ r.base.toNat + 4096 * r.pages.toNat < 2 ^ 32 := by
  have small : 4096 * r.pages.toNat < 2 ^ 32 := hr.small
  have page := toNat_pageAddr r (by omega : 4096 * i < 2 ^ 32)
  have end_ : (r.base + r.pages * pmmPageSize).toNat =
      (r.base.toNat + 4096 * r.pages.toNat) % 2 ^ 32 := by
    rw [BitVec.toNat_add, BitVec.toNat_mul, toNat_pmmPageSize, Nat.add_mod_mod, Nat.mul_comm]
  have base := r.base.isLt
  simp only [PmmRegion.holds, Bool.and_eq_true, decide_eq_true_eq, BitVec.le_def, BitVec.lt_def,
    page, end_]
  omega

/-- Marking a range and clearing it again puts the bitmap back, if the range was clear. -/
theorem clearBits_setBits (hr : r.shape.Framed) (h : ClearRange r start count) :
    clearBits (setBits r.bitmap start count) (BitVec.ofNat 32 start) (BitVec.ofNat 32 count) =
      r.bitmap := by
  have small : 4096 * r.pages.toNat < 2 ^ 32 := hr.small
  have cover : r.pages.toNat ≤ 64 * r.bitmap.length := hr.cover
  have fits := h.fits
  have turns : (BitVec.ofNat 32 count).toNat = count := by
    rw [BitVec.toNat_ofNat, Nat.mod_eq_of_lt (by omega)]
  refine bitmap_ext (by rw [length_clearBits, length_setBits]) fun j => Bool.eq_iff_iff.mpr ?_
  rw [testBit64_clearBits, testBit64_setBits (by omega), turns]
  have index {i : Nat} (hi : i < count) :
      (BitVec.ofNat 32 start + BitVec.ofNat 32 i).toNat = start + i := by
    rw [← BitVec.ofNat_add, BitVec.toNat_ofNat, Nat.mod_eq_of_lt (by omega)]
  by_cases hj : start ≤ j ∧ j < start + count
  · rw [h.clear j hj.1 hj.2, decide_eq_true hj]
    refine iff_of_false (fun hboth => hboth.2 (j - start) (by omega) ?_) Bool.false_ne_true
    rw [index (by omega)]
    omega
  · rw [decide_eq_false hj, Bool.false_or]
    refine and_iff_left fun i hi heq => hj ?_
    rw [index hi] at heq
    omega

end Region

/-! ## The lookup -/

theorem findRegionForAddr_append (pre rest : List PmmRegion) (addr : UIntPtr) :
    findRegionForAddr (pre ++ rest) addr =
      (findRegionForAddr pre addr).or (findRegionForAddr rest addr) := List.find?_append

theorem findRegionForAddr_cons (q : PmmRegion) (rest : List PmmRegion) (addr : UIntPtr) :
    findRegionForAddr (q :: rest) addr =
      if q.holds addr then some q else findRegionForAddr rest addr := by
  rw [findRegionForAddr, List.find?_cons]
  cases q.holds addr <;> rfl

/-- A write through the region of an address leaves a region that is not the one found. -/
theorem updateRegionForAddr_other {pre post : List PmmRegion} {r : PmmRegion} {addr : UIntPtr}
    (h : (findRegionForAddr pre addr).isSome ∨ r.holds addr = false) (f : PmmRegion → PmmRegion) :
    (updateRegionForAddr addr f (pre ++ r :: post))[pre.length]? = some r := by
  induction pre with
  | nil =>
    have : ¬ r.holds addr = true := by simpa [findRegionForAddr] using h
    rw [List.nil_append, updateRegionForAddr, if_neg this]
    rfl
  | cons q pre ih =>
    rw [List.cons_append, updateRegionForAddr]
    by_cases hq : q.holds addr = true
    · rw [if_pos hq]
      simp
    · rw [findRegionForAddr_cons, if_neg hq] at h
      rw [if_neg hq]
      exact ih h

/-- A write through the region of an address changes the first region that holds it. -/
theorem updateRegionForAddr_first {pre post : List PmmRegion} {r : PmmRegion} {addr : UIntPtr}
    (hpre : findRegionForAddr pre addr = none) (hr : r.holds addr = true)
    (f : PmmRegion → PmmRegion) :
    updateRegionForAddr addr f (pre ++ r :: post) = pre ++ f r :: post := by
  induction pre with
  | nil => rw [List.nil_append, updateRegionForAddr, if_pos hr, List.nil_append]
  | cons q pre ih =>
    have hq : ¬ q.holds addr = true := List.find?_eq_none.mp hpre q List.mem_cons_self
    rw [findRegionForAddr_cons, if_neg hq] at hpre
    rw [List.cons_append, updateRegionForAddr, if_neg hq, ih hpre, List.cons_append]

/-- A free writes through the region of its address, or not at all. -/
theorem pmmFreePages_regions (s : Pmm) (addr : UIntPtr) (count : SizeT) (past : Nat → Bool) :
    (pmmFreePages s addr count past).1.regions = s.regions ∨
      ∃ f, (pmmFreePages s addr count past).1.regions = updateRegionForAddr addr f s.regions := by
  unfold pmmFreePages
  split
  · exact .inl rfl
  split
  · exact .inl rfl
  split
  · exact .inl rfl
  dsimp only
  split
  · exact .inl rfl
  split
  · exact .inr ⟨_, rfl⟩
  · exact .inl rfl

/-! ## The round trip -/

/-- In `t` the pages from `p` on are marked, and freeing them puts back the bitmaps of `s`. -/
structure RoundTrip (s t : Pmm) (p : UIntPtr) (count : SizeT) (past : Nat → Bool) : Prop where
  allocated : ∀ q ∈ pagesFrom p count, pmmIsPageAllocated t q = true
  freed : (pmmFreePages t p count past).2 = 0
  restored : (pmmFreePages t p count past).1.regions.map PmmRegion.bitmap =
    s.regions.map PmmRegion.bitmap

/-- A multi-page call that hands out a range hands out one that makes the round trip. -/
def AllocRoundTrips (s : Pmm) (count : SizeT) (zone : PmmZone) (past : Nat → Bool) : Prop :=
  (pmmAllocPagesZone s count zone).2 ≠ null →
    RoundTrip s (pmmAllocPagesZone s count zone).1 (pmmAllocPagesZone s count zone).2 count past

/-- The lookup comes back to region `r`, which `pre` stands in front of: the region ends below
4 GiB, no region in front holds the first address, and one that holds another address of the range
has its page marked anyway. -/
structure Retraceable (pre : List PmmRegion) (r : PmmRegion) (start count : Nat) : Prop where
  below : r.base.toNat + 4096 * r.pages.toNat < 2 ^ 32
  first : findRegionForAddr pre (r.pageAddr start) = none
  marked : ∀ i < count, ∀ q, findRegionForAddr pre (r.pageAddr (start + i)) = some q →
    testBit64 q.bitmap (q.pageIdx (r.pageAddr (start + i))).toNat = true

/-- The first clear range of the zone, where it does not begin at address 0, is retraceable. -/
def AllocRetraceable (s : Pmm) (count : SizeT) (zone : PmmZone) : Prop :=
  s.initialized = true → count ≠ 0 → ∀ pre r post start,
    FirstRange s.regions count.toNat zone pre r post start → r.pageAddr start ≠ null →
      Retraceable pre r start count.toNat

section RoundTrip

variable {pre post : List PmmRegion} {r : PmmRegion} {start : Nat} {count : SizeT}

/-- The driver after the range was taken. -/
def takenFrom (pre post : List PmmRegion) (r : PmmRegion) (start : Nat) (count : SizeT) : Pmm :=
  { regions := pre ++ r.takePages start count.toNat :: post, initialized := true }

/-- Where the lookup does not come back to the region, its bits stay set. -/
theorem not_restored (hr : r.shape.Framed) (hrange : ClearRange r start count.toNat)
    (hpos : count ≠ 0) {p : UIntPtr}
    (hother : (findRegionForAddr pre p).isSome ∨ r.holds p = false) (past : Nat → Bool) :
    (pmmFreePages (takenFrom pre post r start count) p count past).1.regions.map PmmRegion.bitmap ≠
      (pre ++ r :: post).map PmmRegion.bitmap := by
  intro hsame
  have cover : r.pages.toNat ≤ 64 * r.bitmap.length := hr.cover
  have fits := hrange.fits
  have pos := toNat_pos hpos
  have kept :
      (pmmFreePages (takenFrom pre post r start count) p count past).1.regions[pre.length]? =
        some (r.takePages start count.toNat) := by
    rcases pmmFreePages_regions (takenFrom pre post r start count) p count past with h | ⟨f, h⟩
    · rw [h]
      simp [takenFrom]
    · rw [h]
      exact updateRegionForAddr_other (r := r.takePages start count.toNat) hother f
  have here := congrArg (·[pre.length]?) hsame
  simp only [List.getElem?_map, kept, Option.map_some] at here
  have same : (r.takePages start count.toNat).bitmap = r.bitmap := by simpa using here
  have bitmap : setBits r.bitmap start count.toNat = r.bitmap := same
  have marked := @testBit64_setBits r.bitmap start count.toNat start (by omega)
  rw [bitmap, hrange.clear start (Nat.le_refl _) (by omega)] at marked
  simp [pos] at marked

/-- Whether a page of the range counts as allocated, where it has an address. -/
theorem isPageAllocated_taken (hr : r.shape.Framed) (hrange : ClearRange r start count.toNat)
    (hbelow : r.base.toNat + 4096 * r.pages.toNat < 2 ^ 32) {i : Nat} (hi : i < count.toNat)
    (hpage : r.pageAddr (start + i) ≠ null) :
    pmmIsPageAllocated (takenFrom pre post r start count) (r.pageAddr (start + i)) = true ↔
      ∀ q, findRegionForAddr pre (r.pageAddr (start + i)) = some q →
        testBit64 q.bitmap (q.pageIdx (r.pageAddr (start + i))).toNat = true := by
  have cover : r.pages.toNat ≤ 64 * r.bitmap.length := hr.cover
  have small : 4096 * r.pages.toNat < 2 ^ 32 := hr.small
  have fits := hrange.fits
  have holds : (r.takePages start count.toNat).holds (r.pageAddr (start + i)) = true :=
    (holds_pageAddr_iff hr (by omega)).mpr hbelow
  have index := pageIdx_pageAddr r (i := start + i) (by omega)
  have guard : (!true || r.pageAddr (start + i) == null) = false := by simpa using hpage
  simp only [pmmIsPageAllocated, takenFrom, guard, Bool.false_eq_true, if_false,
    findRegionForAddr_append, findRegionForAddr_cons, holds, if_true]
  cases findRegionForAddr pre (r.pageAddr (start + i)) with
  | some q =>
    simp only [Option.some_or, Option.some.injEq, forall_eq']
  | none =>
    simp only [Option.none_or, reduceCtorEq, false_implies, implies_true, iff_true]
    show testBit64 (setBits r.bitmap start count.toNat) (r.pageIdx (r.pageAddr (start + i))).toNat =
      true
    rw [index, testBit64_setBits (by omega), decide_eq_true (by omega), Bool.true_or]

/-- Where the lookup comes back to the region, the free gives back what was taken. -/
theorem freePages_taken (hr : r.shape.Framed) (hrange : ClearRange r start count.toNat)
    (hpos : count ≠ 0) (hpage : r.pageAddr start ≠ null)
    (hbelow : r.base.toNat + 4096 * r.pages.toNat < 2 ^ 32)
    (hfirst : findRegionForAddr pre (r.pageAddr start) = none) (past : Nat → Bool) :
    pmmFreePages (takenFrom pre post r start count) (r.pageAddr start) count past =
      ({ regions := pre ++ (r.takePages start count.toNat).givePages
          (r.pageIdx (r.pageAddr start)) count :: post, initialized := true }, 0) := by
  have pos := toNat_pos hpos
  have cover : r.pages.toNat ≤ 64 * r.bitmap.length := hr.cover
  have small : 4096 * r.pages.toNat < 2 ^ 32 := hr.small
  have fits := hrange.fits
  have holds : (r.takePages start count.toNat).holds (r.pageAddr start) = true :=
    (holds_pageAddr_iff hr (by omega)).mpr hbelow
  have index := pageIdx_pageAddr r (i := start) (by omega)
  have guard : (!true || r.pageAddr start == null || count == 0) = false := by
    simpa [hpage] using hpos
  have aligned : ¬ (!pmmIsPageAligned (r.pageAddr start)) = true := by
    rw [isPageAligned_pageAddr hr (by omega)]
    exact Bool.false_ne_true
  have step {i : Nat} (hi : i < count.toNat) :
      (r.pageIdx (r.pageAddr start) + BitVec.ofNat 32 i).toNat = start + i := by
    rw [BitVec.toNat_add, index, BitVec.toNat_ofNat]
    omega
  have room : ¬ (r.takePages start count.toNat).pages <
      (r.takePages start count.toNat).pageIdx (r.pageAddr start) + count := by
    show ¬ r.pages < r.pageIdx (r.pageAddr start) + count
    rw [BitVec.lt_def, BitVec.toNat_add, index]
    omega
  have marked : (List.range count.toNat).all (fun i =>
      (r.takePages start count.toNat).testBit past
        ((r.takePages start count.toNat).pageIdx (r.pageAddr start) + BitVec.ofNat 32 i).toNat) =
      true := by
    refine List.all_eq_true.mpr fun i hi => ?_
    show (r.takePages start count.toNat).testBit past
      (r.pageIdx (r.pageAddr start) + BitVec.ofNat 32 i).toNat = true
    have hlt := List.mem_range.mp hi
    have word : (start + i) / 64 < (setBits r.bitmap start count.toNat).length := by
      rw [length_setBits]
      omega
    rw [step hlt, PmmRegion.testBit, PmmRegion.takePages, if_pos word,
      testBit64_setBits (by omega), decide_eq_true (by omega), Bool.true_or]
  have found : findRegionForAddr (pre ++ r.takePages start count.toNat :: post) (r.pageAddr start) =
      some (r.takePages start count.toNat) := by
    rw [findRegionForAddr_append, hfirst, Option.none_or, findRegionForAddr_cons, if_pos holds]
  unfold pmmFreePages
  simp only [takenFrom, guard, Bool.false_eq_true, if_false, aligned, found]
  rw [if_neg room, if_pos marked, updateRegionForAddr_first hfirst holds]
  rfl

/-- The round trip comes off exactly when the range is retraceable. -/
theorem roundTrip_taken_iff {s : Pmm} (hs : s.regions = pre ++ r :: post) (hr : r.shape.Framed)
    (hrange : ClearRange r start count.toNat) (hpos : count ≠ 0) (hpage : r.pageAddr start ≠ null)
    (past : Nat → Bool) :
    RoundTrip s (takenFrom pre post r start count) (r.pageAddr start) count past ↔
      Retraceable pre r start count.toNat := by
  have pos := toNat_pos hpos
  have small : 4096 * r.pages.toNat < 2 ^ 32 := hr.small
  have fits := hrange.fits
  have nonzero : (r.pageAddr start).toNat ≠ 0 := fun h => hpage (BitVec.eq_of_toNat_eq h)
  -- below 4 GiB no page of the range wraps to address 0
  have page (hbelow : r.base.toNat + 4096 * r.pages.toNat < 2 ^ 32) {i : Nat}
      (hi : i < count.toNat) : r.pageAddr (start + i) ≠ null := by
    intro hnull
    have here := congrArg BitVec.toNat hnull
    rw [toNat_pageAddr r (by omega), toNat_null] at here
    rw [toNat_pageAddr r (by omega)] at nonzero
    omega
  have member {i : Nat} (hi : i < count.toNat) :
      r.pageAddr (start + i) ∈ pagesFrom (r.pageAddr start) count :=
    mem_pagesFrom.mpr ⟨i, hi, pageAddr_add r start i⟩
  constructor
  · intro h
    have restored := h.restored
    rw [hs] at restored
    have first : findRegionForAddr pre (r.pageAddr start) = none := by
      by_contra hsome
      have hsome := Option.isSome_iff_ne_none.mpr hsome
      exact not_restored hr hrange hpos (.inl hsome) past restored
    have below : r.base.toNat + 4096 * r.pages.toNat < 2 ^ 32 := by
      by_contra hwraps
      have hnot : ¬ r.holds (r.pageAddr start) = true :=
        fun h => hwraps ((holds_pageAddr_iff hr (by omega)).mp h)
      exact not_restored hr hrange hpos (.inr (Bool.not_eq_true _ ▸ hnot)) past restored
    refine ⟨below, first, fun i hi => ?_⟩
    exact (isPageAllocated_taken hr hrange below hi (page below hi)).mp
      (h.allocated _ (member hi))
  · intro h
    have free := @freePages_taken pre post r start count hr hrange hpos hpage h.below h.first past
    refine ⟨fun q hq => ?_, by rw [free], ?_⟩
    · obtain ⟨i, hi, rfl⟩ := mem_pagesFrom.mp hq
      rw [pageAddr_add]
      exact (isPageAllocated_taken hr hrange h.below hi (page h.below hi)).mpr (h.marked i hi)
    · have index : r.pageIdx (r.pageAddr start) = BitVec.ofNat 32 start := by
        apply BitVec.eq_of_toNat_eq
        rw [pageIdx_pageAddr r (by omega), BitVec.toNat_ofNat, Nat.mod_eq_of_lt (by omega)]
      have back := clearBits_setBits hr hrange
      rw [BitVec.ofNat_toNat, BitVec.setWidth_eq] at back
      rw [free, hs, index]
      simp [PmmRegion.givePages, PmmRegion.takePages, back]

end RoundTrip

/-- In every state of every run, whatever regions were added, a multi-page call makes the round trip
exactly when the first clear range of its zone is retraceable. -/
theorem alloc_roundTrips_iff (calls : List PmmCall) (count : SizeT) (zone : PmmZone)
    (past : Nat → Bool) :
    AllocRoundTrips (runFrom pmmStep pmmTraceStart calls).pmm count zone past ↔
      AllocRetraceable (runFrom pmmStep pmmTraceStart calls).pmm count zone := by
  have framed := pmmFramed_run calls
  unfold PmmFramed at framed
  generalize (runFrom pmmStep pmmTraceStart calls).pmm = s at framed
  unfold AllocRoundTrips AllocRetraceable
  by_cases hguard : s.initialized = true ∧ count ≠ 0
  · obtain ⟨hinit, hpos⟩ := hguard
    have guard : ¬ (!s.initialized || count == 0) = true := by simpa [hinit] using hpos
    rw [pmmAllocPagesZone, if_neg guard]
    rcases allocPagesFrom_first hpos zone s.regions with
      ⟨halloc, hnone⟩ | ⟨pre, r, post, start, hfirst, halloc⟩
    · rw [halloc]
      refine iff_of_true (fun h => absurd rfl h) fun _ _ pre r post start hfirst _ => ?_
      exact absurd hfirst.range (hnone r (by simp [hfirst.split]) hfirst.inZone start)
    · have hr := framed r (by simp [hfirst.split])
      have taken := @roundTrip_taken_iff pre post r start count s hfirst.split hr hfirst.range hpos
      rw [halloc]
      simp only [hinit]
      constructor
      · intro h _ _ pre' r' post' start' hfirst' hpage
        obtain ⟨rfl, rfl, rfl, rfl⟩ := hfirst.unique hfirst'
        exact (taken hpage past).mp (h hpage)
      · intro h hpage
        exact (taken hpage past).mpr (h trivial hpos pre r post start hfirst hpage)
  · have guard : (!s.initialized || count == 0) = true := by
      by_contra hne
      simp only [Bool.or_eq_true, Bool.not_eq_true', beq_iff_eq, not_or, Bool.not_eq_false] at hne
      exact hguard hne
    rw [pmmAllocPagesZone, if_pos guard]
    exact iff_of_true (fun h => absurd rfl h) fun hinit hpos => absurd ⟨hinit, hpos⟩ hguard

/-- A region that ends at 4 GiB: its only page is handed out, and no lookup finds it again. -/
theorem alloc_roundTrips_fails :
    ¬ AllocRoundTrips (runFrom pmmStep pmmTraceStart
        [.init, .addRegion 0xFFFFF000 0x1000 .normal pmmHeapFull]).pmm 1 .normal
      fun _ => false := by
  intro h
  have freed := (h (by decide)).freed
  revert freed
  decide

end Unics
