import Unics.Laws.Pmm.Extent
import Unics.Laws.Pmm.Regular

/-!
# The accounts of the pages

`pmm_get_stats` goes over the regions and adds up. What its figures stand for are sums of natural
numbers over the regions (`PmmStats.Counts`), and each figure is such a sum in a `size_t`. The
loop over a region's pages sees all bits of its bitmap that are set, because a regular region has
none behind its last page.

Nothing keeps regions from overlapping, so they may have more pages together than there are
addresses, and from 2 ^ 32 on the figures wrap. Below that they are the numbers themselves.
-/

namespace Unics

open Unics.Lib

/-! ## What there is to count -/

/-- The pages of a region whose bits are set. -/
def PmmRegion.allocated (r : PmmRegion) : Nat :=
  (List.range r.pages.toNat).countP (testBit64 r.bitmap)

/-- The bits of a region's bitmap that are set. -/
def PmmRegion.marked (r : PmmRegion) : Nat :=
  (List.range (64 * r.bitmap.length)).countP (testBit64 r.bitmap)

def PmmRegion.free (r : PmmRegion) : Nat := r.pages.toNat - r.allocated

/-- A number of each region, over all regions. -/
def sumIn (f : PmmRegion → Nat) (regions : List PmmRegion) : Nat := (regions.map f).sum

/-- The same over the regions of a zone. -/
def sumInZone (f : PmmRegion → Nat) (regions : List PmmRegion) (zone : PmmZone) : Nat :=
  sumIn (fun r => if r.zone = zone then f r else 0) regions

def pagesIn (regions : List PmmRegion) : Nat := sumIn (·.pages.toNat) regions

/-- The set bits of all bitmaps. -/
def markedIn (regions : List PmmRegion) : Nat := sumIn PmmRegion.marked regions

section Sums

variable (f : PmmRegion → Nat) (regions : List PmmRegion)

theorem sumIn_append (regions' : List PmmRegion) :
    sumIn f (regions ++ regions') = sumIn f regions + sumIn f regions' := by
  rw [sumIn, List.map_append, List.sum_append]
  rfl

theorem sumIn_push (r : PmmRegion) : sumIn f (regions ++ [r]) = sumIn f regions + f r := by
  rw [sumIn_append]
  rfl

theorem sumInZone_push (r : PmmRegion) (zone : PmmZone) :
    sumInZone f (regions ++ [r]) zone =
      sumInZone f regions zone + if r.zone = zone then f r else 0 :=
  sumIn_push _ regions r

/-- The zones share the regions out. -/
theorem sumInZone_sum :
    sumInZone f regions .dma + sumInZone f regions .normal + sumInZone f regions .high =
      sumIn f regions := by
  induction regions with
  | nil => rfl
  | cons r rest ih =>
    have cons (zone : PmmZone) : sumInZone f (r :: rest) zone =
        (if r.zone = zone then f r else 0) + sumInZone f rest zone := rfl
    have whole : sumIn f (r :: rest) = f r + sumIn f rest := rfl
    rw [cons, cons, cons, whole, ← ih]
    cases r.zone <;> simp <;> omega

end Sums

theorem PmmRegion.allocated_le (r : PmmRegion) : r.allocated ≤ r.pages.toNat :=
  List.countP_le_length.trans_eq List.length_range

/-- A regular region has no set bit that is not a page's. -/
theorem PmmRegion.Regular.marked_eq {r : PmmRegion} (h : r.Regular) : r.marked = r.allocated := by
  have length := h.length
  have words := h.words
  exact countP_range_of_clear (by omega) h.padding

/-- Every page is free or allocated. -/
theorem sumIn_pages (regions : List PmmRegion) :
    pagesIn regions = sumIn PmmRegion.free regions + sumIn PmmRegion.allocated regions := by
  induction regions with
  | nil => rfl
  | cons r rest ih =>
    have le := r.allocated_le
    have pages : pagesIn (r :: rest) = r.pages.toNat + pagesIn rest := rfl
    have free : sumIn PmmRegion.free (r :: rest) =
      (r.pages.toNat - r.allocated) + sumIn PmmRegion.free rest := rfl
    have allocated : sumIn PmmRegion.allocated (r :: rest) =
      r.allocated + sumIn PmmRegion.allocated rest := rfl
    omega

/-! ## What is counted -/

/-- The figures are those of the regions, each in a `size_t`. -/
structure PmmStats.Counts (stats : PmmStats) (regions : List PmmRegion) : Prop where
  total : stats.totalPages = BitVec.ofNat 32 (pagesIn regions)
  free : stats.freePages = BitVec.ofNat 32 (sumIn PmmRegion.free regions)
  allocated : stats.allocatedPages = BitVec.ofNat 32 (sumIn PmmRegion.allocated regions)
  zonesPages : ∀ zone,
    stats.zonesPages zone = BitVec.ofNat 32 (sumInZone (·.pages.toNat) regions zone)
  zonesFree : ∀ zone,
    stats.zonesFree zone = BitVec.ofNat 32 (sumInZone PmmRegion.free regions zone)

theorem countAllocated_eq (r : PmmRegion) : r.countAllocated = BitVec.ofNat 32 r.allocated := by
  rw [PmmRegion.countAllocated, foldl_count]
  exact BitVec.zero_add _

theorem PmmRegion.ofNat_pages (r : PmmRegion) : BitVec.ofNat 32 r.pages.toNat = r.pages := by
  rw [BitVec.ofNat_toNat, BitVec.setWidth_eq]

/-- `region->pages - allocated` does not wrap. -/
theorem sub_countAllocated (r : PmmRegion) :
    r.pages - r.countAllocated = BitVec.ofNat 32 r.free := by
  have le := r.allocated_le
  rw [countAllocated_eq, ← r.ofNat_pages]
  exact BitVec.ofNat_sub_ofNat_of_le _ _ (le.trans_lt r.pages.isLt) le

/-- A figure of a zone, as a region is added to it. -/
theorem update_zone {figure : PmmZone → SizeT} {f : PmmRegion → Nat} {regions : List PmmRegion}
    (h : ∀ zone, figure zone = BitVec.ofNat 32 (sumInZone f regions zone)) (r : PmmRegion)
    (zone : PmmZone) :
    Function.update figure r.zone (figure r.zone + BitVec.ofNat 32 (f r)) zone =
      BitVec.ofNat 32 (sumInZone f (regions ++ [r]) zone) := by
  rw [sumInZone_push]
  by_cases here : r.zone = zone
  · rw [if_pos here, here, Function.update_self, h, BitVec.ofNat_add_ofNat]
  · rw [if_neg here, Function.update_of_ne (Ne.symm here), h, Nat.add_zero]

/-- One turn of the loop. -/
theorem PmmStats.Counts.addRegion {stats : PmmStats} {regions : List PmmRegion}
    (h : stats.Counts regions) (r : PmmRegion) : (stats.addRegion r).Counts (regions ++ [r]) := by
  refine ⟨?_, ?_, ?_, fun zone => ?_, fun zone => ?_⟩
  · show stats.totalPages + r.pages = _
    rw [h.total, pagesIn, pagesIn, sumIn_push, ← BitVec.ofNat_add_ofNat, r.ofNat_pages]
  · show stats.freePages + (r.pages - r.countAllocated) = _
    rw [h.free, sumIn_push, sub_countAllocated, BitVec.ofNat_add_ofNat]
  · show stats.allocatedPages + r.countAllocated = _
    rw [h.allocated, sumIn_push, countAllocated_eq, BitVec.ofNat_add_ofNat]
  · have pushed := update_zone h.zonesPages r zone
    rwa [r.ofNat_pages] at pushed
  · have pushed := update_zone h.zonesFree r zone
    rwa [← sub_countAllocated] at pushed

/-- The loop, after some regions that it has seen. -/
theorem PmmStats.Counts.foldl {stats : PmmStats} {seen : List PmmRegion} (h : stats.Counts seen)
    (regions : List PmmRegion) :
    (regions.foldl PmmStats.addRegion stats).Counts (seen ++ regions) := by
  induction regions generalizing stats seen with
  | nil =>
    rw [List.append_nil]
    exact h
  | cons r rest ih =>
    rw [List.foldl_cons, List.append_cons]
    exact ih (h.addRegion r)

theorem pmmStatsZero_counts : pmmStatsZero.Counts [] :=
  ⟨rfl, rfl, rfl, fun _ => rfl, fun _ => rfl⟩

theorem PmmRegular.counts {s : Pmm} (h : PmmRegular s) : (pmmGetStats s).Counts s.regions := by
  unfold pmmGetStats
  split
  · next no =>
    rw [h.uninitialized (by simpa using no)]
    exact pmmStatsZero_counts
  · exact pmmStatsZero_counts.foldl s.regions

theorem PmmRegular.marked {s : Pmm} (h : PmmRegular s) :
    markedIn s.regions = sumIn PmmRegion.allocated s.regions :=
  congrArg List.sum (List.map_congr_left fun r hr => (h.regions r hr).marked_eq)

/-! ## What the figures should be -/

/-- What holds of the representation and of the figures, in the arithmetic of a `size_t`. -/
structure PmmAccounts (s : Pmm) : Prop where
  regular : ∀ r ∈ s.regions, r.Regular
  total : (pmmGetStats s).totalPages =
    (pmmGetStats s).freePages + (pmmGetStats s).allocatedPages
  allocated : (pmmGetStats s).allocatedPages = BitVec.ofNat 32 (markedIn s.regions)
  zonesPages : (pmmGetStats s).zonesPages .dma + (pmmGetStats s).zonesPages .normal +
    (pmmGetStats s).zonesPages .high = (pmmGetStats s).totalPages
  zonesFree : (pmmGetStats s).zonesFree .dma + (pmmGetStats s).zonesFree .normal +
    (pmmGetStats s).zonesFree .high = (pmmGetStats s).freePages

/-- The same of the numbers that the figures are. -/
structure PmmAccountsExact (s : Pmm) : Prop where
  regular : ∀ r ∈ s.regions, r.Regular
  total : (pmmGetStats s).totalPages.toNat =
    (pmmGetStats s).freePages.toNat + (pmmGetStats s).allocatedPages.toNat
  allocated : (pmmGetStats s).allocatedPages.toNat = markedIn s.regions
  zonesPages : ((pmmGetStats s).zonesPages .dma).toNat +
    ((pmmGetStats s).zonesPages .normal).toNat + ((pmmGetStats s).zonesPages .high).toNat =
      (pmmGetStats s).totalPages.toNat
  zonesFree : ((pmmGetStats s).zonesFree .dma).toNat + ((pmmGetStats s).zonesFree .normal).toNat +
    ((pmmGetStats s).zonesFree .high).toNat =
      (pmmGetStats s).freePages.toNat

section Figures

variable {s : Pmm} (h : PmmRegular s)

include h

theorem PmmRegular.accounts : PmmAccounts s := by
  have counts := h.counts
  refine ⟨h.regions, ?_, ?_, ?_, ?_⟩
  · rw [counts.total, counts.free, counts.allocated, BitVec.ofNat_add_ofNat, sumIn_pages]
  · rw [counts.allocated, h.marked]
  · rw [counts.zonesPages, counts.zonesPages, counts.zonesPages, counts.total,
      BitVec.ofNat_add_ofNat, BitVec.ofNat_add_ofNat, sumInZone_sum]
    rfl
  · rw [counts.zonesFree, counts.zonesFree, counts.zonesFree, counts.free,
      BitVec.ofNat_add_ofNat, BitVec.ofNat_add_ofNat, sumInZone_sum]

/-- With fewer than 2 ^ 32 pages in all, no figure wraps. -/
theorem PmmRegular.accountsExact (hpages : pagesIn s.regions < 2 ^ 32) : PmmAccountsExact s := by
  have counts := h.counts
  have pages := sumIn_pages s.regions
  have zonesPages := sumInZone_sum (·.pages.toNat) s.regions
  have zonesFree := sumInZone_sum PmmRegion.free s.regions
  have value {x : SizeT} {n : Nat} (hx : x = BitVec.ofNat 32 n) (hn : n ≤ pagesIn s.regions) :
      x.toNat = n := by
    rw [hx, BitVec.toNat_ofNat, Nat.mod_eq_of_lt (by omega)]
  have whole : sumIn (·.pages.toNat) s.regions = pagesIn s.regions := rfl
  refine ⟨h.regions, ?_, ?_, ?_, ?_⟩
  · rw [value counts.total (by omega), value counts.free (by omega),
      value counts.allocated (by omega), pages]
  · rw [value counts.allocated (by omega), h.marked]
  · rw [value (counts.zonesPages .dma) (by omega), value (counts.zonesPages .normal) (by omega),
      value (counts.zonesPages .high) (by omega), value counts.total (by omega), zonesPages]
    rfl
  · rw [value (counts.zonesFree .dma) (by omega), value (counts.zonesFree .normal) (by omega),
      value (counts.zonesFree .high) (by omega), value counts.free (by omega), zonesFree]

/-- The number of allocated pages is exact for as long as it fits. -/
theorem PmmRegular.allocated_iff :
    (pmmGetStats s).allocatedPages.toNat = markedIn s.regions ↔ markedIn s.regions < 2 ^ 32 := by
  rw [h.accounts.allocated, BitVec.toNat_ofNat]
  exact Nat.mod_eq_iff_lt (by decide)

end Figures

/-! ## Runs -/

/-- In every state of every run whose frees do not wrap, each region is regular, and the figures
are, as words, the ones of the regions. They are the numbers themselves while the regions have
fewer than 2 ^ 32 pages in all, and the allocated pages are while fewer than 2 ^ 32 bits are set.
No free of the run touches a bit that is not a page's. -/
theorem pmm_accounts {calls : List PmmCall}
    (h : EveryStep pmmStep FreesFit pmmTraceStart calls) :
    EveryState pmmStep
        (fun t => PmmAccounts t.pmm ∧
          (pagesIn t.pmm.regions < 2 ^ 32 → PmmAccountsExact t.pmm) ∧
          ((pmmGetStats t.pmm).allocatedPages.toNat = markedIn t.pmm.regions ↔
            markedIn t.pmm.regions < 2 ^ 32))
        pmmTraceStart calls ∧
      EveryStep pmmStep TouchesPages pmmTraceStart calls := by
  have keeps : ∀ (t : PmmTrace) (c : PmmCall), PmmRegular t.pmm → FreesFit t c →
      PmmRegular (pmmStep t c).pmm := fun _ c regular _ => regular.step c
  refine ⟨h.everyState keeps (fun t regular => ?_) pmmRegular_start,
    h.mono keeps (fun _ _ _ fits => fits.touchesPages) pmmRegular_start⟩
  exact ⟨regular.accounts, regular.accountsExact, regular.allocated_iff⟩

/-- Two pages are taken of a region and given back. -/
theorem pmm_accounts_pages :
    PmmAccounts (runFrom pmmStep pmmTraceStart
      [.init, .addRegion 0x100000 0x10000 .normal pmmHeapFull, .allocPages 2,
        .freePages 0x100000 2 (fun _ => false)]).pmm := by
  have two : (2 : SizeT).toNat < 2 ^ 32 - 2 ^ 20 := by decide
  have fits : EveryStep pmmStep FreesFit pmmTraceStart
      [.init, .addRegion 0x100000 0x10000 .normal pmmHeapFull, .allocPages 2,
        .freePages 0x100000 2 (fun _ => false)] :=
    ⟨trivial, trivial, trivial, freeFits_of_lt two, trivial⟩
  exact (pmm_accounts fits).1.last.1

/-! ## Regions over one another -/

/-- A region that is taken whole. -/
theorem PmmRegion.Regular.marked_takePages {r : PmmRegion} (h : r.Regular) :
    (r.takePages 0 r.pages.toNat).marked = r.pages.toNat := by
  have length := h.length
  have words := h.words
  have taken : (r.takePages 0 r.pages.toNat).Regular := h.takePages (by omega)
  rw [taken.marked_eq]
  refine (List.countP_eq_length.mpr fun i hi => ?_).trans List.length_range
  have inside : i < r.pages.toNat := List.mem_range.mp hi
  show testBit64 (setBits r.bitmap 0 r.pages.toNat) i = true
  rw [testBit64_setBits (by omega), decide_eq_true (by omega), Bool.true_or]

/-- The newest region of the zone, if nothing was taken from it, is taken whole. -/
theorem pmmAllocPages_whole {s : Pmm} (hinit : s.initialized = true) {r : PmmRegion}
    {rest : List PmmRegion} (hs : s.regions = r :: rest) (hzone : r.zone = .normal)
    (hpages : r.pages ≠ 0) (hclear : ∀ i, testBit64 r.bitmap i = false) :
    (pmmAllocPages s r.pages).1 =
      { s with regions := r.takePages 0 r.pages.toNat :: rest } := by
  have guard : ¬ (!s.initialized || r.pages == 0) = true := by simpa [hinit] using hpages
  have found : findConsecutive r r.pages.toNat (List.range r.pages.toNat) 0 0 = some 0 := by
    rw [List.range_eq_range']
    exact findConsecutive_of_clear hclear (toNat_pos hpages) (by omega) fun h0 => absurd rfl h0
  rw [pmmAllocPages, pmmAllocPagesZone, if_neg guard, hs, allocPagesFrom,
    if_neg (not_not_intro hzone), found]
  rfl

/-- Two calls that add a region and take its pages. -/
def crowdRound (base : UIntPtr) (size count : SizeT) : List PmmCall :=
  [.addRegion base size .normal pmmHeapFull, .allocPages count]

/-- As many regions over one another. -/
def crowdCalls (base : UIntPtr) (size count : SizeT) (n : Nat) : List PmmCall :=
  .init :: (List.replicate n (crowdRound base size count)).flatten

section Crowd

variable {base : UIntPtr} {size count : SizeT}
  (hcount : (newRegion base size .normal).pages = count) (hpos : count ≠ 0)

include hcount hpos

theorem crowdRound_regions {t : PmmTrace} (hinit : t.pmm.initialized = true) :
    (runFrom pmmStep t (crowdRound base size count)).pmm =
      { t.pmm with
        regions :=
          (newRegion base size .normal).takePages 0 count.toNat :: t.pmm.regions } := by
  subst hcount
  show (pmmAllocPages (pmmAddRegion t.pmm base size .normal pmmHeapFull).1
    (newRegion base size .normal).pages).1 = _
  have room : ¬ ((newRegion base size .normal).pages = 0 ∨ pmmHeapFull.malloc = false ∨
      pmmHeapFull.calloc = false) := by
    rintro (h | h | h)
    · exact hpos h
    · cases h
    · cases h
  rw [pmmAddRegion_eq hinit, if_neg room]
  have whole := pmmAllocPages_whole (r := newRegion base size .normal)
    (s := { t.pmm with regions := newRegion base size .normal :: t.pmm.regions }) hinit rfl rfl
    hpos (testBit64_of_words (bitmapWord_newRegion base size .normal))
  exact whole

theorem crowdRounds_marked {t : PmmTrace} (hinit : t.pmm.initialized = true) (n : Nat) :
    markedIn
        (runFrom pmmStep t (List.replicate n (crowdRound base size count)).flatten).pmm.regions =
      n * count.toNat + markedIn t.pmm.regions := by
  induction n generalizing t with
  | zero =>
    rw [Nat.zero_mul, Nat.zero_add]
    rfl
  | succ n ih =>
    have round := crowdRound_regions hcount hpos hinit
    have rest := ih (t := runFrom pmmStep t (crowdRound base size count))
      (by rw [round]; exact hinit)
    have regular : (newRegion base size .normal).Regular :=
      newRegion_regular (hcount ▸ hpos)
    have marked := regular.marked_takePages
    rw [hcount] at marked
    rw [List.replicate_succ, List.flatten_cons, runFrom_append, rest, round]
    show n * _ + (((newRegion base size .normal).takePages 0 _).marked + markedIn t.pmm.regions) = _
    rw [marked, Nat.succ_mul, Nat.add_assoc]

theorem crowdCalls_marked (n : Nat) :
    markedIn (runFrom pmmStep pmmTraceStart (crowdCalls base size count n)).pmm.regions =
      n * count.toNat :=
  crowdRounds_marked hcount hpos (t := pmmStep pmmTraceStart .init) rfl n

end Crowd

theorem crowdCalls_fit (base : UIntPtr) (size count : SizeT) (n : Nat) :
    EveryStep pmmStep FreesFit pmmTraceStart (crowdCalls base size count n) := by
  have all : ∀ c ∈ crowdCalls base size count n, ∀ t, FreesFit t c := by
    intro c hc t
    rcases List.mem_cons.mp hc with rfl | hc
    · trivial
    obtain ⟨round, hround, hc⟩ := List.mem_flatten.mp hc
    rw [(List.mem_replicate.mp hround).2] at hc
    rcases List.mem_cons.mp hc with rfl | hc
    · trivial
    · obtain rfl := List.mem_singleton.mp hc
      trivial
  exact EveryStep.mono (I := fun _ => True) (fun _ _ _ _ => trivial) (fun t _ _ h => h t) trivial
    (everyStep_of_forall all)

/-- 4097 regions of 2 ^ 20 - 1 pages each have more than 2 ^ 32 pages. All of them taken, the figure
of the allocated pages has wrapped. -/
theorem pmm_accounts_wrap :
    EveryStep pmmStep FreesFit pmmTraceStart (crowdCalls 0x1000 0xFFFFF000 0xFFFFF 4097) ∧
      markedIn (runFrom pmmStep pmmTraceStart
        (crowdCalls 0x1000 0xFFFFF000 0xFFFFF 4097)).pmm.regions = 4296011775 ∧
      (pmmGetStats (runFrom pmmStep pmmTraceStart
        (crowdCalls 0x1000 0xFFFFF000 0xFFFFF 4097)).pmm).allocatedPages = 1044479 ∧
      ¬ EveryState pmmStep (fun t => PmmAccountsExact t.pmm) pmmTraceStart
        (crowdCalls 0x1000 0xFFFFF000 0xFFFFF 4097) := by
  have pages : (newRegion 0x1000 0xFFFFF000 .normal).pages = 0xFFFFF := by decide
  have marked := crowdCalls_marked pages (by decide) 4097
  have product : 4097 * (0xFFFFF : SizeT).toNat = 4296011775 := by decide
  rw [product] at marked
  have figure := (pmmRegular_run (crowdCalls 0x1000 0xFFFFF000 0xFFFFF 4097)).accounts.allocated
  rw [marked] at figure
  refine ⟨crowdCalls_fit _ _ _ _, marked, figure, fun h => ?_⟩
  have exact_ := h.last.allocated
  rw [marked, figure] at exact_
  revert exact_
  decide

end Unics
