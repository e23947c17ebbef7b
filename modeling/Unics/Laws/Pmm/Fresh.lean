import Unics.Laws.Pmm.Calls

/-!
# A region that nothing was taken from

Over a list of one region whose bitmap is all clear, every call is determined: an allocation that
can succeed hands out the region's first page, and a free finds no bit set and fails.
-/

namespace Unics

open Unics.Lib

theorem PmmRegion.pageAddr_zero (r : PmmRegion) : r.pageAddr 0 = r.base := by
  simp [PmmRegion.pageAddr]

/-- The region that holds an address has its page. -/
theorem PmmRegion.pageIdx_lt {r : PmmRegion} (hwf : r.shape.Wf) {addr : UIntPtr}
    (hr : r.holds addr = true) : (r.pageIdx addr).toNat < r.pages.toNat := by
  simp only [PmmRegion.holds, Bool.and_eq_true, decide_eq_true_eq] at hr
  obtain ⟨le, lt⟩ := hr
  have fits : r.base.toNat + 4096 * r.pages.toNat ≤ 2 ^ 32 := hwf.fits
  have diff : (addr - r.base).toNat = addr.toNat - r.base.toNat := BitVec.toNat_sub_of_le le
  rw [BitVec.lt_def, BitVec.toNat_add, BitVec.toNat_mul, toNat_pmmPageSize] at lt
  rw [BitVec.le_def] at le
  rw [PmmRegion.pageIdx, BitVec.toNat_udiv, diff, toNat_pmmPageSize]
  omega

/-- A region as `pmm_add_region` makes it. -/
structure PmmRegion.Fresh (r : PmmRegion) : Prop where
  wf : r.shape.Wf
  pos : 0 < r.pages.toNat
  words : ∀ w, bitmapWord r.bitmap w = 0
  hint : r.lastAlloc = 0

theorem bitmapWord_newRegion (base : UIntPtr) (size : SizeT) (zone : PmmZone) (w : Nat) :
    bitmapWord (newRegion base size zone).bitmap w = 0 := by
  show (List.replicate _ (0 : BitVec 64)).getD w 0 = 0
  rw [List.getD_eq_getElem?_getD, List.getElem?_replicate]
  split <;> rfl

/-- A bitmap of zeros, wherever it is read. -/
theorem testBit64_of_words {bitmap : List (BitVec 64)} (h : ∀ w, bitmapWord bitmap w = 0)
    (i : Nat) : testBit64 bitmap i = false := by
  rw [testBit64, h]
  simp

theorem newRegion_fresh {base : UIntPtr} {size : SizeT} {zone : PmmZone} (hbase : base ≠ 0)
    (hfits : base.toNat + size.toNat ≤ 2 ^ 32) (hreach : ReachesPage base size)
    (hpages : (newRegion base size zone).pages ≠ 0) : (newRegion base size zone).Fresh where
  wf := newRegion_wf zone hbase hfits hreach hpages
  pos := toNat_pos hpages
  words := bitmapWord_newRegion base size zone
  hint := rfl

namespace PmmRegion.Fresh

variable {r : PmmRegion} (h : r.Fresh)

include h

theorem clear (i : Nat) : testBit64 r.bitmap i = false := testBit64_of_words h.words i

/-- The search for a page stops in the first word, and the mirror image of its highest bit is bit 0.
-/
theorem mirrorPage_zero : r.mirrorPage 0 = 0 := by
  rw [PmmRegion.mirrorPage, h.words]
  decide

theorem stopWord : r.stopWord = some 0 := by
  have stops : r.stopsAt 0 = true := by
    rw [PmmRegion.stopsAt, h.mirrorPage_zero, h.words, decide_eq_true h.pos]
    decide
  have order : r.searchOrder = 0 :: List.range' 1 (r.bitmapSize.toNat - 1) := by
    have size : r.bitmapSize.toNat = r.bitmap.length := h.wf.words
    have cover : r.pages.toNat ≤ 64 * r.bitmap.length := h.wf.cover
    have pos := h.pos
    have words : r.bitmapSize.toNat = (r.bitmapSize.toNat - 1) + 1 := by omega
    rw [PmmRegion.searchOrder, h.hint]
    show List.range' 0 r.bitmapSize.toNat ++ [] = _
    rw [List.append_nil, words, List.range'_succ]
    rfl
  rw [PmmRegion.stopWord, order, List.find?_cons, stops]

/-- A single-page call hands out the first page, whatever the zone asked for. -/
theorem allocPageZone (zone : PmmZone) :
    (pmmAllocPageZone { regions := [r], initialized := true } zone).2 = r.base := by
  have wf : ∀ q ∈ [r], q.shape.Wf := fun q hq => List.mem_singleton.mp hq ▸ h.wf
  have stop : pageStop [r] zone = some (r, 0) := by
    have any : stopRegion (fun _ => true) [r] = some (r, 0) := by
      simp [stopRegion, h.stopWord]
    rw [pageStop, any]
    cases hz : stopRegion (fun q => q.zone == zone) [r] with
    | none => rfl
    | some found =>
      obtain ⟨q, w⟩ := found
      obtain ⟨hq, hw⟩ := stopRegion_eq_some hz
      obtain rfl := List.mem_singleton.mp hq
      rw [h.stopWord] at hw
      rw [← Option.some.inj hw]
      rfl
  have spec := pmmAllocPageZone_spec (s := { regions := [r], initialized := true }) rfl wf zone
  rw [stop] at spec
  obtain ⟨pre, post, _, hres⟩ := spec
  rw [hres]
  show r.pageAddr (r.mirrorPage 0) = r.base
  rw [h.mirrorPage_zero, r.pageAddr_zero]

end PmmRegion.Fresh

/-- Over clear pages the search for consecutive pages stops as soon as it has seen enough of them.
-/
theorem findConsecutive_of_clear {r : PmmRegion} (hclear : ∀ i, testBit64 r.bitmap i = false)
    {count n : Nat} {i consecutive startPage : Nat} (hlt : consecutive < count)
    (henough : count ≤ consecutive + n)
    (hstart : consecutive ≠ 0 → startPage + consecutive = i) :
    findConsecutive r count (List.range' i n) consecutive startPage = some (i - consecutive) := by
  induction n generalizing i consecutive startPage with
  | zero => omega
  | succ n ih =>
    rw [List.range'_succ, findConsecutive, hclear, Bool.not_false, if_pos rfl]
    have start : (if consecutive = 0 then i else startPage) = i - consecutive := by
      split
      · omega
      · next hne => have := hstart hne; omega
    rw [start]
    dsimp only
    split
    · rfl
    · next hne =>
      have hle : consecutive ≤ i := by
        by_cases h0 : consecutive = 0
        · omega
        · have := hstart h0
          omega
      rw [ih (by omega) (by omega) (fun _ => by omega)]
      congr 1
      omega

/-- No region of the zone has `count` pages. -/
def NoRoom (regions : List PmmRegion) (count : SizeT) (zone : PmmZone) : Prop :=
  ∀ r ∈ regions, r.zone = zone → count = 0 ∨ r.pages < count

/-- Where no region has room, a multi-page call fails. -/
theorem pmmAllocPagesZone_of_noRoom {s : Pmm} {count : SizeT} {zone : PmmZone}
    (h : NoRoom s.regions count zone) : pmmAllocPagesZone s count zone = (s, null) := by
  rcases pmmAllocPagesZone_spec s count zone with
    hres | ⟨pre, r, post, start, heq, hpos, hz, hfit, -, -⟩
  · exact hres
  · have room := (h r (by simp [heq]) hz).resolve_left hpos
    rw [BitVec.lt_def] at room
    omega

/-- With room in a fresh region, a multi-page call hands out pages from the first on. -/
theorem PmmRegion.Fresh.allocPagesZone {r : PmmRegion} (h : r.Fresh) {count : SizeT}
    (hpos : count ≠ 0) (hle : count ≤ r.pages) :
    (pmmAllocPagesZone { regions := [r], initialized := true } count r.zone).2 = r.base := by
  have pos := toNat_pos hpos
  have guard : (!true || count == 0) = false := by simpa using hpos
  have found : findConsecutive r count.toNat (List.range r.pages.toNat) 0 0 = some 0 := by
    rw [List.range_eq_range']
    exact findConsecutive_of_clear h.clear pos (by rw [Nat.zero_add]; exact hle)
      fun h0 => absurd rfl h0
  simp only [pmmAllocPagesZone, guard, Bool.false_eq_true, if_false, allocPagesFrom, ne_eq,
    not_true_eq_false, found]
  exact r.pageAddr_zero

/-- Where no bit is set, a free fails. -/
theorem pmmFreePages_of_fresh {s : Pmm} (h : ∀ r ∈ s.regions, r.Fresh) (addr : UIntPtr)
    (count : SizeT) (past : Nat → Bool) : pmmFreePages s addr count past = (s, -1) := by
  unfold pmmFreePages
  split
  · rfl
  next hguard =>
  split
  · rfl
  split
  · rfl
  next r hr =>
  have fresh := h r (List.mem_of_find?_eq_some hr)
  dsimp only
  split
  · rfl
  rw [if_neg]
  intro hall
  -- the first bit that the check reads is clear
  have pos : 0 < count.toNat := by
    simp only [Bool.or_eq_true, beq_iff_eq, not_or] at hguard
    exact toNat_pos hguard.2
  have set := List.all_eq_true.mp hall 0 (List.mem_range.mpr pos)
  obtain ⟨_, _, _, holds, _⟩ := updateRegionForAddr_spec hr
  have inside : (r.pageIdx addr).toNat / 64 < r.bitmap.length :=
    fresh.wf.word_lt (PmmRegion.pageIdx_lt fresh.wf holds)
  rw [BitVec.add_zero, PmmRegion.testBit, if_pos inside, fresh.clear] at set
  cases set

/-- Below every region there is nothing to reserve. -/
theorem reserveLoop_of_below {alignedEnd : UIntPtr} {regions : List PmmRegion}
    (hbelow : ∀ r ∈ regions, alignedEnd ≤ r.base) (fuel : Nat) (addr : UIntPtr) :
    reserveLoop alignedEnd fuel addr regions = regions := by
  induction fuel generalizing addr with
  | zero => rfl
  | succ fuel ih =>
    rw [reserveLoop]
    split
    · next hlt =>
      have none : findRegionForAddr regions addr = none := by
        refine List.find?_eq_none.mpr fun r hr hholds => ?_
        simp only [PmmRegion.holds, Bool.and_eq_true, decide_eq_true_eq] at hholds
        have := hbelow r hr
        bv_omega
      rw [reservePage, updateRegionForAddr_none none, ih]
    · rfl

theorem pmmReserveRange_of_below {s : Pmm} {start end_ : UIntPtr}
    (hbelow : ∀ r ∈ s.regions, pmmPageAlignUp end_ ≤ r.base) :
    (pmmReserveRange s start end_).1 = s := by
  unfold pmmReserveRange
  split
  · rfl
  · dsimp only
    rw [reserveLoop_of_below hbelow]

end Unics
