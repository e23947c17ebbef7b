import Unics.Laws.Pmm.Attempts
import Unics.Laws.Pmm.Freeing

/-!
# A reserved range, marked and kept

`pmm_reserve_range` rounds both ends to pages, steps through the addresses between them, looks each
one up and sets the bit of its page. The lookup answers one region for an address, so what a call
sets is settled by `holder`, the number of that region (`reserveLoop_sets`). Two sums wrap. An end
in the last page of the address space rounds up to 0 and the loop makes no turn; the end of a region
that reaches 4 GiB is 0 and no lookup finds it.

A page that was marked stays away from every later allocation as long as no free covers it, no
single-page call takes a page that is set, and no region is added over it (`notReturned_run`).
-/

namespace Unics

open Unics.Lib

/-! ## What a call should do -/

/-- The page at `p` and the range from `start` to `end_` have an address in common. -/
def Overlaps (start end_ p : UIntPtr) : Prop :=
  p.toNat < end_.toNat ∧ start.toNat < p.toNat + 4096

instance (start end_ p : UIntPtr) : Decidable (Overlaps start end_ p) :=
  inferInstanceAs (Decidable (_ ∧ _))

/-- `r'` is the region `r` with the bits of the chosen pages set, and nothing else changed. -/
structure SetsBits (chosen : UIntPtr → Prop) (r r' : PmmRegion) : Prop where
  rest : { r' with bitmap := r.bitmap } = r
  words : r'.bitmap.length = r.bitmap.length
  bits : ∀ j, testBit64 r'.bitmap j = true ↔
    testBit64 r.bitmap j = true ∨ (j < r.pages.toNat ∧ chosen (r.pageAddr j))

/-- The same of a list, where the choice may depend on the number of the region. -/
structure SetsPages (chosen : Nat → UIntPtr → Prop) (before after : List PmmRegion) : Prop where
  length : after.length = before.length
  regions : ∀ k r, before[k]? = some r → ∃ r', after[k]? = some r' ∧ SetsBits (chosen k) r r'

/-- What an exact reservation does: its loop ends, it answers 0, and it sets the bits of the managed
pages that the range overlaps and no others. -/
structure ReservesExactly (s : Pmm) (start end_ : UIntPtr) : Prop where
  ends : ∃ n ≤ 2 ^ 20,
    ¬ pmmPageAlignDown start + BitVec.ofNat 32 n * pmmPageSize < pmmPageAlignUp end_ ∧
      ∀ i < n, pmmPageAlignDown start + BitVec.ofNat 32 i * pmmPageSize < pmmPageAlignUp end_
  marks : ∃ after, pmmReserveRange s start end_ = ({ s with regions := after }, 0) ∧
    SetsPages (fun _ p => Overlaps start end_ p) s.regions after

/-- The number of the region that `find_region_for_addr` answers. -/
def holder (regions : List PmmRegion) (addr : UIntPtr) : Option Nat :=
  regions.findIdx? (·.holds addr)

/-- The loop comes to every page that the range overlaps, in each region that has it, or finds the
bit set. -/
def ReserveReaches (regions : List PmmRegion) (start end_ : UIntPtr) : Prop :=
  ∀ k r, regions[k]? = some r → ∀ j < r.pages.toNat, Overlaps start end_ (r.pageAddr j) →
    testBit64 r.bitmap j = true ∨
      (end_.toNat ≤ 0xFFFFF000 ∧ holder regions (r.pageAddr j) = some k)

/-! ## Setting chosen pages -/

section Sets

variable {chosen other : UIntPtr → Prop} {r r' r'' : PmmRegion}

theorem SetsBits.shape (h : SetsBits chosen r r') : r'.shape = r.shape := by
  have words := h.words
  rw [PmmRegion.shape, PmmRegion.shape, words, ← h.rest]

theorem SetsBits.pageAddr (h : SetsBits chosen r r') (j : Nat) : r'.pageAddr j = r.pageAddr j := by
  rw [← h.rest]
  rfl

theorem SetsBits.pages (h : SetsBits chosen r r') : r'.pages = r.pages := by
  rw [← h.rest]

theorem SetsBits.refl (hnone : ∀ p, ¬ chosen p) (r : PmmRegion) : SetsBits chosen r r where
  rest := rfl
  words := rfl
  bits _ := (or_iff_left fun h => hnone _ h.2).symm

/-- Two sets of pages, one after the other. -/
theorem SetsBits.trans (h : SetsBits chosen r r') (h' : SetsBits other r' r'') :
    SetsBits (fun p => chosen p ∨ other p) r r'' where
  rest := by
    rw [← h.rest, ← h'.rest]
  words := h'.words.trans h.words
  bits j := by
    rw [h'.bits, h.bits, h.pages, h.pageAddr]
    constructor
    · rintro ((hset | ⟨hj, hc⟩) | ⟨hj, ho⟩)
      · exact .inl hset
      · exact .inr ⟨hj, .inl hc⟩
      · exact .inr ⟨hj, .inr ho⟩
    · rintro (hset | ⟨hj, hc | ho⟩)
      · exact .inl (.inl hset)
      · exact .inl (.inr ⟨hj, hc⟩)
      · exact .inr ⟨hj, ho⟩

/-- A write that sets the chosen pages sets others too exactly when those are set already. -/
theorem SetsBits.iff (h : SetsBits chosen r r') :
    SetsBits other r r' ↔ ∀ j < r.pages.toNat,
      testBit64 r.bitmap j = true ∨ (chosen (r.pageAddr j) ↔ other (r.pageAddr j)) := by
  constructor
  · intro h' j hj
    by_cases hset : testBit64 r.bitmap j = true
    · exact .inl hset
    · have both := (h.bits j).symm.trans (h'.bits j)
      simp only [hset, hj, Bool.false_eq_true, false_or, true_and] at both
      exact .inr both
  · intro hall
    refine ⟨h.rest, h.words, fun j => ?_⟩
    rw [h.bits]
    by_cases hj : j < r.pages.toNat
    · rcases hall j hj with hset | hiff
      · simp only [hset, true_or]
      · rw [hiff]
    · simp only [hj, false_and]

end Sets

section SetsPages

variable {chosen other : Nat → UIntPtr → Prop} {before mid after : List PmmRegion}

theorem SetsPages.refl (hnone : ∀ k p, ¬ chosen k p) (regions : List PmmRegion) :
    SetsPages chosen regions regions :=
  ⟨rfl, fun k r hr => ⟨r, hr, .refl (hnone k) r⟩⟩

theorem SetsPages.trans (h : SetsPages chosen before mid) (h' : SetsPages other mid after) :
    SetsPages (fun k p => chosen k p ∨ other k p) before after := by
  refine ⟨h'.length.trans h.length, fun k r hr => ?_⟩
  obtain ⟨r', hr', sets⟩ := h.regions k r hr
  obtain ⟨r'', hr'', sets'⟩ := h'.regions k r' hr'
  exact ⟨r'', hr'', sets.trans sets'⟩

/-- The region that stood where one stands now. -/
theorem SetsPages.origin (h : SetsPages chosen before after) {k : Nat} {r' : PmmRegion}
    (hr' : after[k]? = some r') : ∃ r, before[k]? = some r ∧ SetsBits (chosen k) r r' := by
  have lt : k < before.length := h.length ▸ (List.getElem?_eq_some_iff.mp hr').1
  obtain ⟨q, hq, sets⟩ := h.regions k _ (List.getElem?_eq_getElem lt)
  rw [hr'] at hq
  obtain rfl := Option.some.inj hq
  exact ⟨_, List.getElem?_eq_getElem lt, sets⟩

theorem SetsPages.congr (h : SetsPages chosen before after)
    (hiff : ∀ k p, chosen k p ↔ other k p) : SetsPages other before after := by
  have same : chosen = other := funext fun k => funext fun p => propext (hiff k p)
  exact same ▸ h

theorem SetsPages.iff (h : SetsPages chosen before after) :
    SetsPages other before after ↔ ∀ k r, before[k]? = some r → ∀ j < r.pages.toNat,
      testBit64 r.bitmap j = true ∨ (chosen k (r.pageAddr j) ↔ other k (r.pageAddr j)) := by
  constructor
  · intro h' k r hr
    obtain ⟨r', hr', sets⟩ := h.regions k r hr
    obtain ⟨q, hq, sets'⟩ := h'.regions k r hr
    rw [hr'] at hq
    obtain rfl := Option.some.inj hq
    exact sets.iff.mp sets'
  · intro hall
    refine ⟨h.length, fun k r hr => ?_⟩
    obtain ⟨r', hr', sets⟩ := h.regions k r hr
    exact ⟨r', hr', sets.iff.mpr (hall k r hr)⟩

end SetsPages

/-! ## The loop -/

/-- The lookup reads what no reservation changes. -/
theorem holder_of_layout {before after : List PmmRegion} (h : layout after = layout before)
    (addr : UIntPtr) : holder after addr = holder before addr := by
  let holds (q : PmmShape) : Bool := q.base ≤ addr && addr < q.base + q.pages * pmmPageSize
  have read (regions : List PmmRegion) : holder regions addr = (layout regions).findIdx? holds := by
    rw [layout, List.findIdx?_map]
    rfl
  rw [read, read, h]

/-- A write through the region of an address changes the region of that number. -/
theorem updateRegionForAddr_getElem? (addr : UIntPtr) (f : PmmRegion → PmmRegion)
    (regions : List PmmRegion) (k : Nat) :
    (updateRegionForAddr addr f regions)[k]? =
      regions[k]?.map fun r => if holder regions addr = some k then f r else r := by
  induction regions generalizing k with
  | nil => rfl
  | cons q rest ih =>
    rw [updateRegionForAddr, holder, List.findIdx?_cons]
    by_cases hq : q.holds addr = true
    · rw [if_pos hq, if_pos hq]
      cases k with
      | zero => rfl
      | succ k => cases h : rest[k]? <;> simp [h]
    · rw [if_neg hq, if_neg hq]
      cases k with
      | zero => cases h : rest.findIdx? (·.holds addr) <;> simp
      | succ k =>
        rw [List.getElem?_cons_succ, ih, List.getElem?_cons_succ, holder]
        cases h : rest.findIdx? (·.holds addr) <;> simp

theorem length_updateRegionForAddr (addr : UIntPtr) (f : PmmRegion → PmmRegion)
    (regions : List PmmRegion) : (updateRegionForAddr addr f regions).length = regions.length := by
  induction regions with
  | nil => rfl
  | cons q rest ih =>
    rw [updateRegionForAddr]
    split
    · rfl
    · rw [List.length_cons, List.length_cons, ih]

theorem holds_of_holder {regions : List PmmRegion} {addr : UIntPtr} {k : Nat} {r : PmmRegion}
    (h : holder regions addr = some k) (hr : regions[k]? = some r) : r.holds addr = true := by
  obtain ⟨hk, holds, -⟩ := List.findIdx?_eq_some_iff_getElem.mp h
  rw [List.getElem?_eq_getElem hk] at hr
  exact Option.some.inj hr ▸ holds

theorem isPageAligned_iff {addr : UIntPtr} :
    pmmIsPageAligned addr = true ↔ addr.toNat % 4096 = 0 := by
  have low := toNat_and_mask (x := addr) (m := pmmPageSize - 1) (k := 12) (by decide)
  rw [pmmIsPageAligned, beq_iff_eq, ← BitVec.toNat_inj, low]
  rfl

/-- One turn of the loop sets the page at its address, in the region that the lookup answers. -/
theorem reservePage_sets {regions : List PmmRegion} (hmade : ∀ r ∈ regions, r.shape.Made)
    {addr : UIntPtr} (haddr : addr.toNat % 4096 = 0) :
    SetsPages (fun k p => p = addr ∧ holder regions p = some k) regions
      (reservePage addr regions) := by
  refine ⟨length_updateRegionForAddr _ _ regions, fun k r hr => ?_⟩
  rw [reservePage, updateRegionForAddr_getElem?, hr, Option.map_some]
  by_cases hk : holder regions addr = some k
  · have made := hmade r (List.mem_of_getElem? hr)
    have small : 4096 * r.pages.toNat < 2 ^ 32 := made.small
    obtain ⟨inside, at_⟩ := PmmRegion.pageIdx_of_holds made.toFramed (holds_of_holder hk hr)
      (isPageAligned_iff.mpr haddr)
    have cover : r.pages.toNat ≤ 64 * r.bitmap.length := made.cover
    rw [if_pos hk, if_pos (BitVec.lt_def.mpr inside)]
    refine ⟨_, rfl, rfl, length_setBit64 _ _, fun j => ?_⟩
    rw [testBit64_setBit64 (by omega), Bool.or_eq_true, decide_eq_true_eq, or_comm]
    refine or_congr Iff.rfl ⟨?_, ?_⟩
    · rintro rfl
      exact ⟨inside, at_, by rw [at_]; exact hk⟩
    · rintro ⟨hj, rfl, -⟩
      exact pageIdx_pageAddr r (by omega)
  · rw [if_neg hk]
    refine ⟨r, rfl, .refl ?_ r⟩
    rintro p ⟨rfl, hp⟩
    exact hk hp

/-- The page addresses from `addr` up to `alignedEnd`. -/
def Between (addr alignedEnd p : UIntPtr) : Prop :=
  p.toNat % 4096 = 0 ∧ addr.toNat ≤ p.toNat ∧ p.toNat < alignedEnd.toNat

theorem reserveLoop_stop {alignedEnd addr : UIntPtr} (h : ¬ addr < alignedEnd) (fuel : Nat)
    (regions : List PmmRegion) : reserveLoop alignedEnd fuel addr regions = regions := by
  cases fuel with
  | zero => rfl
  | succ fuel => rw [reserveLoop, if_neg h]

/-- With enough turns, the loop sets the pages at the addresses it steps through. -/
theorem reserveLoop_sets {alignedEnd : UIntPtr} (hend : alignedEnd.toNat % 4096 = 0) {fuel : Nat}
    {addr : UIntPtr} (haddr : addr.toNat % 4096 = 0)
    (hfuel : alignedEnd.toNat ≤ addr.toNat + 4096 * fuel) {regions : List PmmRegion}
    (hmade : ∀ r ∈ regions, r.shape.Made) :
    SetsPages (fun k p => Between addr alignedEnd p ∧ holder regions p = some k) regions
      (reserveLoop alignedEnd fuel addr regions) := by
  have stop {addr : UIntPtr} (h : ¬ addr < alignedEnd) (p : UIntPtr) :
      ¬ Between addr alignedEnd p := by
    rintro ⟨-, low, high⟩
    rw [BitVec.lt_def] at h
    omega
  induction fuel generalizing addr regions with
  | zero =>
    refine .refl ?_ regions
    rintro k p ⟨between, -⟩
    exact stop (by rw [BitVec.lt_def]; omega) p between
  | succ fuel ih =>
    rw [reserveLoop]
    split
    · next hlt =>
      rw [BitVec.lt_def] at hlt
      have bound := alignedEnd.isLt
      have next : (addr + pmmPageSize).toNat = addr.toNat + 4096 := by
        rw [BitVec.toNat_add, toNat_pmmPageSize, Nat.mod_eq_of_lt (by omega)]
      have layout := layout_reservePage addr regions
      have made : ∀ r ∈ reservePage addr regions, r.shape.Made := shapes_of_layout layout hmade
      have aligned : (addr + pmmPageSize).toNat % 4096 = 0 := by omega
      have rest := ih aligned (by omega) made
      refine ((reservePage_sets hmade haddr).trans rest).congr fun k p => ?_
      rw [holder_of_layout layout, ← or_and_right]
      refine and_congr ⟨?_, ?_⟩ Iff.rfl
      · rintro (rfl | ⟨aligned, low, high⟩)
        · exact ⟨haddr, Nat.le_refl _, hlt⟩
        · exact ⟨aligned, by omega, high⟩
      · rintro ⟨aligned, low, high⟩
        by_cases hp : p.toNat = addr.toNat
        · exact .inl (BitVec.eq_of_toNat_eq hp)
        · exact .inr ⟨aligned, by omega, high⟩
    · next hge =>
      refine .refl ?_ regions
      rintro k p ⟨between, -⟩
      exact stop hge p between

/-! ## The call -/

section Call

variable {start end_ p : UIntPtr}

theorem toNat_pmmPageAlignUp_mod (x : UIntPtr) : (pmmPageAlignUp x).toNat % 4096 = 0 := by
  rw [pmmPageAlignUp_eq, toNat_pmmPageAlignDown]
  exact Nat.mul_mod_left _ _

/-- The loop steps through the pages that the range overlaps, unless the rounded end is 0. -/
theorem between_iff (hp : p.toNat % 4096 = 0) :
    Between (pmmPageAlignDown start) (pmmPageAlignUp end_) p ↔
      end_.toNat ≤ 0xFFFFF000 ∧ Overlaps start end_ p := by
  have down := toNat_pmmPageAlignDown start
  have bound := p.isLt
  unfold Between Overlaps
  by_cases hend : end_.toNat + 4095 < 2 ^ 32
  · have up := toNat_pmmPageAlignUp hend
    omega
  · have up : (pmmPageAlignUp end_).toNat = 0 := by rw [pmmPageAlignUp_wraps hend]; rfl
    omega

/-- The loop ends where it reaches the rounded end, or before its first turn. -/
theorem reserve_ends (start end_ : UIntPtr) : ∃ n ≤ 2 ^ 20,
    ¬ pmmPageAlignDown start + BitVec.ofNat 32 n * pmmPageSize < pmmPageAlignUp end_ ∧
      ∀ i < n, pmmPageAlignDown start + BitVec.ofNat 32 i * pmmPageSize < pmmPageAlignUp end_ := by
  have low : (pmmPageAlignDown start).toNat % 4096 = 0 := by
    rw [toNat_pmmPageAlignDown]
    exact Nat.mul_mod_left _ _
  have high := toNat_pmmPageAlignUp_mod end_
  have bound := (pmmPageAlignUp end_).isLt
  have bound' := (pmmPageAlignDown start).isLt
  generalize pmmPageAlignDown start = a at low bound' ⊢
  generalize pmmPageAlignUp end_ = e at high bound ⊢
  refine ⟨(e.toNat - a.toNat) / 4096, by omega, ?_, fun i hi => ?_⟩
  · rw [BitVec.lt_def, toNat_add_pages (by omega)]
    omega
  · rw [BitVec.lt_def, toNat_add_pages (by omega)]
    omega

variable {s : Pmm} (hinit : s.initialized = true) (hmade : ∀ r ∈ s.regions, r.shape.Made)

include hinit hmade

/-- What a call sets, whatever the range. -/
theorem pmmReserveRange_sets (start end_ : UIntPtr) :
    ∃ after, pmmReserveRange s start end_ = ({ s with regions := after }, 0) ∧
      SetsPages (fun k p => Between (pmmPageAlignDown start) (pmmPageAlignUp end_) p ∧
        holder s.regions p = some k) s.regions after := by
  have low : (pmmPageAlignDown start).toNat % 4096 = 0 := by
    rw [toNat_pmmPageAlignDown]
    exact Nat.mul_mod_left _ _
  have bound := (pmmPageAlignUp end_).isLt
  have enough : (pmmPageAlignUp end_).toNat ≤ (pmmPageAlignDown start).toNat + 4096 * 2 ^ 20 := by
    omega
  refine ⟨_, ?_, reserveLoop_sets (toNat_pmmPageAlignUp_mod end_) low enough hmade⟩
  rw [pmmReserveRange, hinit]
  rfl

/-- A call is exact exactly when its loop comes to every page it should set. -/
theorem reservesExactly_iff (start end_ : UIntPtr) :
    ReservesExactly s start end_ ↔ ReserveReaches s.regions start end_ := by
  obtain ⟨after, call, sets⟩ := pmmReserveRange_sets hinit hmade start end_
  have exact_iff : ReservesExactly s start end_ ↔
      SetsPages (fun _ p => Overlaps start end_ p) s.regions after := by
    constructor
    · rintro ⟨-, after', call', sets'⟩
      rw [call] at call'
      have same : after = after' := congrArg (·.1.regions) call'
      exact same ▸ sets'
    · intro sets'
      exact ⟨reserve_ends start end_, after, call, sets'⟩
  rw [exact_iff, sets.iff]
  refine forall₃_congr fun k r hr => forall₂_congr fun j hj => ?_
  have made := hmade r (List.mem_of_getElem? hr)
  have small : 4096 * r.pages.toNat < 2 ^ 32 := made.small
  have page := isPageAligned_iff.mp (isPageAligned_pageAddr made.toFramed (i := j) (by omega))
  rw [between_iff page]
  constructor
  · intro h hover
    refine h.imp id fun same => ?_
    obtain ⟨⟨hend, -⟩, hk⟩ := same.mpr hover
    exact ⟨hend, hk⟩
  · intro h
    by_cases hset : testBit64 r.bitmap j = true
    · exact .inl hset
    · refine .inr ⟨fun both => both.1.2, fun hover => ?_⟩
      obtain ⟨hend, hk⟩ := (h hover).resolve_left hset
      exact ⟨⟨hend, hover⟩, hk⟩

end Call

/-! ## Keeping what was reserved -/

/-- A run after a reservation: the driver, and the reserved pages that no free has covered since. -/
structure PmmHeld where
  pmm : Pmm
  held : Set UIntPtr

/-- The pages of the driver that the range overlaps. -/
def reservedPages (s : Pmm) (start end_ : UIntPtr) : Set UIntPtr :=
  {p | ∃ r ∈ s.regions, r.shape.HasPage p ∧ Overlaps start end_ p}

/-- The state right after the reservation. -/
def heldStart (s : Pmm) (start end_ : UIntPtr) : PmmHeld :=
  { pmm := (pmmReserveRange s start end_).1, held := reservedPages s start end_ }

/-- One later call. -/
def heldStep (t : PmmHeld) (c : PmmCall) : PmmHeld :=
  let e := c.effect t.pmm
  { pmm := e.after, held := {p | p ∈ t.held ∧ p ∉ e.givenBack} }

/-- No page that the call hands out is held. -/
def NotReturned (t : PmmHeld) (c : PmmCall) : Prop :=
  ∀ p ∈ (c.effect t.pmm).handedOut, p ∉ t.held

/-- Where a region gives a single-page call its page, that page is clear. -/
def GivesClear (s : Pmm) (zone : PmmZone) : Prop :=
  ∀ pre r post w, Giver s.regions zone pre r post w → testBit64 r.bitmap (r.mirrorPage w) = false

/-- The condition on a later call: a single-page call does not take a page that is set, and no
region is added over a page that is held. -/
def SparesHeld (t : PmmHeld) : PmmCall → Prop
  | .allocPage => GivesClear t.pmm .normal
  | .allocPageZone zone => GivesClear t.pmm zone
  | .addRegion base size zone heap => (pmmAddRegion t.pmm base size zone heap).2 = 0 →
      ∀ p, (newRegion base size zone).shape.HasPage p → p ∉ t.held
  | _ => True

/-- What the run keeps: no region has a held page clear. -/
structure HeldSafe (t : PmmHeld) : Prop where
  initialized : t.pmm.initialized = true
  made : ∀ r ∈ t.pmm.regions, r.shape.Made
  marked : ∀ p ∈ t.held, ¬ PageBit t.pmm.regions p false

/-- No page is clear after that was not clear before. -/
def KeepsSet (before after : List PmmRegion) : Prop :=
  ∀ p, PageBit after p false → PageBit before p false

section Keeps

variable {before after : List PmmRegion} {r r' : PmmRegion} {p : UIntPtr}

/-- A region of the same shape whose set bits are set still. -/
theorem PmmRegion.PageBit.clear_of (h : r'.PageBit p false) (hshape : r'.shape = r.shape)
    (hbits : ∀ j, testBit64 r.bitmap j = true → testBit64 r'.bitmap j = true) :
    r.PageBit p false := by
  obtain ⟨j, hj, hp, clear⟩ := h
  have pages : r'.pages = r.pages := congrArg PmmShape.pages hshape
  have base : r'.base = r.base := congrArg PmmShape.base hshape
  refine ⟨j, pages ▸ hj, ?_, ?_⟩
  · rw [← hp, PmmRegion.pageAddr, PmmRegion.pageAddr, base]
  · by_contra hset
    rw [hbits j (Bool.not_eq_false _ ▸ hset)] at clear
    cases clear

/-- A write in one region that makes no page of it clear. -/
theorem KeepsSet.replace {pre post : List PmmRegion}
    (h : ∀ p, r'.PageBit p false → r.PageBit p false) :
    KeepsSet (pre ++ r :: post) (pre ++ r' :: post) := by
  intro p hp
  rw [pageBit_append, pageBit_cons] at hp ⊢
  exact hp.imp id (Or.imp (h p) id)

/-- A list that keeps the bits of each of its regions. -/
theorem keepsSet_of_regions (h : ∀ q' ∈ after, ∃ q ∈ before, q'.shape = q.shape ∧
    ∀ j, testBit64 q.bitmap j = true → testBit64 q'.bitmap j = true) : KeepsSet before after := by
  rintro p ⟨q', hq', clear⟩
  obtain ⟨q, hq, hshape, hbits⟩ := h q' hq'
  exact ⟨q, hq, clear.clear_of hshape hbits⟩

/-- Setting chosen pages, whichever they are. -/
theorem SetsPages.keepsSet {chosen : Nat → UIntPtr → Prop} (h : SetsPages chosen before after) :
    KeepsSet before after := by
  refine keepsSet_of_regions fun q' hq' => ?_
  obtain ⟨k, hk⟩ := List.getElem?_of_mem hq'
  obtain ⟨q, hq, sets⟩ := h.origin hk
  exact ⟨q, List.mem_of_getElem? hq, sets.shape, fun j hset => (sets.bits j).mpr (.inl hset)⟩

end Keeps

/-- What every call but `pmm_add_region` does in a state where it spares what is held: a page that
is clear after was clear before, or was given back, and the pages handed out were clear. -/
structure ClearLaw (s : Pmm) (e : PmmEffect) : Prop where
  initialized : e.after.initialized = s.initialized
  clears : ∀ p, PageBit e.after.regions p false → PageBit s.regions p false ∨ p ∈ e.givenBack
  handed : ∀ p ∈ e.handedOut, PageBit s.regions p false

section Laws

variable {s : Pmm} (hinit : s.initialized = true) (hmade : ∀ r ∈ s.regions, r.shape.Made)

/-- A call that only sets bits and hands out nothing. -/
theorem ClearLaw.of_keepsSet {after : List PmmRegion} (h : KeepsSet s.regions after) (code : Int) :
    ClearLaw s (plainEffect ({ s with regions := after }, code)) :=
  ⟨rfl, fun p hp => .inl (h p hp), fun _ hp => absurd hp List.not_mem_nil⟩

/-- An allocation that answers null may have set bits. -/
theorem ClearLaw.alloc_null {after : List PmmRegion} (h : KeepsSet s.regions after)
    (count : SizeT) : ClearLaw s (allocEffect count ({ s with regions := after }, null)) :=
  ⟨rfl, fun p hp => .inl (h p hp), fun _ hp => absurd hp List.not_mem_nil⟩

include hinit hmade

theorem pmmAllocPageZone_clearLaw {zone : PmmZone} (hclear : GivesClear s zone) :
    ClearLaw s (allocEffect 1 (pmmAllocPageZone s zone)) := by
  have visited {q : PmmRegion} (hq : q ∈ s.regions) (j : Nat) (hset : testBit64 q.bitmap j = true) :
      testBit64 q.visited.bitmap j = true := (testBit64_visited (hmade q hq)).mpr (.inl hset)
  rcases giver_or_none s.regions zone with hnone | ⟨pre, r, post, w, giver⟩
  · rw [pmmAllocPageZone_of_none hmade hinit hnone]
    refine .alloc_null (keepsSet_of_regions fun q' hq' => ?_) 1
    obtain ⟨q, hq, rfl⟩ := List.mem_map.mp hq'
    exact ⟨q, hq, shape_visited q, visited hq⟩
  · obtain ⟨after, ⟨length, leaves⟩, call⟩ := giver.call hmade hinit
    have keeps : KeepsSet s.regions after := by
      refine keepsSet_of_regions fun q' hq' => ?_
      obtain ⟨k, hk⟩ := List.getElem?_of_mem hq'
      have lt : k < s.regions.length := length ▸ (List.getElem?_eq_some_iff.mp hk).1
      have mem : s.regions[k] ∈ s.regions := List.getElem_mem lt
      rw [leaves k _ (List.getElem?_eq_getElem lt)] at hk
      obtain rfl := Option.some.inj hk
      refine ⟨_, mem, ?_⟩
      split
      · exact ⟨shape_visited _, visited mem⟩
      · exact ⟨rfl, fun j => id⟩
    rw [call]
    refine ⟨rfl, fun p hp => .inl (keeps p hp), fun p hp => ?_⟩
    have page := giver.page
    simp only [allocEffect, if_neg page, pagesFrom_one, List.mem_singleton] at hp
    subst hp
    exact ⟨r, giver.mem, _, PmmRegion.mirrorPage_lt giver.stop, rfl, hclear pre r post w giver⟩

omit hinit in
theorem pmmAllocPagesZone_clearLaw (count : SizeT) (zone : PmmZone) :
    ClearLaw s (allocEffect count (pmmAllocPagesZone s count zone)) := by
  rcases pmmAllocPagesZone_spec s count zone with
    h | ⟨pre, r, post, start, heq, -, -, hfit, hclear, h⟩
  · rw [h]
    exact .alloc_null (fun _ => id) count
  have mem : r ∈ s.regions := by
    rw [heq]
    exact List.mem_append_cons_self
  have cover : r.pages.toNat ≤ 64 * r.bitmap.length := (hmade r mem).cover
  have keeps : KeepsSet s.regions (pre ++ r.takePages start count.toNat :: post) := by
    rw [heq]
    refine .replace fun p hp => hp.clear_of (shape_takePages r _ _) fun j hset => ?_
    rw [PmmRegion.takePages, testBit64_setBits (by omega), hset, Bool.or_true]
  rw [h]
  refine ⟨rfl, fun p hp => .inl (keeps p hp), fun p hp => ?_⟩
  obtain ⟨j, hj, hlt, rfl⟩ := mem_handedOut_pageAddr hp
  exact ⟨r, mem, j, by omega, rfl, hclear j hj hlt⟩

omit hinit in
theorem pmmFreePages_clearLaw (addr : UIntPtr) (count : SizeT) (past : Nat → Bool) :
    ClearLaw s (freeEffect addr count (pmmFreePages s addr count past)) := by
  rcases pmmFreePages_spec s addr count past with h | ⟨pre, r, post, heq, hholds, haligned, h⟩
  · rw [h]
    exact ⟨rfl, fun p hp => .inl hp, fun _ hp => absurd hp List.not_mem_nil⟩
  · rw [h]
    have mem : r ∈ s.regions := by
      rw [heq]
      exact List.mem_append_cons_self
    obtain ⟨-, at_⟩ := PmmRegion.pageIdx_of_holds (hmade r mem).toFramed hholds haligned
    refine ⟨rfl, fun p hp => ?_, fun _ hp => absurd hp List.not_mem_nil⟩
    have hp : PageBit (pre ++ r.givePages (r.pageIdx addr) count :: post) p false := hp
    rw [heq]
    rw [pageBit_append, pageBit_cons] at hp ⊢
    rcases hp with hp | ⟨j, hj, rfl, clear⟩ | hp
    · exact .inl (.inl hp)
    · by_cases hset : testBit64 r.bitmap j = true
      · -- the free cleared this bit, so its page is one of those given back
        have cleared : ¬ ∀ i < count.toNat, (r.pageIdx addr + BitVec.ofNat 32 i).toNat ≠ j := by
          intro hall
          have set := testBit64_clearBits.mpr ⟨hset, hall⟩
          rw [PmmRegion.givePages, set] at clear
          cases clear
        simp only [not_forall, not_not] at cleared
        obtain ⟨i, hi, rfl⟩ := cleared
        refine .inr (mem_pagesFrom.mpr ⟨i, hi, ?_⟩)
        conv_lhs => rw [← at_]
        rw [pageAddr_add, PmmRegion.pageAddr]
        show _ = r.base + _
        rw [BitVec.ofNat_add, BitVec.ofNat_toNat, BitVec.ofNat_toNat, BitVec.setWidth_eq,
          BitVec.setWidth_eq]
      · exact .inl (.inr (.inl ⟨j, hj, rfl, Bool.not_eq_true _ ▸ hset⟩))
    · exact .inl (.inr (.inr hp))

omit hmade in
theorem pmmInit_clearLaw : ClearLaw s (plainEffect (pmmInit s)) := by
  rw [pmmInit, if_pos hinit]
  exact .of_keepsSet (fun _ => id) (-1)

theorem pmmReserveRange_clearLaw (start end_ : UIntPtr) :
    ClearLaw s (plainEffect (pmmReserveRange s start end_)) := by
  obtain ⟨after, call, sets⟩ := pmmReserveRange_sets hinit hmade start end_
  rw [call]
  exact .of_keepsSet sets.keepsSet 0

end Laws

/-! ## The run -/

/-- A call that keeps the law keeps what is held marked. -/
theorem HeldSafe.of_law {t : PmmHeld} (h : HeldSafe t) {c : PmmCall}
    (hlaw : ClearLaw t.pmm (c.effect t.pmm)) : HeldSafe (heldStep t c) ∧ NotReturned t c := by
  have made : ∀ r ∈ (c.effect t.pmm).after.regions, r.shape.Made :=
    shapes_step newRegion_made (t := { pmm := t.pmm, live := [], ranges := [] }) h.made c
  refine ⟨⟨hlaw.initialized.trans h.initialized, made, ?_⟩, fun p hp hheld => ?_⟩
  · rintro p ⟨hheld, hkept⟩ clear
    rcases hlaw.clears p clear with before | back
    · exact h.marked p hheld before
    · exact hkept back
  · exact h.marked p hheld (hlaw.handed p hp)

/-- One later call: what is held stays marked and is not handed out. -/
theorem HeldSafe.step {t : PmmHeld} (h : HeldSafe t) {c : PmmCall} (hc : SparesHeld t c) :
    HeldSafe (heldStep t c) ∧ NotReturned t c := by
  cases c with
  | init => exact h.of_law (pmmInit_clearLaw h.initialized)
  | addRegion base size zone heap =>
    have made : ∀ r ∈ (pmmAddRegion t.pmm base size zone heap).1.regions, r.shape.Made :=
      shapes_step newRegion_made (t := { pmm := t.pmm, live := [], ranges := [] }) h.made
        (.addRegion base size zone heap)
    refine ⟨⟨?_, made, ?_⟩, fun _ hp => absurd hp List.not_mem_nil⟩
    · show (pmmAddRegion t.pmm base size zone heap).1.initialized = true
      rcases pmmAddRegion_spec t.pmm base size zone heap with hres | ⟨-, hres⟩
      · rw [hres]
        exact h.initialized
      · rw [hres]
        exact h.initialized
    · rintro p ⟨hheld, -⟩ clear
      have clear : PageBit (pmmAddRegion t.pmm base size zone heap).1.regions p false := clear
      rcases pmmAddRegion_spec t.pmm base size zone heap with hres | ⟨-, hres⟩
      · rw [hres] at clear
        exact h.marked p hheld clear
      · rw [hres, pageBit_cons] at clear
        rcases clear with new | old
        · exact hc (by rw [hres]) p new.hasPage hheld
        · exact h.marked p hheld old
  | reserveRange start end_ =>
    exact h.of_law (pmmReserveRange_clearLaw h.initialized h.made start end_)
  | allocPage => exact h.of_law (pmmAllocPageZone_clearLaw h.initialized h.made hc)
  | allocPageZone zone => exact h.of_law (pmmAllocPageZone_clearLaw h.initialized h.made hc)
  | allocPages count => exact h.of_law (pmmAllocPagesZone_clearLaw h.made count .normal)
  | allocPagesZone count zone => exact h.of_law (pmmAllocPagesZone_clearLaw h.made count zone)
  | freePage addr past => exact h.of_law (pmmFreePages_clearLaw h.made addr 1 past)
  | freePages addr count past => exact h.of_law (pmmFreePages_clearLaw h.made addr count past)

/-- A run whose calls spare what is held never hands it out. -/
theorem HeldSafe.run {t : PmmHeld} (h : HeldSafe t) {calls : List PmmCall}
    (hspare : EveryStep heldStep SparesHeld t calls) : EveryStep heldStep NotReturned t calls :=
  EveryStep.mono (fun _ _ ht hc => (ht.step hc).1) (fun _ _ ht hc => (ht.step hc).2) h hspare

section Exact

variable {s : Pmm} (hinit : s.initialized = true) (hmade : ∀ r ∈ s.regions, r.shape.Made)

include hinit hmade

/-- After an exact reservation every page of the range is marked. -/
theorem heldSafe_start {start end_ : UIntPtr} (hexact : ReservesExactly s start end_) :
    HeldSafe (heldStart s start end_) := by
  obtain ⟨-, after, call, sets⟩ := hexact
  have regions : (heldStart s start end_).pmm.regions = after := by rw [heldStart, call]
  refine ⟨?_, ?_, ?_⟩
  · rw [heldStart, call]
    exact hinit
  · rw [regions]
    intro r' hr'
    obtain ⟨k, hk⟩ := List.getElem?_of_mem hr'
    obtain ⟨r, hr, sets⟩ := sets.origin hk
    rw [sets.shape]
    exact hmade r (List.mem_of_getElem? hr)
  · rw [regions]
    rintro p ⟨-, -, -, hover⟩ ⟨r', hr', j, hj, rfl, clear⟩
    obtain ⟨k, hk⟩ := List.getElem?_of_mem hr'
    obtain ⟨r, hr, sets⟩ := sets.origin hk
    rw [sets.pageAddr] at hover
    rw [sets.pages] at hj
    have set := (sets.bits j).mpr (.inr ⟨hj, hover⟩)
    rw [clear] at set
    cases set

/-- For every list of regions as `pmm_add_region` makes them and every range: a reservation is exact
exactly when its loop comes to every page it should set, and then no later call that spares what is
held hands out a reserved page before a free covers it. -/
theorem pmmReserveRange_exact_iff (start end_ : UIntPtr) :
    (ReservesExactly s start end_ ↔ ReserveReaches s.regions start end_) ∧
      (ReserveReaches s.regions start end_ → ∀ calls,
        EveryStep heldStep SparesHeld (heldStart s start end_) calls →
          EveryStep heldStep NotReturned (heldStart s start end_) calls) := by
  have exact_iff := reservesExactly_iff hinit hmade start end_
  refine ⟨exact_iff, fun hreach calls hspare => ?_⟩
  exact (heldSafe_start hinit hmade (exact_iff.mpr hreach)).run hspare

end Exact

/-- Four clear pages from 1 MiB on. -/
def fourPages : Pmm :=
  { regions := [newRegion 0x100000 0x4000 .normal], initialized := true }

theorem fourPages_made : ∀ r ∈ fourPages.regions, r.shape.Made := by
  intro r hr
  obtain rfl := List.mem_singleton.mp hr
  exact newRegion_made 0x100000 0x4000 .normal

/-- The second and the third of them reserved: the next allocations get the others, and the second
one only after a free. -/
theorem pmmReserveRange_exact_iff_pair :
    ReservesExactly fourPages 0x101800 0x102800 ∧
      EveryStep heldStep NotReturned (heldStart fourPages 0x101800 0x102800)
        [.allocPages 1, .freePages 0x101000 1 fun _ => false, .allocPages 1] := by
  obtain ⟨exact_iff, later⟩ :=
    pmmReserveRange_exact_iff (s := fourPages) rfl fourPages_made 0x101800 0x102800
  have reaches : ReserveReaches fourPages.regions 0x101800 0x102800 := by
    intro k r hr j hj _
    obtain ⟨rfl, hk⟩ : r = newRegion 0x100000 0x4000 .normal ∧ k = 0 := by
      cases k with
      | zero => exact ⟨(Option.some.inj hr).symm, rfl⟩
      | succ k => cases hr
    subst hk
    have held : ∀ j < 4, holder fourPages.regions
        ((newRegion 0x100000 0x4000 .normal).pageAddr j) = some 0 := by decide
    exact .inr ⟨by decide, held j hj⟩
  exact ⟨exact_iff.mpr reaches, later reaches _ ⟨trivial, trivial, trivial, trivial⟩⟩

/-- A range whose end lies in the last page of the address space: the end rounds up to 0, the call
answers 0, no bit is set, and the first page of the range is handed out. -/
theorem pmmReserveRange_not_exact :
    ¬ ReservesExactly fourPages 0x100000 0xFFFFFFFF ∧
      ¬ EveryStep heldStep NotReturned (heldStart fourPages 0x100000 0xFFFFFFFF)
        [.allocPages 1] := by
  constructor
  · rw [reservesExactly_iff rfl fourPages_made]
    intro reaches
    rcases reaches 0 (newRegion 0x100000 0x4000 .normal) rfl 0 (by decide) (by decide) with h | h
    · exact absurd h (by decide)
    · exact absurd h.1 (by decide)
  · have same : pmmReserveRange fourPages 0x100000 0xFFFFFFFF = (fourPages, 0) := by
      rw [pmmReserveRange, if_neg (by decide)]
      dsimp only
      rw [reserveLoop_stop (by decide)]
    have handed : ((PmmCall.allocPages 1).effect fourPages).handedOut = [0x100000] := by decide
    rintro ⟨first, -⟩
    have first : ∀ p ∈ ((PmmCall.allocPages 1).effect
        (pmmReserveRange fourPages 0x100000 0xFFFFFFFF).1).handedOut,
          p ∉ reservedPages fourPages 0x100000 0xFFFFFFFF := first
    rw [same, handed] at first
    refine first 0x100000 List.mem_cons_self ⟨_, List.mem_singleton.mpr rfl, ⟨0, ?_, rfl⟩, ?_⟩
    · decide
    · decide

end Unics
