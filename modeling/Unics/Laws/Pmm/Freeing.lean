import Unics.Laws.Pmm.RoundTrip

/-!
# When freeing is exact and bounded

`pmm_free_pages` looks for the region of its address, checks that the range ends inside it, checks
that every bit of the range is set, and clears them. Two of these steps compute an end that wraps.
`start_page + count` does for counts near 2 ^ 32, and then the loops run past the region; the end of
a region that reaches 4 GiB does, and then the lookup does not find it. Address 0 is refused
although it may be a page, and where regions overlap the lookup goes to the first one only.

`pmmFreePages_exact_iff` says that nothing else goes wrong, for every list of regions as
`pmm_add_region` makes them, every address, every count, and whatever lies behind the bitmaps.
-/

namespace Unics

open Unics.Lib

/-! ## What a call touches -/

/-- The bit indices of both loops, in order; `start_page + i` wraps as a `size_t`. -/
def freeIndices (startPage count : SizeT) : List Nat :=
  (List.range count.toNat).map fun i => (startPage + BitVec.ofNat 32 i).toNat

/-- The indices that the double-free check reads: it returns at the first clear bit. -/
def checkReads (test : Nat → Bool) : List Nat → List Nat
  | [] => []
  | i :: rest => if test i then i :: checkReads test rest else [i]

/-- The region whose bitmap a call goes to, once it is past the checks before the loops. -/
def pmmFreeRegion (s : Pmm) (addr : UIntPtr) (count : SizeT) : Option PmmRegion :=
  if !s.initialized || addr == null || count == 0 then none
  else if !pmmIsPageAligned addr then none
  else (findRegionForAddr s.regions addr).bind fun r =>
    if r.pages < r.pageIdx addr + count then none else some r

/-- The indices that the loops read and clear in that region. -/
def PmmRegion.freeTouches (r : PmmRegion) (addr : UIntPtr) (count : SizeT) (past : Nat → Bool) :
    List Nat :=
  let indices := freeIndices (r.pageIdx addr) count
  checkReads (r.testBit past) indices ++ if indices.all (r.testBit past) then indices else []

/-- A call that does not get past those checks. -/
theorem pmmFreePages_of_none {s : Pmm} {addr : UIntPtr} {count : SizeT} (past : Nat → Bool)
    (h : pmmFreeRegion s addr count = none) : pmmFreePages s addr count past = (s, -1) := by
  unfold pmmFreePages
  unfold pmmFreeRegion at h
  split
  · rfl
  next hguard =>
  rw [if_neg hguard] at h
  split
  · rfl
  next haligned =>
  rw [if_neg haligned] at h
  split
  · rfl
  next r hr =>
  rw [hr, Option.bind_some] at h
  dsimp only
  by_cases hroom : r.pages < r.pageIdx addr + count
  · rw [if_pos hroom]
  · rw [if_neg hroom] at h
    cases h

/-- What the checks before the loops have seen. -/
structure FreeStarts (s : Pmm) (addr : UIntPtr) (count : SizeT) (r : PmmRegion) : Prop where
  initialized : s.initialized = true
  nonnull : addr ≠ null
  pos : count ≠ 0
  aligned : pmmIsPageAligned addr = true
  found : findRegionForAddr s.regions addr = some r
  room : ¬ r.pages < r.pageIdx addr + count

theorem FreeStarts.guard {s : Pmm} {addr : UIntPtr} {count : SizeT} {r : PmmRegion}
    (h : FreeStarts s addr count r) : ¬ (!s.initialized || addr == null || count == 0) = true := by
  simpa [h.initialized, h.nonnull] using h.pos

theorem pmmFreeRegion_eq_some {s : Pmm} {addr : UIntPtr} {count : SizeT} {r : PmmRegion} :
    pmmFreeRegion s addr count = some r ↔ FreeStarts s addr count r := by
  unfold pmmFreeRegion
  constructor
  · intro h
    by_cases hguard : (!s.initialized || addr == null || count == 0) = true
    · rw [if_pos hguard] at h
      cases h
    rw [if_neg hguard] at h
    by_cases haligned : (!pmmIsPageAligned addr) = true
    · rw [if_pos haligned] at h
      cases h
    rw [if_neg haligned] at h
    obtain ⟨q, hq, heq⟩ := Option.bind_eq_some_iff.mp h
    by_cases hroom : q.pages < q.pageIdx addr + count
    · rw [if_pos hroom] at heq
      cases heq
    rw [if_neg hroom] at heq
    obtain rfl := Option.some.inj heq
    simp only [Bool.or_eq_true, Bool.not_eq_true', beq_iff_eq, not_or, Bool.not_eq_false]
      at hguard haligned
    exact ⟨hguard.1.1, hguard.1.2, hguard.2, haligned, hq, hroom⟩
  · intro h
    rw [if_neg h.guard, if_neg (by simp [h.aligned]), h.found, Option.bind_some, if_neg h.room]

/-- A call that does. -/
theorem FreeStarts.call {s : Pmm} {addr : UIntPtr} {count : SizeT} {r : PmmRegion}
    (h : FreeStarts s addr count r) (past : Nat → Bool) :
    pmmFreePages s addr count past =
      if (freeIndices (r.pageIdx addr) count).all (r.testBit past) then
        ({ s with
          regions := updateRegionForAddr addr (·.givePages (r.pageIdx addr) count) s.regions }, 0)
      else (s, -1) := by
  unfold pmmFreePages
  rw [if_neg h.guard, if_neg (by simp [h.aligned]), h.found]
  dsimp only
  rw [if_neg h.room, freeIndices, List.all_map]
  rfl

/-! ## What a call should do -/

/-- `count` pages of the region from `start` on are set. -/
structure SetRange (r : PmmRegion) (start count : Nat) : Prop where
  fits : start + count ≤ r.pages.toNat
  set : ∀ j, start ≤ j → j < start + count → testBit64 r.bitmap j = true

/-- The `count` pages from the address on are pages of the region, and set. -/
def PmmRegion.HasSet (r : PmmRegion) (addr : UIntPtr) (count : Nat) : Prop :=
  ∃ start, r.pageAddr start = addr ∧ SetRange r start count

/-- The call is asked for something that can be freed. -/
def Freeable (regions : List PmmRegion) (addr : UIntPtr) (count : SizeT) : Prop :=
  pmmIsPageAligned addr = true ∧ count ≠ 0 ∧ ∃ r ∈ regions, r.HasSet addr count.toNat

/-- `r'` is the region `r` with the bits of a range cleared, and nothing else changed but the hint.
-/
structure ClearsRange (r r' : PmmRegion) (start count : Nat) : Prop where
  rest : { r' with bitmap := r.bitmap, lastAlloc := r.lastAlloc } = r
  words : r'.bitmap.length = r.bitmap.length
  bits : ∀ j, testBit64 r'.bitmap j = true ↔
    testBit64 r.bitmap j = true ∧ ¬ (start ≤ j ∧ j < start + count)

/-- What a bounded and exact free does. -/
structure FreesExactly (s : Pmm) (addr : UIntPtr) (count : SizeT) (past : Nat → Bool) : Prop where
  bounded : ∀ r, pmmFreeRegion s addr count = some r →
    ∀ i ∈ r.freeTouches addr count past, i < r.pages.toNat
  freed_iff : (pmmFreePages s addr count past).2 = 0 ↔ Freeable s.regions addr count
  freed : (pmmFreePages s addr count past).2 = 0 → ∃ pre r post r' start,
    s.regions = pre ++ r :: post ∧ r.pageAddr start = addr ∧ SetRange r start count.toNat ∧
      ClearsRange r r' start count.toNat ∧
        (pmmFreePages s addr count past).1 = { s with regions := pre ++ r' :: post }
  refused : (pmmFreePages s addr count past).2 ≠ 0 → pmmFreePages s addr count past = (s, -1)

/-- The lookup finds what can be freed, and the check of the range's end does not wrap unless the
double-free check returns before the end of the region. -/
structure FreeFinds (regions : List PmmRegion) (addr : UIntPtr) (count : SizeT) : Prop where
  finds : count ≠ 0 → ∀ r ∈ regions, r.HasSet addr count.toNat →
    addr ≠ null ∧ ∃ q, findRegionForAddr regions addr = some q ∧ q.HasSet addr count.toNat
  stops : addr ≠ null → pmmIsPageAligned addr = true →
    ∀ r, findRegionForAddr regions addr = some r → 2 ^ 32 ≤ (r.pageIdx addr).toNat + count.toNat →
      ∃ j, (r.pageIdx addr).toNat ≤ j ∧ j < r.pages.toNat ∧ testBit64 r.bitmap j = false

/-! ## Reads -/

/-- A checking loop over a range reads as far as every bit before was set. -/
theorem mem_checkReads {test : Nat → Bool} {f : Nat → Nat} {a n x : Nat} :
    x ∈ checkReads test ((List.range' a n).map f) ↔
      ∃ p, a ≤ p ∧ p < a + n ∧ f p = x ∧ ∀ q, a ≤ q → q < p → test (f q) = true := by
  induction n generalizing a with
  | zero =>
    refine iff_of_false List.not_mem_nil ?_
    rintro ⟨p, hp, hlt, -⟩
    omega
  | succ n ih =>
    rw [List.range'_succ, List.map_cons, checkReads]
    have here (p : Nat) (hx : f p = x) (hp : p = a) : ∃ p, a ≤ p ∧ p < a + (n + 1) ∧ f p = x ∧
        ∀ q, a ≤ q → q < p → test (f q) = true :=
      ⟨p, by omega, by omega, hx, fun q hq hlt => by omega⟩
    split
    · next hset =>
      rw [List.mem_cons, ih]
      constructor
      · rintro (rfl | ⟨p, hp, hlt, hx, hall⟩)
        · exact here a rfl rfl
        · refine ⟨p, by omega, by omega, hx, fun q hq hqp => ?_⟩
          by_cases hqa : q = a
          · exact hqa ▸ hset
          · exact hall q (by omega) hqp
      · rintro ⟨p, hp, hlt, hx, hall⟩
        by_cases hpa : p = a
        · exact .inl (hpa ▸ hx.symm)
        · exact .inr ⟨p, by omega, by omega, hx, fun q hq hqp => hall q (by omega) hqp⟩
    · next hclear =>
      rw [List.mem_singleton]
      constructor
      · rintro rfl
        exact here a rfl rfl
      · rintro ⟨p, hp, hlt, hx, hall⟩
        by_cases hpa : p = a
        · exact hpa ▸ hx.symm
        · exact absurd (hall a (Nat.le_refl a) (by omega)) hclear

/-! ## The lookup -/

theorem findRegionForAddr_some {regions : List PmmRegion} {addr : UIntPtr} {r : PmmRegion}
    (h : findRegionForAddr regions addr = some r) : r ∈ regions ∧ r.holds addr = true := by
  obtain ⟨pre, post, rfl, holds, -⟩ := updateRegionForAddr_spec h
  exact ⟨List.mem_append_cons_self, holds⟩

section Region

variable {r : PmmRegion} {addr : UIntPtr} {count : SizeT}

/-- A region holds the addresses of its pages, unless it reaches 4 GiB: then it holds none. -/
theorem PmmRegion.holds_iff (hr : r.shape.Framed) :
    r.holds addr = true ↔ r.base.toNat + 4096 * r.pages.toNat < 2 ^ 32 ∧
      r.base.toNat ≤ addr.toNat ∧ addr.toNat < r.base.toNat + 4096 * r.pages.toNat := by
  have small : 4096 * r.pages.toNat < 2 ^ 32 := hr.small
  have end_ : (r.base + r.pages * pmmPageSize).toNat =
      (r.base.toNat + 4096 * r.pages.toNat) % 2 ^ 32 := by
    rw [BitVec.toNat_add, BitVec.toNat_mul, toNat_pmmPageSize, Nat.add_mod_mod, Nat.mul_comm]
  have base := r.base.isLt
  simp only [PmmRegion.holds, Bool.and_eq_true, decide_eq_true_eq, BitVec.le_def, BitVec.lt_def,
    end_]
  omega

/-- The index of an aligned address that a region holds. -/
theorem PmmRegion.pageIdx_of_holds (hr : r.shape.Framed) (hholds : r.holds addr = true)
    (haligned : pmmIsPageAligned addr = true) :
    (r.pageIdx addr).toNat < r.pages.toNat ∧ r.pageAddr (r.pageIdx addr).toNat = addr := by
  obtain ⟨below, low, high⟩ := (PmmRegion.holds_iff hr).mp hholds
  have base : r.base.toNat % 4096 = 0 := hr.aligned
  have aligned : addr.toNat % 4096 = 0 := by
    have mask := beq_iff_eq.mp haligned
    have := toNat_and_mask (x := addr) (m := pmmPageSize - 1) (k := 12) (by decide)
    rw [mask] at this
    exact this.symm
  have index : (r.pageIdx addr).toNat = (addr.toNat - r.base.toNat) / 4096 := by
    rw [PmmRegion.pageIdx, BitVec.toNat_udiv, BitVec.toNat_sub_of_le (BitVec.le_def.mpr low),
      toNat_pmmPageSize]
  have inside : (r.pageIdx addr).toNat < r.pages.toNat := by omega
  refine ⟨inside, BitVec.eq_of_toNat_eq ?_⟩
  rw [toNat_pageAddr r (by omega), index]
  omega

/-- The range that begins at an address is at the index of the address. -/
theorem PmmRegion.hasSet_iff (hr : r.shape.Framed) (hpos : count ≠ 0)
    (haddr : r.pageAddr (r.pageIdx addr).toNat = addr) :
    r.HasSet addr count.toNat ↔ SetRange r (r.pageIdx addr).toNat count.toNat := by
  have small : 4096 * r.pages.toNat < 2 ^ 32 := hr.small
  have pos := toNat_pos hpos
  constructor
  · rintro ⟨start, rfl, hrange⟩
    have fits := hrange.fits
    rw [pageIdx_pageAddr r (by omega)]
    exact hrange
  · intro hrange
    exact ⟨_, haddr, hrange⟩

end Region

/-! ## The two ways through -/

section Free

variable {s : Pmm} {addr : UIntPtr} {count : SizeT} {r : PmmRegion} {past : Nat → Bool}

/-- Something that can be freed has a count and an address that are numbers of pages. -/
theorem SetRange.lt {start n : Nat} (h : SetRange r start n) (hr : r.shape.Framed) :
    n < 2 ^ 20 := by
  have small : 4096 * r.pages.toNat < 2 ^ 32 := hr.small
  have fits := h.fits
  omega

theorem isPageAligned_of_hasSet (hr : r.shape.Framed) {n : Nat} (h : r.HasSet addr n) :
    pmmIsPageAligned addr = true := by
  obtain ⟨start, rfl, hrange⟩ := h
  have small : 4096 * r.pages.toNat < 2 ^ 32 := hr.small
  have fits := hrange.fits
  exact isPageAligned_pageAddr hr (by omega)

theorem freeable_iff (hframed : ∀ r ∈ s.regions, r.shape.Framed) :
    Freeable s.regions addr count ↔ count ≠ 0 ∧ ∃ r ∈ s.regions, r.HasSet addr count.toNat := by
  constructor
  · rintro ⟨-, hpos, hset⟩
    exact ⟨hpos, hset⟩
  · rintro ⟨hpos, r, hr, hset⟩
    exact ⟨isPageAligned_of_hasSet (hframed r hr) hset, hpos, r, hr, hset⟩

/-- A call that changes nothing and answers -1 is as it should be when nothing can be freed, and it
touches no bit that is not a page's. -/
theorem freesExactly_refused (hres : pmmFreePages s addr count past = (s, -1))
    (hbounded : ∀ r, pmmFreeRegion s addr count = some r →
      ∀ i ∈ r.freeTouches addr count past, i < r.pages.toNat) :
    FreesExactly s addr count past ↔ ¬ Freeable s.regions addr count := by
  have code : (pmmFreePages s addr count past).2 ≠ 0 := by
    intro hzero
    rw [hres] at hzero
    exact absurd (show (-1 : Int) = 0 from hzero) (by decide)
  constructor
  · intro h hfree
    exact code (h.freed_iff.mpr hfree)
  · intro hnot
    exact ⟨hbounded, iff_of_false code hnot, fun h => absurd h code, fun _ => hres⟩

/-- Where nothing can be freed, the lookup has nothing to find. -/
theorem FreeFinds.of_not_freeable (hframed : ∀ r ∈ s.regions, r.shape.Framed)
    (hnot : ¬ Freeable s.regions addr count)
    (hstops : addr ≠ null → pmmIsPageAligned addr = true →
      ∀ r, findRegionForAddr s.regions addr = some r →
        2 ^ 32 ≤ (r.pageIdx addr).toNat + count.toNat →
          ∃ j, (r.pageIdx addr).toNat ≤ j ∧ j < r.pages.toNat ∧ testBit64 r.bitmap j = false) :
    FreeFinds s.regions addr count where
  finds hpos r hr hset := absurd ((freeable_iff hframed).mpr ⟨hpos, r, hr, hset⟩) hnot
  stops := hstops

/-- A call that does not get to the loops. -/
theorem freesExactly_iff_of_none (hinit : s.regions ≠ [] → s.initialized = true)
    (hframed : ∀ r ∈ s.regions, r.shape.Framed) (hnone : pmmFreeRegion s addr count = none) :
    FreesExactly s addr count past ↔ FreeFinds s.regions addr count := by
  have refused : FreesExactly s addr count past ↔ ¬ Freeable s.regions addr count :=
    freesExactly_refused (pmmFreePages_of_none past hnone) fun r hr => by
      rw [hnone] at hr
      cases hr
  rw [refused]
  -- a lookup that succeeds at an aligned address gets to the loops, unless the range is too long
  have starts {q : PmmRegion} (hnonnull : addr ≠ null) (hpos : count ≠ 0)
      (haligned : pmmIsPageAligned addr = true) (hq : findRegionForAddr s.regions addr = some q) :
      q.pages < q.pageIdx addr + count := by
    by_contra hroom
    have on := hinit (List.ne_nil_of_mem (findRegionForAddr_some hq).1)
    have some_region := pmmFreeRegion_eq_some.mpr
      (FreeStarts.mk on hnonnull hpos haligned hq hroom)
    rw [hnone] at some_region
    cases some_region
  constructor
  · intro hnot
    refine .of_not_freeable hframed hnot fun hnonnull haligned q hq hwraps => ?_
    obtain ⟨mem, holds⟩ := findRegionForAddr_some hq
    have fr := hframed q mem
    have inside := (PmmRegion.pageIdx_of_holds fr holds haligned).1
    have small : 4096 * q.pages.toNat < 2 ^ 32 := fr.small
    have hpos : count ≠ 0 := by
      rintro rfl
      have zero : (0 : SizeT).toNat = 0 := rfl
      omega
    have long := starts hnonnull hpos haligned hq
    have bound := count.isLt
    rw [BitVec.lt_def, BitVec.toNat_add] at long
    omega
  · intro h hfree
    obtain ⟨hpos, q, hq, hset⟩ := (freeable_iff hframed).mp hfree
    obtain ⟨hnonnull, p, hp, hpset⟩ := h.finds hpos q hq hset
    obtain ⟨mem, holds⟩ := findRegionForAddr_some hp
    have fr := hframed p mem
    have aligned := hfree.1
    have long := starts hnonnull hpos aligned hp
    have held := PmmRegion.pageIdx_of_holds fr holds aligned
    have range := (PmmRegion.hasSet_iff fr hpos held.2).mp hpset
    have fits := range.fits
    have small : 4096 * p.pages.toNat < 2 ^ 32 := fr.small
    rw [BitVec.lt_def, BitVec.toNat_add] at long
    omega

/-- The indices of the loops, as numbers. -/
theorem freeIndices_eq (startPage count : SizeT) :
    freeIndices startPage count =
      (List.range' 0 count.toNat).map fun i => (startPage.toNat + i) % 2 ^ 32 := by
  rw [freeIndices, List.range_eq_range']
  refine List.map_congr_left fun i _ => ?_
  rw [BitVec.toNat_add, BitVec.toNat_ofNat, Nat.add_mod_mod]

/-- The indices of a range that does not wrap. -/
theorem mem_freeIndices {startPage count : SizeT} (h : startPage.toNat + count.toNat ≤ 2 ^ 32)
    {i : Nat} (hi : i ∈ freeIndices startPage count) :
    startPage.toNat ≤ i ∧ i < startPage.toNat + count.toNat := by
  rw [freeIndices_eq] at hi
  obtain ⟨p, hp, rfl⟩ := List.mem_map.mp hi
  rw [List.mem_range'_1] at hp
  rw [Nat.mod_eq_of_lt (by omega)]
  omega

/-- Neither loop touches anything but its indices. -/
theorem mem_freeIndices_of_touched {i : Nat} (hi : i ∈ r.freeTouches addr count past) :
    i ∈ freeIndices (r.pageIdx addr) count := by
  rw [PmmRegion.freeTouches] at hi
  rcases List.mem_append.mp hi with hread | hclear
  · rw [freeIndices_eq] at hread ⊢
    obtain ⟨p, low, high, rfl, -⟩ := mem_checkReads.mp hread
    exact List.mem_map.mpr ⟨p, List.mem_range'_1.mpr ⟨low, high⟩, rfl⟩
  · split at hclear
    · exact hclear
    · cases hclear

/-- On its pages, a region's bits are those of its bitmap. -/
theorem PmmRegion.testBit_page (hr : r.shape.Framed) {i : Nat} (hi : i < r.pages.toNat) :
    r.testBit past i = testBit64 r.bitmap i := by
  have cover : r.pages.toNat ≤ 64 * r.bitmap.length := hr.cover
  rw [PmmRegion.testBit, if_pos (by omega)]

/-- A clear page among those of the range ends the check, and nothing behind it is touched. -/
theorem check_stops (past : Nat → Bool) (hr : r.shape.Framed) {j : Nat}
    (hlow : (r.pageIdx addr).toNat ≤ j) (hj : j < r.pages.toNat)
    (hin : j < (r.pageIdx addr).toNat + count.toNat) (hclear : testBit64 r.bitmap j = false) :
    (freeIndices (r.pageIdx addr) count).all (r.testBit past) = false ∧
      ∀ i ∈ r.freeTouches addr count past, i < r.pages.toNat := by
  have small : 4096 * r.pages.toNat < 2 ^ 32 := hr.small
  have stop : r.testBit past j = false := by rw [PmmRegion.testBit_page hr hj, hclear]
  have index {p : Nat} (hp : p ≤ j - (r.pageIdx addr).toNat) :
      ((r.pageIdx addr).toNat + p) % 2 ^ 32 = (r.pageIdx addr).toNat + p :=
    Nat.mod_eq_of_lt (by omega)
  have ends : (freeIndices (r.pageIdx addr) count).all (r.testBit past) = false := by
    rw [freeIndices_eq, List.all_eq_false]
    refine ⟨j, List.mem_map.mpr ⟨j - (r.pageIdx addr).toNat, ?_, ?_⟩, ?_⟩
    · rw [List.mem_range'_1]
      omega
    · rw [index (Nat.le_refl _)]
      omega
    · rw [stop]
      exact Bool.false_ne_true
  refine ⟨ends, fun i hi => ?_⟩
  rw [PmmRegion.freeTouches] at hi
  simp only [ends, Bool.false_eq_true, if_false, List.append_nil] at hi
  rw [freeIndices_eq] at hi
  obtain ⟨p, -, -, rfl, hall⟩ := mem_checkReads.mp hi
  have le : p ≤ j - (r.pageIdx addr).toNat := by
    by_contra hgt
    have set := hall (j - (r.pageIdx addr).toNat) (Nat.zero_le _) (by omega)
    rw [index (Nat.le_refl _), Nat.add_sub_cancel' hlow, stop] at set
    cases set
  rw [index le]
  omega

/-- A range that is set passes the check, and only its pages are touched. -/
theorem check_passes (past : Nat → Bool) (hr : r.shape.Framed)
    (hset : SetRange r (r.pageIdx addr).toNat count.toNat) :
    (freeIndices (r.pageIdx addr) count).all (r.testBit past) = true ∧
      ∀ i ∈ r.freeTouches addr count past, i < r.pages.toNat := by
  have small : 4096 * r.pages.toNat < 2 ^ 32 := hr.small
  have fits := hset.fits
  have inside : ∀ i ∈ freeIndices (r.pageIdx addr) count,
      (r.pageIdx addr).toNat ≤ i ∧ i < (r.pageIdx addr).toNat + count.toNat :=
    fun i hi => mem_freeIndices (by omega) hi
  have passes : (freeIndices (r.pageIdx addr) count).all (r.testBit past) = true := by
    refine List.all_eq_true.mpr fun i hi => ?_
    obtain ⟨low, high⟩ := inside i hi
    rw [PmmRegion.testBit_page hr (by omega)]
    exact hset.set i low high
  refine ⟨passes, fun i hi => ?_⟩
  have := (inside i (mem_freeIndices_of_touched hi)).2
  omega

/-- A range that wraps, from pages that are all set to the end of the region, touches the index
behind the last page. -/
theorem check_runs_over (hr : r.shape.Framed) (hinside : (r.pageIdx addr).toNat < r.pages.toNat)
    (hwraps : 2 ^ 32 ≤ (r.pageIdx addr).toNat + count.toNat)
    (hset : ∀ j, (r.pageIdx addr).toNat ≤ j → j < r.pages.toNat → testBit64 r.bitmap j = true) :
    r.pages.toNat ∈ r.freeTouches addr count past := by
  have small : 4096 * r.pages.toNat < 2 ^ 32 := hr.small
  refine List.mem_append_left _ ?_
  rw [freeIndices_eq]
  refine mem_checkReads.mpr
    ⟨r.pages.toNat - (r.pageIdx addr).toNat, Nat.zero_le _, by omega, ?_, fun q _ hq => ?_⟩
  · rw [Nat.mod_eq_of_lt (by omega)]
    omega
  · rw [Nat.mod_eq_of_lt (by omega), PmmRegion.testBit_page hr (by omega)]
    exact hset _ (by omega) (by omega)

/-- Giving back a range clears its bits. -/
theorem clearsRange_givePages {startPage : SizeT}
    (hfit : startPage.toNat + count.toNat ≤ r.pages.toNat) :
    ClearsRange r (r.givePages startPage count) startPage.toNat count.toNat where
  rest := rfl
  words := length_clearBits _ _ _
  bits j := by
    have bound := r.pages.isLt
    rw [PmmRegion.givePages, testBit64_clearBits]
    refine and_congr_right fun _ => ?_
    constructor
    · rintro hall ⟨low, high⟩
      refine hall (j - startPage.toNat) (by omega) ?_
      rw [BitVec.toNat_add, BitVec.toNat_ofNat, Nat.add_mod_mod, Nat.mod_eq_of_lt (by omega)]
      omega
    · intro hout i hi heq
      rw [BitVec.toNat_add, BitVec.toNat_ofNat, Nat.add_mod_mod, Nat.mod_eq_of_lt (by omega)] at heq
      exact hout (by omega)

theorem FreeStarts.only (h : FreeStarts s addr count r) {q : PmmRegion}
    (hq : pmmFreeRegion s addr count = some q) : q = r := by
  rw [pmmFreeRegion_eq_some.mpr h] at hq
  exact (Option.some.inj hq).symm

/-- A clear page that the check comes to ends the call. -/
theorem FreeStarts.stopped (hr : r.shape.Framed) (h : FreeStarts s addr count r) {j : Nat}
    (hlow : (r.pageIdx addr).toNat ≤ j) (hj : j < r.pages.toNat)
    (hin : j < (r.pageIdx addr).toNat + count.toNat) (hclear : testBit64 r.bitmap j = false) :
    FreesExactly s addr count past ↔ ¬ Freeable s.regions addr count := by
  obtain ⟨ends, touches⟩ := check_stops past hr hlow hj hin hclear
  refine freesExactly_refused ?_ fun q hq => h.only hq ▸ touches
  rw [h.call past, ends, if_neg Bool.false_ne_true]

/-- A range that wraps is not freeable, so a clear page has to end the check before it runs over. -/
theorem FreeStarts.exact_iff_of_wraps (hframed : ∀ r ∈ s.regions, r.shape.Framed)
    (h : FreeStarts s addr count r)
    (hwraps : 2 ^ 32 ≤ (r.pageIdx addr).toNat + count.toNat) :
    FreesExactly s addr count past ↔ FreeFinds s.regions addr count := by
  obtain ⟨mem, holds⟩ := findRegionForAddr_some h.found
  have hr := hframed r mem
  have small : 4096 * r.pages.toNat < 2 ^ 32 := hr.small
  obtain ⟨inside, haddr⟩ := PmmRegion.pageIdx_of_holds hr holds h.aligned
  have bound := count.isLt
  have notFreeable : ¬ Freeable s.regions addr count := by
    rintro ⟨-, -, q, hq, start, -, hrange⟩
    have := hrange.lt (hframed q hq)
    omega
  by_cases hstop : ∃ j, (r.pageIdx addr).toNat ≤ j ∧ j < r.pages.toNat ∧
      testBit64 r.bitmap j = false
  · obtain ⟨j, hlow, hj, hclear⟩ := hstop
    refine iff_of_true ((h.stopped hr hlow hj (by omega) hclear).mpr notFreeable)
      (.of_not_freeable hframed notFreeable fun _ _ q hq _ => ?_)
    rw [h.found] at hq
    obtain rfl := Option.some.inj hq
    exact ⟨j, hlow, hj, hclear⟩
  · have set : ∀ j, (r.pageIdx addr).toNat ≤ j → j < r.pages.toNat →
        testBit64 r.bitmap j = true := by
      intro j hlow hj
      by_contra hclear
      exact hstop ⟨j, hlow, hj, Bool.not_eq_true _ ▸ hclear⟩
    refine iff_of_false (fun hexact => ?_) fun hfinds => ?_
    · have beyond := hexact.bounded r (pmmFreeRegion_eq_some.mpr h) _
        (check_runs_over hr inside hwraps set)
      exact Nat.lt_irrefl _ beyond
    · exact hstop (hfinds.stops h.nonnull h.aligned r h.found hwraps)

/-- A range that does not wrap lies in the region: it is freed where all of it is set, and a clear
page ends the check elsewhere. -/
theorem FreeStarts.exact_iff_of_fits (hframed : ∀ r ∈ s.regions, r.shape.Framed)
    (h : FreeStarts s addr count r)
    (hwraps : ¬ 2 ^ 32 ≤ (r.pageIdx addr).toNat + count.toNat) :
    FreesExactly s addr count past ↔ FreeFinds s.regions addr count := by
  obtain ⟨mem, holds⟩ := findRegionForAddr_some h.found
  have hr := hframed r mem
  obtain ⟨inside, haddr⟩ := PmmRegion.pageIdx_of_holds hr holds h.aligned
  have hasSet := PmmRegion.hasSet_iff hr h.pos haddr
  have fits : (r.pageIdx addr).toNat + count.toNat ≤ r.pages.toNat := by
    by_contra hlt
    refine h.room (BitVec.lt_def.mpr ?_)
    rw [BitVec.toNat_add, Nat.mod_eq_of_lt (by omega)]
    omega
  have noWrap : addr ≠ null → pmmIsPageAligned addr = true →
      ∀ q, findRegionForAddr s.regions addr = some q →
        2 ^ 32 ≤ (q.pageIdx addr).toNat + count.toNat →
          ∃ j, (q.pageIdx addr).toNat ≤ j ∧ j < q.pages.toNat ∧
            testBit64 q.bitmap j = false := by
    intro _ _ q hq hlong
    rw [h.found] at hq
    obtain rfl := Option.some.inj hq
    exact absurd hlong hwraps
  by_cases hset : SetRange r (r.pageIdx addr).toNat count.toNat
  · have call := h.call past
    obtain ⟨passes, touches⟩ := check_passes past hr hset
    rw [passes, if_pos rfl] at call
    have freeable : Freeable s.regions addr count :=
      ⟨h.aligned, h.pos, r, mem, hasSet.mpr hset⟩
    have code : (pmmFreePages s addr count past).2 = 0 := by rw [call]
    refine iff_of_true ⟨fun q hq => h.only hq ▸ touches, iff_of_true code freeable, fun _ => ?_,
      fun hne => absurd code hne⟩
      ⟨fun _ _ _ _ => ⟨h.nonnull, r, h.found, hasSet.mpr hset⟩, noWrap⟩
    obtain ⟨pre, post, split, -, hf⟩ := updateRegionForAddr_spec h.found
    refine ⟨pre, r, post, r.givePages (r.pageIdx addr) count, (r.pageIdx addr).toNat, split,
      haddr, hset, clearsRange_givePages fits, ?_⟩
    rw [call, hf]
  · obtain ⟨j, hlow, hin, hclear⟩ : ∃ j, (r.pageIdx addr).toNat ≤ j ∧
        j < (r.pageIdx addr).toNat + count.toNat ∧ testBit64 r.bitmap j = false := by
      by_contra hnone
      refine hset ⟨fits, fun j hlow hin => ?_⟩
      by_contra hclear
      exact hnone ⟨j, hlow, hin, Bool.not_eq_true _ ▸ hclear⟩
    rw [h.stopped hr hlow (by omega) hin hclear]
    constructor
    · intro hnot
      exact .of_not_freeable hframed hnot noWrap
    · intro hfinds hfree
      obtain ⟨hpos, q, hq, hqset⟩ := (freeable_iff hframed).mp hfree
      obtain ⟨-, p, hp, hpset⟩ := hfinds.finds hpos q hq hqset
      rw [h.found] at hp
      obtain rfl := Option.some.inj hp
      exact hset (hasSet.mp hpset)

/-- A call that gets to the loops. -/
theorem FreeStarts.exact_iff (hframed : ∀ r ∈ s.regions, r.shape.Framed)
    (h : FreeStarts s addr count r) :
    FreesExactly s addr count past ↔ FreeFinds s.regions addr count := by
  by_cases hwraps : 2 ^ 32 ≤ (r.pageIdx addr).toNat + count.toNat
  · exact h.exact_iff_of_wraps hframed hwraps
  · exact h.exact_iff_of_fits hframed hwraps

end Free

/-- For every list of regions as the driver makes them, every address, every count and whatever lies
behind the bitmaps: a free is bounded and exact exactly when its lookup finds what can be freed and
its range check does not wrap past the end of a region. -/
theorem pmmFreePages_exact_iff {s : Pmm} (hinit : s.regions ≠ [] → s.initialized = true)
    (hframed : ∀ r ∈ s.regions, r.shape.Framed) (addr : UIntPtr) (count : SizeT)
    (past : Nat → Bool) :
    FreesExactly s addr count past ↔ FreeFinds s.regions addr count := by
  cases hregion : pmmFreeRegion s addr count with
  | none => exact freesExactly_iff_of_none hinit hframed hregion
  | some r => exact (pmmFreeRegion_eq_some.mp hregion).exact_iff hframed

/-- 64 pages from 1 MiB on, all of them taken. -/
def takenPages : Pmm :=
  { regions :=
      [{ base := 0x100000, pages := 64, bitmap := [0xFFFFFFFFFFFFFFFF], bitmapSize := 1,
         lastAlloc := 0, zone := .normal }]
    initialized := true }

theorem takenPages_framed : ∀ r ∈ takenPages.regions, r.shape.Framed := by
  intro r hr
  obtain rfl := List.mem_singleton.mp hr
  exact ⟨by decide, by decide, by decide⟩

/-- Three pages of a region that is all taken. -/
theorem pmmFreePages_exact_iff_three :
    FreesExactly takenPages 0x101000 3 (fun _ => false) ↔
      FreeFinds takenPages.regions 0x101000 3 :=
  pmmFreePages_exact_iff (fun _ => rfl) takenPages_framed 0x101000 3 fun _ => false

/-- From the second page on, a count of 2 ^ 32 - 1 passes the range check: the sum is 0. The loops
then go on behind the bitmap. -/
theorem pmmFreePages_not_exact :
    ¬ ∀ (s : Pmm) (addr : UIntPtr) (count : SizeT) (past : Nat → Bool),
      (s.regions ≠ [] → s.initialized = true) → (∀ r ∈ s.regions, r.shape.Framed) →
        FreesExactly s addr count past := by
  intro hall
  have h := hall takenPages 0x101000 0xFFFFFFFF (fun _ => false) (fun _ => rfl) takenPages_framed
  obtain ⟨r, hr⟩ : ∃ r, takenPages.regions = [r] := ⟨_, rfl⟩
  have starts : pmmFreeRegion takenPages 0x101000 0xFFFFFFFF = some r := by
    obtain rfl := (List.cons.inj hr).1
    decide
  have full : ∀ j < 64, testBit64 [0xFFFFFFFFFFFFFFFF] j = true := by decide
  have beyond : r.pages.toNat ∈ r.freeTouches 0x101000 0xFFFFFFFF fun _ => false := by
    have framed := takenPages_framed r (by rw [hr]; exact List.mem_singleton.mpr rfl)
    obtain rfl := (List.cons.inj hr).1
    exact check_runs_over framed (by decide) (by decide) fun j _ hj => full j hj
  exact Nat.lt_irrefl _ (h.bounded r starts _ beyond)

end Unics
