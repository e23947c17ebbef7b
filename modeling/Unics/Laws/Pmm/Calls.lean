import Unics.Laws.Pmm.Pages

/-!
# What the page allocator's calls do to the region list

One law for each call. The single-page search stops at the first word, in the order of the two
loops, that is not full and whose mirrored index is a page of the region (`stopWord`); it then marks
the page of that index, whether its bit was clear or not. The multi-page search marks a range of
pages whose bits it has read as clear. Freeing clears a range of pages whose bits it has read as
set. No call but `pmm_add_region` changes the layout.
-/

namespace Unics

open Unics.Lib

/-! ## The single-page search -/

/-- The highest clear bit of a word that is not full. -/
def highestClear (word : BitVec 64) : Nat := 63 - (~~~word).clz.toNat

theorem isHighestClear_highestClear {word : BitVec 64} (hne : word ≠ BitVec.allOnes 64) :
    IsHighestClear word (highestClear word) :=
  isHighestClear_clz_not fun hz => hne (by rw [← BitVec.not_not (b := word), hz]; rfl)

/-- The word indices that `alloc_page_from_region` visits, in order. -/
def PmmRegion.searchOrder (r : PmmRegion) : List Nat :=
  List.range' (r.lastAlloc.toNat / 64) (r.bitmapSize.toNat - r.lastAlloc.toNat / 64) ++
    List.range (r.lastAlloc.toNat / 64)

/-- The page index that the mirror image of a word's highest clear bit names. -/
def PmmRegion.mirrorPage (r : PmmRegion) (wordIdx : Nat) : Nat :=
  wordIdx * 64 + (63 - highestClear (bitmapWord r.bitmap wordIdx))

/-- A word that stops the search: it is not full, and its mirrored index is a page. -/
def PmmRegion.stopsAt (r : PmmRegion) (wordIdx : Nat) : Bool :=
  bitmapWord r.bitmap wordIdx != BitVec.allOnes 64 && decide (r.mirrorPage wordIdx < r.pages.toNat)

/-- The word at which the search of a region stops. -/
def PmmRegion.stopWord (r : PmmRegion) : Option Nat := r.searchOrder.find? r.stopsAt

/-- One turn of the scan, in terms of the word that would stop it. -/
theorem scanWords_cons (r : PmmRegion) (w : Nat) (rest : List Nat) :
    scanWords r (w :: rest) =
      if r.stopsAt w then some (r.mirrorPage w) else scanWords r rest := by
  rw [scanWords]
  by_cases hfull : bitmapWord r.bitmap w = BitVec.allOnes 64
  · simp only [hfull, ne_eq, not_true_eq_false, if_false, PmmRegion.stopsAt, bne_self_eq_false,
      Bool.false_and, Bool.false_eq_true]
  · have hclear := isHighestClear_highestClear hfull
    have hlt : 63 - highestClear (bitmapWord r.bitmap w) < 64 := by omega
    have hbne : (bitmapWord r.bitmap w != BitVec.allOnes 64) = true := bne_iff_ne.mpr hfull
    simp only [ne_eq, hfull, not_false_eq_true, if_true, findFirstZeroBit64_eq hclear, hlt,
      PmmRegion.stopsAt, hbne, Bool.true_and, decide_eq_true_eq]
    rfl

theorem scanWords_eq (r : PmmRegion) (order : List Nat) :
    scanWords r order = (order.find? r.stopsAt).map r.mirrorPage := by
  induction order with
  | nil => rfl
  | cons w rest ih =>
    rw [scanWords_cons, List.find?_cons, ih]
    cases r.stopsAt w <;> rfl

/-- `alloc_page_from_region` takes the page that the stopping word names. -/
theorem allocPageFromRegion_eq (r : PmmRegion) :
    allocPageFromRegion r =
      match r.stopWord with
      | some w => (r.takePage (r.mirrorPage w), r.pageAddr (r.mirrorPage w))
      | none => (r, null) := by
  unfold allocPageFromRegion
  rw [PmmRegion.stopWord, PmmRegion.searchOrder, List.find?_append]
  simp only [scanWords_eq]
  cases List.find? r.stopsAt (List.range' _ _) with
  | some w => rfl
  | none => cases List.find? r.stopsAt (List.range _) <;> rfl

theorem PmmRegion.mirrorPage_lt {r : PmmRegion} {w : Nat} (h : r.stopWord = some w) :
    r.mirrorPage w < r.pages.toNat := by
  have := List.find?_some h
  simp only [PmmRegion.stopsAt, Bool.and_eq_true, decide_eq_true_eq] at this
  exact this.2

/-- The bit the search marks, as a bit of the word it stopped at. -/
theorem testBit64_mirrorPage (r : PmmRegion) (w : Nat) :
    testBit64 r.bitmap (r.mirrorPage w) =
      (bitmapWord r.bitmap w).getLsbD (63 - highestClear (bitmapWord r.bitmap w)) := by
  rw [testBit64_eq, Bitmap.get]
  have word : r.mirrorPage w / 64 = w := by unfold PmmRegion.mirrorPage; omega
  have bit : r.mirrorPage w % 64 = 63 - highestClear (bitmapWord r.bitmap w) := by
    unfold PmmRegion.mirrorPage
    omega
  rw [word, bit]
  rfl

/-- Where a loop of `pmm_alloc_page_zone` over the regions that pass `want` stops. -/
def stopRegion (want : PmmRegion → Bool) (regions : List PmmRegion) : Option (PmmRegion × Nat) :=
  regions.findSome? fun r => if want r then r.stopWord.map (r, ·) else none

theorem stopRegion_eq_some {want : PmmRegion → Bool} {regions : List PmmRegion} {r : PmmRegion}
    {w : Nat} (h : stopRegion want regions = some (r, w)) : r ∈ regions ∧ r.stopWord = some w := by
  obtain ⟨r', hr', heq⟩ := List.exists_of_findSome?_eq_some h
  split at heq
  · obtain ⟨w', hw', heq⟩ := Option.map_eq_some_iff.mp heq
    obtain ⟨rfl, rfl⟩ := Prod.mk.inj heq
    exact ⟨hr', hw'⟩
  · cases heq

/-- A loop of `pmm_alloc_page_zone` takes the page its stopping region names, or changes nothing. -/
def TakesAtStop (want : PmmRegion → Bool) (regions : List PmmRegion) : Prop :=
  match stopRegion want regions with
  | none => allocPageFrom want regions = (regions, null)
  | some (r, w) => ∃ pre post, regions = pre ++ r :: post ∧
      allocPageFrom want regions =
        (pre ++ r.takePage (r.mirrorPage w) :: post, r.pageAddr (r.mirrorPage w))

/-- A region that the loop passes over stays in front of the list that the rest of it leaves. -/
theorem TakesAtStop.skip {want : PmmRegion → Bool} {r : PmmRegion} {rest : List PmmRegion}
    (h : TakesAtStop want rest) (hstop : stopRegion want (r :: rest) = stopRegion want rest)
    (halloc : allocPageFrom want (r :: rest) =
      (r :: (allocPageFrom want rest).1, (allocPageFrom want rest).2)) :
    TakesAtStop want (r :: rest) := by
  unfold TakesAtStop at h ⊢
  rw [hstop, halloc]
  split
  · next hnone =>
    rw [hnone] at h
    rw [h]
  · next r' w hsome =>
    rw [hsome] at h
    obtain ⟨pre, post, heq, hres⟩ := h
    exact ⟨r :: pre, post, by rw [heq, List.cons_append], by rw [hres]; rfl⟩

theorem takesAtStop (want : PmmRegion → Bool) :
    ∀ regions : List PmmRegion, (∀ r ∈ regions, r.shape.Wf) → TakesAtStop want regions
  | [], _ => rfl
  | r :: rest, hwf => by
    have hrest := takesAtStop want rest fun r' h => hwf r' (.tail _ h)
    by_cases hw : want r = true
    · cases hs : r.stopWord with
      | none =>
        apply hrest.skip
        · rw [stopRegion, List.findSome?_cons, if_pos hw, hs]
          rfl
        · rw [allocPageFrom, if_pos hw, allocPageFromRegion_eq, hs]
          rfl
      | some w =>
        have stop : stopRegion want (r :: rest) = some (r, w) := by
          rw [stopRegion, List.findSome?_cons, if_pos hw, hs]
          rfl
        have page : r.pageAddr (r.mirrorPage w) ≠ null :=
          (hwf r List.mem_cons_self).pageAddr_ne_null (PmmRegion.mirrorPage_lt hs)
        rw [TakesAtStop, stop]
        refine ⟨[], rest, rfl, ?_⟩
        rw [allocPageFrom, if_pos hw, allocPageFromRegion_eq, hs]
        simp only [ne_eq, page, not_false_eq_true, if_true, List.nil_append]
    · apply hrest.skip
      · rw [stopRegion, List.findSome?_cons, if_neg hw]
        rfl
      · rw [allocPageFrom, if_neg hw]

/-- Where `pmm_alloc_page_zone` stops: in a region of the zone if one stops it, else in any. -/
def pageStop (regions : List PmmRegion) (zone : PmmZone) : Option (PmmRegion × Nat) :=
  (stopRegion (fun r => r.zone == zone) regions).or (stopRegion (fun _ => true) regions)

theorem pageStop_eq_some {regions : List PmmRegion} {zone : PmmZone} {r : PmmRegion} {w : Nat}
    (h : pageStop regions zone = some (r, w)) : r ∈ regions ∧ r.stopWord = some w := by
  rcases Option.or_eq_some_iff.mp h with h | ⟨_, h⟩ <;> exact stopRegion_eq_some h

/-- `pmm_alloc_page_zone` takes the page its search stops with, or changes nothing. -/
theorem pmmAllocPageZone_spec {s : Pmm} (hinit : s.initialized = true)
    (hwf : ∀ r ∈ s.regions, r.shape.Wf) (zone : PmmZone) :
    match pageStop s.regions zone with
    | none => pmmAllocPageZone s zone = (s, null)
    | some (r, w) => ∃ pre post, s.regions = pre ++ r :: post ∧
        pmmAllocPageZone s zone =
          ({ s with regions := pre ++ r.takePage (r.mirrorPage w) :: post },
            r.pageAddr (r.mirrorPage w)) := by
  have preferred := takesAtStop (fun r => r.zone == zone) s.regions hwf
  have fallback := takesAtStop (fun _ => true) s.regions hwf
  unfold TakesAtStop at preferred fallback
  unfold pageStop
  cases hp : stopRegion (fun r => r.zone == zone) s.regions with
  | some stop =>
    obtain ⟨r, w⟩ := stop
    rw [hp] at preferred
    obtain ⟨pre, post, heq, hres⟩ := preferred
    have hstop := stopRegion_eq_some hp
    have page := (hwf r hstop.1).pageAddr_ne_null (PmmRegion.mirrorPage_lt hstop.2)
    refine ⟨pre, post, heq, ?_⟩
    simp only [pmmAllocPageZone, hinit, Bool.not_true, Bool.false_eq_true, if_false, hres]
    exact if_pos page
  | none =>
    rw [hp] at preferred
    simp only [Option.none_or]
    split
    · next hf =>
      rw [hf] at fallback
      have same : ({ regions := s.regions, initialized := true } : Pmm) = s := by rw [← hinit]
      simp [pmmAllocPageZone, hinit, preferred, fallback, same]
    · next r w hf =>
      rw [hf] at fallback
      obtain ⟨pre, post, heq, hres⟩ := fallback
      exact ⟨pre, post, heq, by simp [pmmAllocPageZone, hinit, preferred, hres]⟩

/-! ## The multi-page search -/

/-- What the search keeps before index `i`: the last `consecutive` indices are clear, and they begin
at `startPage` when there is one. -/
structure RunState (r : PmmRegion) (i consecutive startPage : Nat) : Prop where
  begins : consecutive ≠ 0 → startPage + consecutive = i
  clear : ∀ j, i ≤ j + consecutive → j < i → testBit64 r.bitmap j = false

/-- The search answers the start of `count` clear pages among the ones it visits. -/
theorem findConsecutive_sound {r : PmmRegion} {count n : Nat} {i consecutive startPage s : Nat}
    (h : RunState r i consecutive startPage)
    (hs : findConsecutive r count (List.range' i n) consecutive startPage = some s) :
    s + count ≤ i + n ∧ ∀ j, s ≤ j → j < s + count → testBit64 r.bitmap j = false := by
  induction n generalizing i consecutive startPage with
  | zero => cases hs
  | succ n ih =>
    rw [List.range'_succ, findConsecutive] at hs
    by_cases hbit : testBit64 r.bitmap i = true
    · rw [hbit, Bool.not_true, if_neg Bool.false_ne_true] at hs
      have next : RunState r (i + 1) 0 startPage :=
        ⟨fun h => absurd rfl h, fun j hj hlt => by omega⟩
      have := ih next hs
      exact ⟨by omega, this.2⟩
    · have hclear : testBit64 r.bitmap i = false := Bool.not_eq_true _ ▸ hbit
      rw [hclear, Bool.not_false, if_pos rfl] at hs
      have begins : (if consecutive = 0 then i else startPage) + (consecutive + 1) = i + 1 := by
        split
        · omega
        · next hne => have := h.begins hne; omega
      have next :
          RunState r (i + 1) (consecutive + 1) (if consecutive = 0 then i else startPage) := by
        refine ⟨fun _ => begins, fun j hj hlt => ?_⟩
        by_cases hji : j = i
        · exact hji ▸ hclear
        · exact h.clear j (by omega) (by omega)
      by_cases hcount : consecutive + 1 = count
      · rw [if_pos hcount] at hs
        obtain rfl := Option.some.inj hs
        exact ⟨by omega, fun j hj hlt => next.clear j (by omega) (by omega)⟩
      · rw [if_neg hcount] at hs
        have := ih next hs
        exact ⟨by omega, this.2⟩

/-- The writes of `pmm_alloc_pages_zone` in the region it found. -/
def PmmRegion.takePages (r : PmmRegion) (startPage count : Nat) : PmmRegion :=
  { r with bitmap := setBits r.bitmap startPage count }

/-- The loop of `pmm_alloc_pages_zone` takes a clear range of one region, or changes nothing. -/
theorem allocPagesFrom_spec (count : SizeT) (zone : PmmZone) :
    ∀ regions : List PmmRegion,
      allocPagesFrom count zone regions = (regions, null) ∨
      ∃ pre r post startPage, regions = pre ++ r :: post ∧ r.zone = zone ∧
        startPage + count.toNat ≤ r.pages.toNat ∧
        (∀ j, startPage ≤ j → j < startPage + count.toNat → testBit64 r.bitmap j = false) ∧
        allocPagesFrom count zone regions =
          (pre ++ r.takePages startPage count.toNat :: post, r.pageAddr startPage)
  | [] => .inl rfl
  | r :: rest => by
    have skip : allocPagesFrom count zone (r :: rest) =
        (r :: (allocPagesFrom count zone rest).1, (allocPagesFrom count zone rest).2) →
        allocPagesFrom count zone (r :: rest) = (r :: rest, null) ∨
        ∃ pre r' post startPage, r :: rest = pre ++ r' :: post ∧ r'.zone = zone ∧
          startPage + count.toNat ≤ r'.pages.toNat ∧
          (∀ j, startPage ≤ j → j < startPage + count.toNat → testBit64 r'.bitmap j = false) ∧
          allocPagesFrom count zone (r :: rest) =
            (pre ++ r'.takePages startPage count.toNat :: post, r'.pageAddr startPage) := by
      intro halloc
      rw [halloc]
      rcases allocPagesFrom_spec count zone rest with
        h | ⟨pre, r', post, start, heq, hz, hfit, hc, h⟩
      · exact .inl (by rw [h])
      · exact .inr ⟨r :: pre, r', post, start, by rw [heq, List.cons_append], hz, hfit, hc, by
          rw [h]; rfl⟩
    by_cases hz : r.zone = zone
    · cases hf : findConsecutive r count.toNat (List.range r.pages.toNat) 0 0 with
      | none => exact skip (by rw [allocPagesFrom, if_neg (not_not_intro hz), hf])
      | some start =>
        have start0 : RunState r 0 0 0 := ⟨fun h => absurd rfl h, fun j _ hlt => by omega⟩
        rw [List.range_eq_range'] at hf
        have found := findConsecutive_sound start0 hf
        refine .inr ⟨[], r, rest, start, rfl, hz, by omega, found.2, ?_⟩
        rw [allocPagesFrom, if_neg (not_not_intro hz), List.range_eq_range', hf]
        rfl
    · exact skip (by rw [allocPagesFrom, if_pos hz])

/-- `pmm_alloc_pages_zone` takes a clear range of one region, or changes nothing. -/
theorem pmmAllocPagesZone_spec (s : Pmm) (count : SizeT) (zone : PmmZone) :
    pmmAllocPagesZone s count zone = (s, null) ∨
    ∃ pre r post startPage, s.regions = pre ++ r :: post ∧ count ≠ 0 ∧ r.zone = zone ∧
      startPage + count.toNat ≤ r.pages.toNat ∧
      (∀ j, startPage ≤ j → j < startPage + count.toNat → testBit64 r.bitmap j = false) ∧
      pmmAllocPagesZone s count zone =
        ({ s with regions := pre ++ r.takePages startPage count.toNat :: post },
          r.pageAddr startPage) := by
  unfold pmmAllocPagesZone
  split
  · exact .inl rfl
  next hguard =>
  simp only [Bool.or_eq_true, Bool.not_eq_true', beq_iff_eq, not_or] at hguard
  rcases allocPagesFrom_spec count zone s.regions with
    h | ⟨pre, r, post, start, heq, hz, hfit, hclear, h⟩
  · rw [h]
    exact .inl rfl
  · rw [h]
    exact .inr ⟨pre, r, post, start, heq, hguard.2, hz, hfit, hclear, rfl⟩

/-! ## Freeing -/

/-- The region that `find_region_for_addr` returns is the one a write through it changes. -/
theorem updateRegionForAddr_spec {regions : List PmmRegion} {addr : UIntPtr} {r : PmmRegion}
    (h : findRegionForAddr regions addr = some r) :
    ∃ pre post, regions = pre ++ r :: post ∧ r.holds addr = true ∧
      ∀ f, updateRegionForAddr addr f regions = pre ++ f r :: post := by
  induction regions with
  | nil => cases h
  | cons q rest ih =>
    rw [findRegionForAddr, List.find?_cons] at h
    by_cases hq : q.holds addr = true
    · rw [hq] at h
      obtain rfl := Option.some.inj h
      exact ⟨[], rest, rfl, hq, fun f => by rw [updateRegionForAddr, if_pos hq, List.nil_append]⟩
    · have hq' : q.holds addr = false := by simpa using hq
      rw [hq'] at h
      obtain ⟨pre, post, heq, hr, hf⟩ := ih h
      refine ⟨q :: pre, post, by rw [heq, List.cons_append], hr, fun f => ?_⟩
      rw [updateRegionForAddr, if_neg hq, hf f, List.cons_append]

/-- `pmm_free_pages` clears a range in the region of the address, or changes nothing. -/
theorem pmmFreePages_spec (s : Pmm) (addr : UIntPtr) (count : SizeT) (past : Nat → Bool) :
    pmmFreePages s addr count past = (s, -1) ∨
    ∃ pre r post, s.regions = pre ++ r :: post ∧ r.holds addr = true ∧
      pmmIsPageAligned addr = true ∧
      pmmFreePages s addr count past =
        ({ s with regions := pre ++ r.givePages (r.pageIdx addr) count :: post }, 0) := by
  unfold pmmFreePages
  split
  · exact .inl rfl
  split
  · exact .inl rfl
  next haligned =>
  split
  · exact .inl rfl
  next r hr =>
  dsimp only
  split
  · exact .inl rfl
  split
  · obtain ⟨pre, post, heq, hholds, hf⟩ := updateRegionForAddr_spec hr
    refine .inr ⟨pre, r, post, heq, hholds, by simpa using haligned, ?_⟩
    rw [hf]
  · exact .inl rfl

/-! ## What the writes do to a region's bits -/

@[simp] theorem shape_takePage (r : PmmRegion) (i : Nat) : (r.takePage i).shape = r.shape := by
  simp [PmmRegion.shape, PmmRegion.takePage]

@[simp] theorem shape_takePages (r : PmmRegion) (startPage count : Nat) :
    (r.takePages startPage count).shape = r.shape := by
  simp [PmmRegion.shape, PmmRegion.takePages]

@[simp] theorem shape_givePages (r : PmmRegion) (startPage count : SizeT) :
    (r.givePages startPage count).shape = r.shape := by
  simp [PmmRegion.shape, PmmRegion.givePages]

section Region

variable {r : PmmRegion} {p : UIntPtr}

/-- Taking a page sets its bit. -/
theorem PmmRegion.takePage_self (hwf : r.shape.Wf) {i : Nat} (hi : i < r.pages.toNat) :
    (r.takePage i).PageBit (r.pageAddr i) true := by
  refine ⟨i, hi, rfl, ?_⟩
  rw [PmmRegion.takePage, testBit64_setBit64 (hwf.word_lt hi), decide_eq_true rfl, Bool.true_or]

/-- Taking a page leaves set bits set. -/
theorem PmmRegion.takePage_keeps (hwf : r.shape.Wf) {i : Nat} (hi : i < r.pages.toNat)
    (h : r.PageBit p true) : (r.takePage i).PageBit p true := by
  obtain ⟨j, hj, hp, hbit⟩ := h
  refine ⟨j, hj, hp, ?_⟩
  rw [PmmRegion.takePage, testBit64_setBit64 (hwf.word_lt hi), hbit, Bool.or_true]

theorem PmmRegion.testBit64_takePages (hwf : r.shape.Wf) {startPage count j : Nat}
    (hfit : startPage + count ≤ r.pages.toNat) :
    testBit64 (r.takePages startPage count).bitmap j =
      (decide (startPage ≤ j ∧ j < startPage + count) || testBit64 r.bitmap j) := by
  have cover : r.pages.toNat ≤ 64 * r.bitmap.length := hwf.cover
  exact testBit64_setBits (by omega)

/-- Taking a range of pages sets their bits. -/
theorem PmmRegion.takePages_self (hwf : r.shape.Wf) {startPage count j : Nat}
    (hfit : startPage + count ≤ r.pages.toNat) (hj : startPage ≤ j) (hlt : j < startPage + count) :
    (r.takePages startPage count).PageBit (r.pageAddr j) true := by
  refine ⟨j, Nat.lt_of_lt_of_le hlt hfit, rfl, ?_⟩
  rw [testBit64_takePages hwf hfit, decide_eq_true ⟨hj, hlt⟩, Bool.true_or]

/-- Taking a range of pages leaves set bits set. -/
theorem PmmRegion.takePages_keeps (hwf : r.shape.Wf) {startPage count : Nat}
    (hfit : startPage + count ≤ r.pages.toNat) (h : r.PageBit p true) :
    (r.takePages startPage count).PageBit p true := by
  obtain ⟨j, hj, hp, hbit⟩ := h
  refine ⟨j, hj, hp, ?_⟩
  rw [testBit64_takePages hwf hfit, hbit, Bool.or_true]

/-- Giving a range of pages back leaves the set bits of all other pages set. -/
theorem PmmRegion.givePages_keeps {startPage count : SizeT} (h : r.PageBit p true)
    (hp : ∀ i < count.toNat, r.base + (startPage + BitVec.ofNat 32 i) * pmmPageSize ≠ p) :
    (r.givePages startPage count).PageBit p true := by
  obtain ⟨j, hj, rfl, hbit⟩ := h
  refine ⟨j, hj, rfl, ?_⟩
  rw [PmmRegion.givePages, testBit64_clearBits]
  refine ⟨hbit, fun i hi heq => hp i hi ?_⟩
  rw [PmmRegion.pageAddr, ← heq, BitVec.ofNat_toNat, BitVec.setWidth_eq]

/-- An aligned address that a region holds is its page `pageIdx`. -/
theorem PmmRegion.base_add_pageIdx (hwf : r.shape.Wf) {addr : UIntPtr} (hr : r.holds addr = true)
    (haligned : pmmIsPageAligned addr = true) : r.base + r.pageIdx addr * pmmPageSize = addr := by
  have low : addr.toNat % 4096 = 0 := by
    have mask := beq_iff_eq.mp haligned
    have := toNat_and_mask (x := addr) (m := pmmPageSize - 1) (k := 12) (by decide)
    rw [mask] at this
    exact this.symm
  have base : r.base.toNat % 4096 = 0 := hwf.aligned
  simp only [PmmRegion.holds, Bool.and_eq_true, decide_eq_true_eq] at hr
  have le : r.base ≤ addr := hr.1
  have diff : (addr - r.base).toNat = addr.toNat - r.base.toNat := BitVec.toNat_sub_of_le le
  rw [BitVec.le_def] at le
  have lt := addr.isLt
  apply BitVec.eq_of_toNat_eq
  rw [PmmRegion.pageIdx, BitVec.toNat_add, BitVec.toNat_mul, BitVec.toNat_udiv, diff,
    toNat_pmmPageSize]
  omega

end Region

/-! ## Reserving -/

/-- The layout is as before and no set bit was cleared. -/
structure OnlyMarks (before after : List PmmRegion) : Prop where
  layout : layout after = layout before
  keeps : ∀ p, PageBit before p true → PageBit after p true

theorem OnlyMarks.refl (regions : List PmmRegion) : OnlyMarks regions regions :=
  ⟨rfl, fun _ => id⟩

theorem OnlyMarks.trans {a b c : List PmmRegion} (h : OnlyMarks a b) (h' : OnlyMarks b c) :
    OnlyMarks a c :=
  ⟨h'.layout.trans h.layout, fun p hp => h'.keeps p (h.keeps p hp)⟩

/-- A write in one region that keeps its shape and its set bits only marks. -/
theorem OnlyMarks.replace {pre post : List PmmRegion} {r r' : PmmRegion}
    (hshape : r'.shape = r.shape) (hbits : ∀ p, r.PageBit p true → r'.PageBit p true) :
    OnlyMarks (pre ++ r :: post) (pre ++ r' :: post) := by
  refine ⟨by simp [hshape], fun p h => ?_⟩
  rw [pageBit_append, pageBit_cons] at h ⊢
  exact h.imp id (Or.imp (hbits p) id)

/-- An address that no region holds is no one's to write through. -/
theorem updateRegionForAddr_none {regions : List PmmRegion} {addr : UIntPtr}
    (h : findRegionForAddr regions addr = none) (f : PmmRegion → PmmRegion) :
    updateRegionForAddr addr f regions = regions := by
  induction regions with
  | nil => rfl
  | cons q rest ih =>
    rw [findRegionForAddr, List.find?_cons] at h
    by_cases hq : q.holds addr = true
    · rw [hq] at h
      cases h
    · have hq' : q.holds addr = false := by simpa using hq
      rw [hq'] at h
      rw [updateRegionForAddr, if_neg hq, ih h]

theorem reservePage_onlyMarks {regions : List PmmRegion} (hwf : ∀ r ∈ regions, r.shape.Wf)
    (addr : UIntPtr) : OnlyMarks regions (reservePage addr regions) := by
  unfold reservePage
  cases hr : findRegionForAddr regions addr with
  | none =>
    rw [updateRegionForAddr_none hr]
    exact .refl regions
  | some r =>
    obtain ⟨pre, post, rfl, _, hf⟩ := updateRegionForAddr_spec hr
    rw [hf]
    split
    · next hlt =>
      have wf := hwf r (by simp)
      refine .replace (by simp [PmmRegion.shape]) fun p h => ?_
      -- the hint is the only field in which this differs from taking a page
      obtain ⟨i, hi, hp, hbit⟩ := r.takePage_keeps wf (BitVec.lt_def.mp hlt) h
      exact ⟨i, hi, hp, hbit⟩
    · exact .refl _

theorem reserveLoop_onlyMarks (alignedEnd : UIntPtr) (fuel : Nat) (addr : UIntPtr)
    {regions : List PmmRegion} (hwf : ∀ r ∈ regions, r.shape.Wf) :
    OnlyMarks regions (reserveLoop alignedEnd fuel addr regions) := by
  induction fuel generalizing addr regions with
  | zero => exact .refl regions
  | succ fuel ih =>
    rw [reserveLoop]
    split
    · have one := reservePage_onlyMarks hwf addr
      exact one.trans (ih (addr + pmmPageSize) (shapes_of_layout one.layout hwf))
    · exact .refl regions

/-! ## Adding a region -/

theorem toNat_pmmPageAlignDown (x : UIntPtr) :
    (pmmPageAlignDown x).toNat = x.toNat / 4096 * 4096 :=
  toNat_and_not_mask (x := x) (m := pmmPageSize - 1) (k := 12) (by decide)

theorem pmmPageAlignUp_eq (x : UIntPtr) :
    pmmPageAlignUp x = pmmPageAlignDown (x + pmmPageSize - 1) := rfl

/-- Rounding up, as a number, short of the last page of the address space. -/
theorem toNat_pmmPageAlignUp {base : UIntPtr} (h : base.toNat + 4095 < 2 ^ 32) :
    (pmmPageAlignUp base).toNat = (base.toNat + 4095) / 4096 * 4096 :=
  toNat_roundUp (a := pmmPageSize) ⟨12, rfl⟩ h

/-- In the last page of the address space, rounding up wraps to 0. -/
theorem pmmPageAlignUp_wraps {base : UIntPtr} (h : ¬ base.toNat + 4095 < 2 ^ 32) :
    pmmPageAlignUp base = 0 := by
  have value : (base + pmmPageSize - 1).toNat < 4096 := by
    unfold pmmPageSize
    bv_omega
  apply BitVec.eq_of_toNat_eq
  rw [pmmPageAlignUp_eq, toNat_pmmPageAlignDown, Nat.div_eq_of_lt value, Nat.zero_mul]
  rfl

/-- The range reaches the first page boundary at or above its base. -/
def ReachesPage (base : UIntPtr) (size : SizeT) : Prop := pmmPageAlignUp base - base ≤ size

/-- The region that `pmm_add_region` puts on the list. -/
def newRegion (base : UIntPtr) (size : SizeT) (zone : PmmZone) : PmmRegion :=
  let pages := pmmPageAlignDown (size - (pmmPageAlignUp base - base)) / pmmPageSize
  { base := pmmPageAlignUp base, pages := pages,
    bitmap := List.replicate ((pages + 63) / 64).toNat 0, bitmapSize := (pages + 63) / 64,
    lastAlloc := 0, zone := zone }

/-- `pmm_add_region` puts a nonempty region on the list, or changes nothing. -/
theorem pmmAddRegion_spec (s : Pmm) (base : UIntPtr) (size : SizeT) (zone : PmmZone)
    (heap : PmmHeap) :
    pmmAddRegion s base size zone heap = (s, -1) ∨
    (newRegion base size zone).pages ≠ 0 ∧
      pmmAddRegion s base size zone heap =
        ({ s with regions := newRegion base size zone :: s.regions }, 0) := by
  unfold pmmAddRegion
  split
  · exact .inl rfl
  dsimp only
  split
  · exact .inl rfl
  next hpages =>
  split
  · exact .inl rfl
  split
  · exact .inl rfl
  exact .inr ⟨hpages, rfl⟩

/-- Wherever the range lies, the pages fit the address space. -/
theorem newRegion_pages_lt (base : UIntPtr) (size : SizeT) (zone : PmmZone) :
    (newRegion base size zone).pages.toNat < 2 ^ 20 := by
  show (pmmPageAlignDown (size - (pmmPageAlignUp base - base)) / pmmPageSize).toNat < 2 ^ 20
  rw [BitVec.toNat_udiv, toNat_pmmPageSize, Nat.div_lt_iff_lt_mul (by decide)]
  exact BitVec.isLt _

/-- The bitmap has a word for each 64 pages, rounded up. -/
theorem newRegion_words (base : UIntPtr) (size : SizeT) (zone : PmmZone) :
    (newRegion base size zone).shape.words =
      ((newRegion base size zone).pages.toNat + 63) / 64 := by
  have pages := newRegion_pages_lt base size zone
  have length : (newRegion base size zone).shape.words =
      (((newRegion base size zone).pages + 63) / 64).toNat := List.length_replicate
  rw [length, BitVec.toNat_udiv, BitVec.toNat_add]
  show ((newRegion base size zone).pages.toNat + 63) % 2 ^ 32 / 64 = _
  omega

section NewRegion

variable {base : UIntPtr} {size : SizeT} (zone : PmmZone)

/-- The pages of a new region, counted: the whole pages between the first boundary and the end. -/
theorem newRegion_extent (hbase : base ≠ 0) (hfits : base.toNat + size.toNat ≤ 2 ^ 32)
    (hreach : ReachesPage base size) (hpages : (newRegion base size zone).pages ≠ 0) :
    (newRegion base size zone).base.toNat = (base.toNat + 4095) / 4096 * 4096 ∧
      (newRegion base size zone).base.toNat + 4096 * (newRegion base size zone).pages.toNat ≤
        base.toNat + size.toNat := by
  have pos := toNat_pos hbase
  have reach : (pmmPageAlignUp base - base).toNat ≤ size.toNat := hreach
  have rest : (size - (pmmPageAlignUp base - base)).toNat =
      size.toNat - (pmmPageAlignUp base - base).toNat := BitVec.toNat_sub_of_le hreach
  have count : (newRegion base size zone).pages.toNat =
      (size.toNat - (pmmPageAlignUp base - base).toNat) / 4096 := by
    show (pmmPageAlignDown (size - (pmmPageAlignUp base - base)) / pmmPageSize).toNat = _
    rw [BitVec.toNat_udiv, toNat_pmmPageAlignDown, rest, toNat_pmmPageSize]
    omega
  by_cases hlow : base.toNat + 4095 < 2 ^ 32
  · have up := toNat_pmmPageAlignUp hlow
    have gap : (pmmPageAlignUp base - base).toNat = (pmmPageAlignUp base).toNat - base.toNat :=
      BitVec.toNat_sub_of_le (by rw [BitVec.le_def]; omega)
    have at_ : (newRegion base size zone).base = pmmPageAlignUp base := rfl
    rw [at_]
    omega
  · -- the boundary wraps to 0, so a range that reaches it ends there and holds no page
    have gap : (pmmPageAlignUp base - base).toNat = 2 ^ 32 - base.toNat := by
      rw [pmmPageAlignUp_wraps hlow]
      have := base.isLt
      bv_omega
    have none : (newRegion base size zone).pages.toNat = 0 := by omega
    exact absurd (BitVec.eq_of_toNat_eq none) hpages

theorem newRegion_wf (hbase : base ≠ 0) (hfits : base.toNat + size.toNat ≤ 2 ^ 32)
    (hreach : ReachesPage base size) (hpages : (newRegion base size zone).pages ≠ 0) :
    (newRegion base size zone).shape.Wf := by
  have pos := toNat_pos hbase
  obtain ⟨hat, hend⟩ := newRegion_extent zone hbase hfits hreach hpages
  have words := newRegion_words base size zone
  refine ⟨?_, ?_, ?_, ?_, ?_⟩
  · show (newRegion base size zone).base.toNat % 4096 = 0
    omega
  · show 0 < (newRegion base size zone).base.toNat
    omega
  · show (newRegion base size zone).base.toNat + 4096 * (newRegion base size zone).pages.toNat ≤ _
    omega
  · exact List.length_replicate.symm
  · show (newRegion base size zone).pages.toNat ≤ 64 * (newRegion base size zone).shape.words
    omega

/-- Every page of a new region lies in the range it was made from. -/
theorem newRegion_contained (hbase : base ≠ 0) (hfits : base.toNat + size.toNat ≤ 2 ^ 32)
    (hreach : ReachesPage base size) (hpages : (newRegion base size zone).pages ≠ 0) {p : UIntPtr}
    (hp : (newRegion base size zone).shape.HasPage p) :
    base.toNat ≤ p.toNat ∧ p.toNat < base.toNat + size.toNat := by
  obtain ⟨hat, hend⟩ := newRegion_extent zone hbase hfits hreach hpages
  obtain ⟨i, hi, rfl⟩ := hp
  rw [(newRegion_wf zone hbase hfits hreach hpages).toNat_pageAddr hi]
  show base.toNat ≤ (newRegion base size zone).base.toNat + 4096 * i ∧ _
  have hi' : i < (newRegion base size zone).pages.toNat := hi
  constructor
  · omega
  · show (newRegion base size zone).base.toNat + 4096 * i < _
    omega

end NewRegion

end Unics
