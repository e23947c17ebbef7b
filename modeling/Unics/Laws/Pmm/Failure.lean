import Unics.Laws.Pmm.Attempts
import Unics.Laws.Pmm.Contiguous

/-!
# What a failed allocation leaves behind

A failed allocation should change nothing, and one that succeeds should set the bits of its own
pages and no others. Both calls mark pages before they look at the address, and address 0 is the
null pointer: a region that begins there can be marked by a call that then reports a failure, or
goes on to take a page elsewhere. And a single-page call may take a page whose bit is already set.

`pmm_failure_iff` is the exact condition, in every state of every run.
-/

namespace Unics

open Unics.Lib

/-- The bits, by the number of their region and their index, that are clear before and set after. -/
def newlySet (before after : List PmmRegion) : Set (Nat × Nat) :=
  {x | ∃ q q', before[x.1]? = some q ∧ after[x.1]? = some q' ∧
    testBit64 q.bitmap x.2 = false ∧ testBit64 q'.bitmap x.2 = true}

/-- An allocation of `count` pages that fails leaves every region as it was, bitmap and hint, and
one that succeeds sets the bits of its own pages, which were clear. -/
structure AllocClean (s : Pmm) (count : Nat) (res : Pmm × UIntPtr) : Prop where
  failed : res.2 = null → res.1.regions = s.regions
  taken : res.2 ≠ null → ∃ k r i, s.regions[k]? = some r ∧ i + count ≤ r.pages.toNat ∧
    r.pageAddr i = res.2 ∧
      newlySet s.regions res.1.regions = {x | x.1 = k ∧ i ≤ x.2 ∧ x.2 < i + count}

/-- Both allocation calls are clean. -/
def AllocsClean (s : Pmm) (count : SizeT) (zone : PmmZone) : Prop :=
  AllocClean s 1 (pmmAllocPageZone s zone) ∧
    AllocClean s count.toNat (pmmAllocPagesZone s count zone)

/-- The page that an attempt on the region would mark is marked already. -/
def PmmRegion.StopMarked (r : PmmRegion) : Prop :=
  ∀ w, r.stopWord = some w → testBit64 r.bitmap (r.mirrorPage w) = true

/-- It is marked, and the region's hint is there. -/
def PmmRegion.StopSettled (r : PmmRegion) : Prop :=
  ∀ w, r.stopWord = some w →
    testBit64 r.bitmap (r.mirrorPage w) = true ∧ r.lastAlloc.toNat = r.mirrorPage w

/-- A single-page call writes nothing on its way: where no region gives a page, what the attempts
write is there already, and where one does, its page is clear and the attempts before it mark
nothing new. -/
structure PageCallTidy (s : Pmm) (zone : PmmZone) : Prop where
  fails : s.initialized = true → (∀ q ∈ s.regions, q.gives = false) →
    ∀ q ∈ s.regions, q.StopSettled
  gives : s.initialized = true → ∀ pre r post w, Giver s.regions zone pre r post w →
    testBit64 r.bitmap (r.mirrorPage w) = false ∧
      ∀ k q, s.regions[k]? = some q → Tried zone r pre.length k q → q.StopMarked

/-- The first clear range of the zone does not begin at address 0. -/
def PagesCallTidy (s : Pmm) (count : SizeT) (zone : PmmZone) : Prop :=
  s.initialized = true → count ≠ 0 → ∀ pre r post start,
    FirstRange s.regions count.toNat zone pre r post start → r.pageAddr start ≠ null

/-! ## One region -/

section Region

variable {r : PmmRegion}

/-- An attempt changes nothing exactly when what it writes is there already. -/
theorem visited_eq_iff (hr : r.shape.Made) : r.visited = r ↔ r.StopSettled := by
  unfold PmmRegion.StopSettled
  cases hstop : r.stopWord with
  | none =>
    rw [PmmRegion.visited, hstop]
    refine iff_of_true rfl fun w hw => ?_
    cases hw
  | some w =>
    have inside := PmmRegion.mirrorPage_lt hstop
    have small : 4096 * r.pages.toNat < 2 ^ 32 := hr.small
    have word := PmmRegion.word_of_made hr inside
    have hint : (BitVec.ofNat 32 (r.mirrorPage w)).toNat = r.mirrorPage w := by
      rw [BitVec.toNat_ofNat, Nat.mod_eq_of_lt (by omega)]
    rw [PmmRegion.visited_of_stop hstop]
    constructor
    · rintro same v hv
      obtain rfl := Option.some.inj hv
      constructor
      · have bitmap : setBit64 r.bitmap (r.mirrorPage w) = r.bitmap := congrArg (·.bitmap) same
        rw [← bitmap, testBit64_setBit64 word, decide_eq_true rfl, Bool.true_or]
      · rw [← hint]
        exact congrArg (·.lastAlloc.toNat) same.symm
    · intro settled
      obtain ⟨marked, at_⟩ := settled w rfl
      have bitmap : setBit64 r.bitmap (r.mirrorPage w) = r.bitmap := by
        refine bitmap_ext (length_setBit64 _ _) fun j => ?_
        rw [testBit64_setBit64 word]
        by_cases hj : r.mirrorPage w = j
        · rw [decide_eq_true hj, Bool.true_or, ← hj, marked]
        · rw [decide_eq_false hj, Bool.false_or]
      have last : BitVec.ofNat 32 (r.mirrorPage w) = r.lastAlloc :=
        BitVec.eq_of_toNat_eq (hint.trans at_.symm)
      rw [PmmRegion.takePage, bitmap, last]

end Region

/-! ## The single-page call -/

section Page

variable {s : Pmm} {pre post after : List PmmRegion} {r : PmmRegion} {zone : PmmZone} {w n : Nat}

/-- The bits that a call sets: the ones that its attempts find clear. -/
theorem mem_newlySet_of_leaves (hmade : ∀ r ∈ s.regions, r.shape.Made)
    (h : LeavesTried s.regions zone r n after) {x : Nat × Nat} :
    x ∈ newlySet s.regions after ↔ ∃ q, s.regions[x.1]? = some q ∧
      (x.1 = n ∨ Tried zone r n x.1 q) ∧ testBit64 q.bitmap x.2 = false ∧
        ∃ v, q.stopWord = some v ∧ x.2 = q.mirrorPage v := by
  constructor
  · rintro ⟨q, q', hq, hq', clear, set⟩
    rw [h.2 x.1 q hq] at hq'
    obtain rfl := Option.some.inj hq'
    by_cases ht : x.1 = n ∨ Tried zone r n x.1 q
    · rw [if_pos ht, testBit64_visited (hmade q (List.mem_of_getElem? hq)), clear] at set
      exact ⟨q, hq, ht, clear, set.resolve_left Bool.false_ne_true⟩
    · rw [if_neg ht, clear] at set
      cases set
  · rintro ⟨q, hq, ht, clear, stop⟩
    refine ⟨q, q.visited, hq, ?_, clear, ?_⟩
    · rw [h.2 x.1 q hq, if_pos ht]
    · exact (testBit64_visited (hmade q (List.mem_of_getElem? hq))).mpr (.inr stop)

/-- Where a region gives the page, the call is clean exactly when that page is clear and the
attempts before it mark nothing new. -/
theorem Giver.clean_iff (hmade : ∀ r ∈ s.regions, r.shape.Made) (hinit : s.initialized = true)
    (h : Giver s.regions zone pre r post w) :
    AllocClean s 1 (pmmAllocPageZone s zone) ↔ testBit64 r.bitmap (r.mirrorPage w) = false ∧
      ∀ k q, s.regions[k]? = some q → Tried zone r pre.length k q → q.StopMarked := by
  obtain ⟨after, leaves, call⟩ := h.call hmade hinit
  have members (x : Nat × Nat) := mem_newlySet_of_leaves hmade leaves (x := x)
  rw [call]
  constructor
  · intro clean
    obtain ⟨k, q, i, hk, -, addr, set⟩ := clean.taken h.page
    have own : (k, i) ∈ newlySet s.regions after := by
      rw [set]
      exact ⟨rfl, Nat.le_refl i, Nat.lt_succ_self i⟩
    have only {x : Nat × Nat} (hx : x ∈ newlySet s.regions after) : x = (k, i) := by
      rw [set] at hx
      obtain ⟨h1, h2, h3⟩ := hx
      exact Prod.ext h1 (by omega)
    obtain ⟨q', hq', hwhere, clear, v, stop, index⟩ := (members (k, i)).mp own
    rw [hk] at hq'
    obtain rfl := Option.some.inj hq'
    -- its address is not null, so it is the region that gave the page
    have gives : q.gives = true := by
      refine PmmRegion.gives_iff.mpr ⟨v, stop, ?_⟩
      have index : i = q.mirrorPage v := index
      rw [← index, addr]
      exact h.page
    obtain ⟨rfl, same⟩ := h.eq_of_gives hk hwhere gives
    subst q
    rw [h.stop] at stop
    obtain rfl := Option.some.inj stop
    have index : i = r.mirrorPage w := index
    refine ⟨index ▸ clear, fun k q hq ht v hv => ?_⟩
    by_contra hclear
    have mem : (k, q.mirrorPage v) ∈ newlySet s.regions after :=
      (members _).mpr ⟨q, hq, .inr ht, Bool.not_eq_true _ ▸ hclear, v, hv, rfl⟩
    exact h.not_tried hq ht (congrArg Prod.fst (only mem))
  · rintro ⟨clear, marked⟩
    refine ⟨fun hnull => absurd hnull h.page, fun _ => ⟨pre.length, r, r.mirrorPage w,
      h.here, PmmRegion.mirrorPage_lt h.stop, rfl, ?_⟩⟩
    ext x
    rw [members]
    constructor
    · rintro ⟨q, hq, hwhere, hclear, v, stop, index⟩
      have at_ : x.1 = pre.length := by
        refine hwhere.resolve_right fun ht => ?_
        have set := marked x.1 q hq ht v stop
        rw [← index, hclear] at set
        cases set
      rw [at_, h.here] at hq
      obtain rfl := Option.some.inj hq
      rw [h.stop] at stop
      obtain rfl := Option.some.inj stop
      exact ⟨at_, by omega, by omega⟩
    · rintro ⟨at_, low, high⟩
      have index : x.2 = r.mirrorPage w := by omega
      exact ⟨r, by rw [at_, h.here], .inl at_, by rw [index]; exact clear, w, h.stop, index⟩

theorem allocClean_same (s : Pmm) (count : Nat) : AllocClean s count (s, null) :=
  ⟨fun _ => rfl, fun hne => absurd rfl hne⟩

/-- The single-page call is clean exactly when it is tidy. -/
theorem pageCall_clean_iff (hmade : ∀ r ∈ s.regions, r.shape.Made) :
    AllocClean s 1 (pmmAllocPageZone s zone) ↔ PageCallTidy s zone := by
  by_cases hinit : s.initialized = true
  · rcases giver_or_none s.regions zone with hnone | ⟨pre, r, post, w, giver⟩
    · rw [pmmAllocPageZone_of_none hmade hinit hnone]
      have all : AllocClean s 1 ({ s with regions := s.regions.map PmmRegion.visited }, null) ↔
          ∀ q ∈ s.regions, q.StopSettled := by
        have same : s.regions.map PmmRegion.visited = s.regions ↔
            ∀ q ∈ s.regions, q.visited = q := by
          conv_lhs => rhs; rw [← List.map_id s.regions]
          exact List.map_eq_map_iff
        constructor
        · intro clean q hq
          exact (visited_eq_iff (hmade q hq)).mp (same.mp (clean.failed rfl) q hq)
        · intro settled
          refine ⟨fun _ => same.mpr fun q hq => ?_, fun hne => absurd rfl hne⟩
          exact (visited_eq_iff (hmade q hq)).mpr (settled q hq)
      rw [all]
      constructor
      · intro settled
        refine ⟨fun _ _ => settled, fun _ pre r post w giver => ?_⟩
        have fails := hnone r giver.mem
        rw [giver.gives] at fails
        cases fails
      · intro tidy
        exact tidy.fails hinit hnone
    · constructor
      · intro clean
        refine ⟨fun _ hnone => ?_, fun _ pre r post w giver => ?_⟩
        · have fails := hnone r giver.mem
          rw [giver.gives] at fails
          cases fails
        · exact (giver.clean_iff hmade hinit).mp clean
      · intro tidy
        exact (giver.clean_iff hmade hinit).mpr (tidy.gives hinit pre r post w giver)
  · rw [pmmAllocPageZone_uninitialized (Bool.not_eq_true _ ▸ hinit)]
    exact iff_of_true (allocClean_same s 1)
      ⟨fun hon => absurd hon hinit, fun hon => absurd hon hinit⟩

end Page

/-! ## The multi-page call -/

section Pages

variable {s : Pmm} {pre post : List PmmRegion} {r r' : PmmRegion} {zone : PmmZone} {start : Nat}

/-- The bits set by a call that marks a range of one region. -/
theorem newlySet_marks {count : Nat} (hmarks : MarksRange r r' start count)
    (hrange : ClearRange r start count) :
    newlySet (pre ++ r :: post) (pre ++ r' :: post) =
      {x | x.1 = pre.length ∧ start ≤ x.2 ∧ x.2 < start + count} := by
  have before : (pre ++ r :: post)[pre.length]? = some r := by simp
  have after : (pre ++ r' :: post)[pre.length]? = some r' := by simp
  have other {k : Nat} (hk : k ≠ pre.length) :
      (pre ++ r' :: post)[k]? = (pre ++ r :: post)[k]? := by
    rcases Nat.lt_or_gt_of_ne hk with lt | gt
    · rw [List.getElem?_append_left lt, List.getElem?_append_left lt]
    · obtain ⟨j, hj⟩ : ∃ j, k - pre.length = j + 1 := ⟨k - pre.length - 1, by omega⟩
      rw [List.getElem?_append_right (by omega), List.getElem?_append_right (by omega), hj,
        List.getElem?_cons_succ, List.getElem?_cons_succ]
  ext x
  constructor
  · rintro ⟨q, q', hq, hq', clear, set⟩
    by_cases hk : x.1 = pre.length
    · rw [hk, before] at hq
      rw [hk, after] at hq'
      obtain rfl := Option.some.inj hq
      obtain rfl := Option.some.inj hq'
      rw [hmarks.bits, clear, Bool.or_false, decide_eq_true_eq] at set
      exact ⟨hk, set⟩
    · rw [other hk, hq] at hq'
      obtain rfl := Option.some.inj hq'
      rw [clear] at set
      cases set
  · rintro ⟨hk, low, high⟩
    refine ⟨r, r', by rw [hk, before], by rw [hk, after], hrange.clear x.2 low high, ?_⟩
    rw [hmarks.bits, decide_eq_true ⟨low, high⟩, Bool.true_or]

/-- The multi-page call is clean exactly when it is tidy. -/
theorem pagesCall_clean_iff (hmade : ∀ r ∈ s.regions, r.shape.Made) (count : SizeT) :
    AllocClean s count.toNat (pmmAllocPagesZone s count zone) ↔ PagesCallTidy s count zone := by
  by_cases hguard : s.initialized = true ∧ count ≠ 0
  · obtain ⟨hinit, hpos⟩ := hguard
    have guard : ¬ (!s.initialized || count == 0) = true := by simpa [hinit] using hpos
    rw [pmmAllocPagesZone, if_neg guard]
    rcases allocPagesFrom_first hpos zone s.regions with
      ⟨hres, hnone⟩ | ⟨pre, r, post, start, hfirst, hres⟩
    · rw [hres]
      refine iff_of_true (allocClean_same s _) fun _ _ pre r post start hfirst => ?_
      have mem : r ∈ s.regions := by
        rw [hfirst.split]
        exact List.mem_append_cons_self
      exact absurd hfirst.range (hnone r mem hfirst.inZone start)
    · have mem : r ∈ s.regions := by
        rw [hfirst.split]
        exact List.mem_append_cons_self
      have marks := marksRange_takePages (hmade r mem).cover hfirst.range.fits
      rw [hres]
      constructor
      · intro clean _ _ pre' r' post' start' hfirst' hnull
        obtain ⟨rfl, rfl, rfl, rfl⟩ := hfirst.unique hfirst'
        have lists := (clean.failed hnull).trans hfirst.split
        obtain ⟨unmarked, -⟩ := List.cons.inj (List.append_cancel_left lists)
        exact marks.ne hfirst.range (toNat_pos hpos) unmarked
      · intro tidy
        have some_page := tidy hinit hpos pre r post start hfirst
        refine ⟨fun hnull => absurd hnull some_page,
          fun _ => ⟨pre.length, r, start, ?_, hfirst.range.fits, rfl, ?_⟩⟩
        · rw [hfirst.split]
          simp
        · rw [hfirst.split]
          exact newlySet_marks marks hfirst.range
  · have guard : (!s.initialized || count == 0) = true := by
      by_contra hne
      simp only [Bool.or_eq_true, Bool.not_eq_true', beq_iff_eq, not_or, Bool.not_eq_false] at hne
      exact hguard hne
    rw [pmmAllocPagesZone, if_pos guard]
    exact iff_of_true (allocClean_same s _) fun hinit hpos => absurd ⟨hinit, hpos⟩ hguard

end Pages

/-- In every state of every run, whatever regions were added, and for every zone and count: a failed
allocation changes nothing and a successful one sets its own pages only, exactly when both calls are
tidy. -/
theorem pmm_failure_iff (calls : List PmmCall) (count : SizeT) (zone : PmmZone) :
    AllocsClean (runFrom pmmStep pmmTraceStart calls).pmm count zone ↔
      PageCallTidy (runFrom pmmStep pmmTraceStart calls).pmm zone ∧
        PagesCallTidy (runFrom pmmStep pmmTraceStart calls).pmm count zone := by
  have made := shapes_run newRegion_made calls
  exact and_congr (pageCall_clean_iff made) (pagesCall_clean_iff made count)

/-- A region at address 0: the call takes its page and answers null. -/
theorem pmm_failure_not_clean :
    ¬ AllocsClean (runFrom pmmStep pmmTraceStart
        [.init, .addRegion 0 0x1000 .dma pmmHeapFull]).pmm 1 .dma := by
  rintro ⟨page, -⟩
  have same := page.failed (by decide)
  revert same
  decide

end Unics
