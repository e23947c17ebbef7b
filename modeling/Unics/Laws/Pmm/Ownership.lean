import Unics.Laws.Pmm.Calls
import Unics.Lib.Ledger
import Unics.Lib.Run

/-!
# Who owns a page

The page allocator, seen from outside: a run of calls, and a ledger of the allocations that are
live. Every call but the two single-page ones keeps ownership exclusive. A single-page call marks
the mirror image of the clear bit it found, so it hands out a page that was clear exactly when that
mirror image was clear too; from a word that is all clear it takes bit 0, and the next call takes
bit 0 again.

`single_owner_iff` is the exact condition over whole runs. The ledger's exclusiveness is carried by
`Ledger.Within`: what is owned is marked, so a page that was clear is no one's.
-/

namespace Unics

open Unics.Lib

/-! ## Calls and what they do to the ledger -/

/-- A call of the driver's interface, with what its environment answers. -/
inductive PmmCall where
  | init
  | addRegion (base : UIntPtr) (size : SizeT) (zone : PmmZone) (heap : PmmHeap)
  | reserveRange (start end_ : UIntPtr)
  | allocPage
  | allocPageZone (zone : PmmZone)
  | allocPages (count : SizeT)
  | allocPagesZone (count : SizeT) (zone : PmmZone)
  | freePage (addr : UIntPtr) (past : Nat → Bool)
  | freePages (addr : UIntPtr) (count : SizeT) (past : Nat → Bool)

/-- The addresses of `count` pages from `p` on. -/
def pagesFrom (p : UIntPtr) (count : SizeT) : List UIntPtr :=
  (List.range count.toNat).map fun i => p + BitVec.ofNat 32 i * pmmPageSize

/-- What the caller of a call sees: the state after it, the pages it was handed and the pages it
gave back. -/
structure PmmEffect where
  after : Pmm
  handedOut : List UIntPtr
  givenBack : List UIntPtr

/-- An allocation hands out `count` pages from its result, unless that is null. -/
def allocEffect (count : SizeT) (res : Pmm × UIntPtr) : PmmEffect :=
  { after := res.1, handedOut := if res.2 = null then [] else pagesFrom res.2 count
    givenBack := [] }

/-- A free gives back `count` pages from its argument, if it returns 0. -/
def freeEffect (addr : UIntPtr) (count : SizeT) (res : Pmm × Int) : PmmEffect :=
  { after := res.1, handedOut := [], givenBack := if res.2 = 0 then pagesFrom addr count else [] }

/-- A call that neither hands out nor takes back. -/
def plainEffect (res : Pmm × Int) : PmmEffect :=
  { after := res.1, handedOut := [], givenBack := [] }

/-- The effect of each call. -/
def PmmCall.effect (s : Pmm) : PmmCall → PmmEffect
  | .init => plainEffect (pmmInit s)
  | .addRegion base size zone heap => plainEffect (pmmAddRegion s base size zone heap)
  | .reserveRange start end_ => plainEffect (pmmReserveRange s start end_)
  | .allocPage => allocEffect 1 (pmmAllocPage s)
  | .allocPageZone zone => allocEffect 1 (pmmAllocPageZone s zone)
  | .allocPages count => allocEffect count (pmmAllocPages s count)
  | .allocPagesZone count zone => allocEffect count (pmmAllocPagesZone s count zone)
  | .freePage addr past => freeEffect addr 1 (pmmFreePage s addr past)
  | .freePages addr count past => freeEffect addr count (pmmFreePages s addr count past)

/-- The range of a `pmm_add_region` call that returned 0. -/
def PmmCall.added (s : Pmm) : PmmCall → List (UIntPtr × SizeT)
  | .addRegion base size zone heap =>
    if (pmmAddRegion s base size zone heap).2 = 0 then [(base, size)] else []
  | _ => []

/-- A run so far: the driver, the live allocations and the ranges added. -/
structure PmmTrace where
  pmm : Pmm
  live : Ledger UIntPtr
  ranges : List (UIntPtr × SizeT)

/-- The start of every run. -/
def pmmTraceStart : PmmTrace := { pmm := pmmStart, live := [], ranges := [] }

/-- One call of a run. -/
def pmmStep (t : PmmTrace) (c : PmmCall) : PmmTrace :=
  let e := c.effect t.pmm
  { pmm := e.after
    live := Ledger.release e.givenBack (Ledger.take e.handedOut t.live)
    ranges := c.added t.pmm ++ t.ranges }

/-! ## Properties of a step -/

/-- The address lies in the range. -/
def InRange (range : UIntPtr × SizeT) (x : Nat) : Prop :=
  range.1.toNat ≤ x ∧ x < range.1.toNat + range.2.toNat

/-- The regions a run may add: not at address 0, not wrapping, disjoint from the ones added. -/
def AddsDisjoint (t : PmmTrace) : PmmCall → Prop
  | .addRegion base size _ _ => base ≠ 0 ∧ base.toNat + size.toNat ≤ 2 ^ 32 ∧
      ∀ range ∈ t.ranges, ∀ x, InRange range x → ¬ InRange (base, size) x
  | _ => True

/-- The range added reaches a page boundary. -/
def AddsReachPage (_ : PmmTrace) : PmmCall → Prop
  | .addRegion base size _ _ => ReachesPage base size
  | _ => True

/-- Every page handed out was clear before the call and is set after it, and no page belongs to two
live allocations. -/
def SingleOwner (t : PmmTrace) (c : PmmCall) : Prop :=
  (∀ p ∈ (c.effect t.pmm).handedOut,
    PageBit t.pmm.regions p false ∧ PageBit (pmmStep t c).pmm.regions p true) ∧
  Ledger.Exclusive (pmmStep t c).live

/-- The mirror image of the highest clear bit of the word at which the search for a page stops. -/
def mirrorBit (s : Pmm) (zone : PmmZone) : Bool :=
  match pageStop s.regions zone with
  | some (r, w) => (bitmapWord r.bitmap w).getLsbD (63 - highestClear (bitmapWord r.bitmap w))
  | none => false

/-- Where the search for a page of the zone stops, the mirror image of the highest clear bit is
clear. -/
def MirrorClear (s : Pmm) (zone : PmmZone) : Prop := mirrorBit s zone = false

/-- The condition on a single-page call. -/
def StopsAtMirror (t : PmmTrace) : PmmCall → Prop
  | .allocPage => MirrorClear t.pmm .normal
  | .allocPageZone zone => MirrorClear t.pmm zone
  | _ => True

/-! ## Laws of the calls -/

/-- What every call but `pmm_add_region` does: it keeps the layout, clears the bits of no pages but
those given back, and sets the bits of those handed out. -/
structure PmmLaw (s : Pmm) (e : PmmEffect) : Prop where
  layout : layout e.after.regions = layout s.regions
  uninitialized : e.after.initialized = false → s.initialized = false
  keeps : ∀ p, PageBit s.regions p true → p ∉ e.givenBack → PageBit e.after.regions p true
  marks : ∀ p ∈ e.handedOut, PageBit e.after.regions p true

theorem mem_pagesFrom {p q : UIntPtr} {count : SizeT} :
    q ∈ pagesFrom p count ↔ ∃ i < count.toNat, p + BitVec.ofNat 32 i * pmmPageSize = q := by
  simp [pagesFrom]

@[simp] theorem pagesFrom_one (p : UIntPtr) : pagesFrom p 1 = [p] := by
  simp [pagesFrom]

/-- A call that only marks and hands out nothing. -/
theorem PmmLaw.of_onlyMarks {s : Pmm} {res : Pmm × Int}
    (hinit : res.1.initialized = false → s.initialized = false)
    (h : OnlyMarks s.regions res.1.regions) : PmmLaw s (plainEffect res) :=
  ⟨h.layout, hinit, fun p hp _ => h.keeps p hp, fun _ hp => absurd hp List.not_mem_nil⟩

theorem pmmInit_law {s : Pmm} (hregions : s.initialized = false → s.regions = []) :
    PmmLaw s (plainEffect (pmmInit s)) := by
  unfold pmmInit
  split
  · exact .of_onlyMarks id (.refl _)
  · next hinit =>
    have hinit' : s.initialized = false := by simpa using hinit
    exact .of_onlyMarks (fun _ => hinit') (by rw [hregions hinit']; exact .refl [])

theorem pmmReserveRange_law {s : Pmm} (hwf : ∀ r ∈ s.regions, r.shape.Wf) (start end_ : UIntPtr) :
    PmmLaw s (plainEffect (pmmReserveRange s start end_)) := by
  unfold pmmReserveRange
  split
  · exact .of_onlyMarks id (.refl _)
  · exact .of_onlyMarks id (reserveLoop_onlyMarks _ _ _ hwf)

/-- An allocation that fails changes nothing. -/
theorem PmmLaw.alloc_null (s : Pmm) (count : SizeT) : PmmLaw s (allocEffect count (s, null)) :=
  ⟨rfl, id, fun _ hp _ => hp, fun _ hp => absurd hp List.not_mem_nil⟩

theorem pmmAllocPageZone_uninitialized {s : Pmm} (h : s.initialized = false) (zone : PmmZone) :
    pmmAllocPageZone s zone = (s, null) := by
  simp [pmmAllocPageZone, h]

theorem pmmAllocPageZone_law {s : Pmm} (hwf : ∀ r ∈ s.regions, r.shape.Wf) (zone : PmmZone) :
    PmmLaw s (allocEffect 1 (pmmAllocPageZone s zone)) := by
  by_cases hinit : s.initialized = true
  · have spec := pmmAllocPageZone_spec hinit hwf zone
    cases hstop : pageStop s.regions zone with
    | none =>
      rw [hstop] at spec
      rw [spec]
      exact .alloc_null s 1
    | some stop =>
      obtain ⟨r, w⟩ := stop
      rw [hstop] at spec
      obtain ⟨pre, post, heq, hres⟩ := spec
      have wf := hwf r (pageStop_eq_some hstop).1
      have hi := PmmRegion.mirrorPage_lt (pageStop_eq_some hstop).2
      rw [hres]
      refine ⟨by simp [allocEffect, heq], id, fun p hp _ => ?_, fun p hp => ?_⟩
      · rw [heq] at hp
        exact (OnlyMarks.replace (by simp) fun q => r.takePage_keeps wf hi).keeps p hp
      · have page : r.pageAddr (r.mirrorPage w) ≠ null := wf.pageAddr_ne_null hi
        simp only [allocEffect, if_neg page, pagesFrom_one, List.mem_singleton] at hp
        subst hp
        exact .of_region (r.takePage_self wf hi)
  · rw [pmmAllocPageZone_uninitialized (Bool.not_eq_true _ ▸ hinit)]
    exact .alloc_null s 1

/-- The page a single-page call hands out was clear exactly when the mirror image was. -/
theorem pmmAllocPageZone_clear_iff {s : Pmm} (hinit : s.initialized = false → s.regions = [])
    (hwf : LayoutWf (layout s.regions)) (zone : PmmZone) :
    (∀ p ∈ (allocEffect 1 (pmmAllocPageZone s zone)).handedOut, PageBit s.regions p false) ↔
      MirrorClear s zone := by
  by_cases hi : s.initialized = true
  · have wf : ∀ r ∈ s.regions, r.shape.Wf := fun _ h => hwf.of_mem h
    have spec := pmmAllocPageZone_spec hi wf zone
    unfold MirrorClear mirrorBit
    cases hstop : pageStop s.regions zone with
    | none =>
      rw [hstop] at spec
      simp [spec, allocEffect]
    | some stop =>
      obtain ⟨r, w⟩ := stop
      rw [hstop] at spec
      obtain ⟨pre, post, heq, hres⟩ := spec
      have hlt := PmmRegion.mirrorPage_lt (pageStop_eq_some hstop).2
      have page : r.pageAddr (r.mirrorPage w) ≠ null :=
        (wf r (pageStop_eq_some hstop).1).pageAddr_ne_null hlt
      have bit : PageBit s.regions (r.pageAddr (r.mirrorPage w))
          ((bitmapWord r.bitmap w).getLsbD (63 - highestClear (bitmapWord r.bitmap w))) :=
        ⟨r, (pageStop_eq_some hstop).1, _, hlt, rfl, testBit64_mirrorPage r w⟩
      have handed : (allocEffect 1 (pmmAllocPageZone s zone)).handedOut =
          [r.pageAddr (r.mirrorPage w)] := by
        simp only [hres, allocEffect, if_neg page, pagesFrom_one]
      rw [handed]
      constructor
      · intro h
        exact bit.unique hwf (h _ List.mem_cons_self)
      · intro h p hp
        obtain rfl := List.mem_singleton.mp hp
        exact h ▸ bit
  · have hf : s.initialized = false := by simpa using hi
    have nostop : pageStop s.regions zone = none := by rw [hinit hf]; rfl
    simp [pmmAllocPageZone_uninitialized hf, allocEffect, MirrorClear, mirrorBit, nostop]

/-- What a call hands out that answers a page of a region: that page and the ones behind it. -/
theorem mem_handedOut_pageAddr {s : Pmm} {r : PmmRegion} {start : Nat} {count : SizeT} {p : UIntPtr}
    (hp : p ∈ (allocEffect count (s, r.pageAddr start)).handedOut) :
    ∃ j, start ≤ j ∧ j < start + count.toNat ∧ r.pageAddr j = p := by
  rw [allocEffect] at hp
  dsimp only at hp
  split at hp
  · cases hp
  · obtain ⟨i, hi, rfl⟩ := mem_pagesFrom.mp hp
    exact ⟨start + i, by omega, by omega, (pageAddr_add r start i).symm⟩

/-- The multi-page call keeps the law, and the pages it hands out were clear. -/
theorem pmmAllocPagesZone_law {s : Pmm} (hwf : ∀ r ∈ s.regions, r.shape.Wf) (count : SizeT)
    (zone : PmmZone) :
    PmmLaw s (allocEffect count (pmmAllocPagesZone s count zone)) ∧
      ∀ p ∈ (allocEffect count (pmmAllocPagesZone s count zone)).handedOut,
        PageBit s.regions p false := by
  rcases pmmAllocPagesZone_spec s count zone with
    h | ⟨pre, r, post, start, heq, -, -, hfit, hclear, h⟩
  · rw [h]
    exact ⟨.alloc_null s count, fun _ hp => absurd hp List.not_mem_nil⟩
  have wf : r.shape.Wf := hwf r (by simp [heq])
  rw [h]
  refine ⟨⟨?_, id, fun p hp _ => ?_, fun p hp => ?_⟩, fun p hp => ?_⟩
  · simp [allocEffect, heq]
  · rw [heq] at hp
    exact (OnlyMarks.replace (by simp) fun q => r.takePages_keeps wf hfit).keeps p hp
  · obtain ⟨j, hj, hlt, rfl⟩ := mem_handedOut_pageAddr hp
    exact .of_region (r.takePages_self wf hfit hj hlt)
  · obtain ⟨j, hj, hlt, rfl⟩ := mem_handedOut_pageAddr hp
    rw [heq]
    exact PageBit.of_region ⟨j, by omega, rfl, hclear j hj hlt⟩

theorem pmmFreePages_law {s : Pmm} (hwf : ∀ r ∈ s.regions, r.shape.Wf) (addr : UIntPtr)
    (count : SizeT) (past : Nat → Bool) :
    PmmLaw s (freeEffect addr count (pmmFreePages s addr count past)) := by
  rcases pmmFreePages_spec s addr count past with h | ⟨pre, r, post, heq, hr, haligned, h⟩
  · rw [h]
    exact ⟨rfl, id, fun _ hp _ => hp, fun _ hp => absurd hp List.not_mem_nil⟩
  · rw [h]
    have at_ := PmmRegion.base_add_pageIdx (hwf r (by simp [heq])) hr haligned
    refine ⟨by simp [freeEffect, heq], id, fun p hp hback => ?_,
      fun _ hp => absurd hp List.not_mem_nil⟩
    rw [heq, pageBit_append, pageBit_cons] at hp
    show PageBit (pre ++ r.givePages (r.pageIdx addr) count :: post) p true
    rw [pageBit_append, pageBit_cons]
    refine hp.imp id (Or.imp (fun hp => r.givePages_keeps hp fun i hi hpage => hback ?_) id)
    simp only [freeEffect, if_true, mem_pagesFrom]
    exact ⟨i, hi, by rw [← hpage, BitVec.add_mul, ← BitVec.add_assoc, at_]⟩

/-! ## The invariant of a run -/

/-- What a run keeps as long as its single-page calls stop at clear mirror images. -/
structure PmmSafe (t : PmmTrace) : Prop where
  wf : LayoutWf (layout t.pmm.regions)
  uninitialized : t.pmm.initialized = false → t.pmm.regions = []
  ranges : ∀ r ∈ t.pmm.regions, ∃ range ∈ t.ranges, ∀ p, r.shape.HasPage p → InRange range p.toNat
  within : Ledger.Within (fun p => PageBit t.pmm.regions p true) t.live
  exclusive : Ledger.Exclusive t.live

theorem PmmSafe.regions_wf {t : PmmTrace} (h : PmmSafe t) : ∀ r ∈ t.pmm.regions, r.shape.Wf :=
  fun _ hr => h.wf.of_mem hr

theorem pmmSafe_start : PmmSafe pmmTraceStart where
  wf := ⟨by simp [pmmTraceStart, pmmStart, layout], by simp [pmmTraceStart, pmmStart, layout]⟩
  uninitialized _ := rfl
  ranges := by simp [pmmTraceStart, pmmStart]
  within := by simp [Ledger.Within, pmmTraceStart]
  exclusive := by simp [Ledger.Exclusive, pmmTraceStart]

/-- The law of every call that is not `pmm_add_region`. -/
theorem PmmCall.law {s : Pmm} (hregions : s.initialized = false → s.regions = [])
    (hwf : ∀ r ∈ s.regions, r.shape.Wf) :
    ∀ c : PmmCall, (∀ base size zone heap, c ≠ .addRegion base size zone heap) →
      PmmLaw s (c.effect s)
  | .init, _ => pmmInit_law hregions
  | .addRegion base size zone heap, h => absurd rfl (h base size zone heap)
  | .reserveRange start end_, _ => pmmReserveRange_law hwf start end_
  | .allocPage, _ => pmmAllocPageZone_law hwf .normal
  | .allocPageZone zone, _ => pmmAllocPageZone_law hwf zone
  | .allocPages count, _ => (pmmAllocPagesZone_law hwf count .normal).1
  | .allocPagesZone count zone, _ => (pmmAllocPagesZone_law hwf count zone).1
  | .freePage addr past, _ => pmmFreePages_law hwf addr 1 past
  | .freePages addr count past, _ => pmmFreePages_law hwf addr count past

/-- The pages a call hands out were clear exactly when it meets the condition. -/
theorem PmmSafe.clear_iff {t : PmmTrace} (h : PmmSafe t) :
    ∀ c : PmmCall,
      (∀ p ∈ (c.effect t.pmm).handedOut, PageBit t.pmm.regions p false) ↔ StopsAtMirror t c
  | .allocPage => pmmAllocPageZone_clear_iff h.uninitialized h.wf .normal
  | .allocPageZone zone => pmmAllocPageZone_clear_iff h.uninitialized h.wf zone
  | .allocPages count => iff_true_intro (pmmAllocPagesZone_law h.regions_wf count .normal).2
  | .allocPagesZone count zone => iff_true_intro (pmmAllocPagesZone_law h.regions_wf count zone).2
  | .init | .addRegion .. | .reserveRange .. | .freePage .. | .freePages .. =>
    iff_true_intro fun _ hp => absurd hp List.not_mem_nil

/-- A call with the law keeps the invariant when the pages it hands out were clear. -/
theorem PmmSafe.of_law {t : PmmTrace} (h : PmmSafe t) {c : PmmCall}
    (law : PmmLaw t.pmm (c.effect t.pmm)) (hadded : c.added t.pmm = [])
    (hclear : ∀ p ∈ (c.effect t.pmm).handedOut, PageBit t.pmm.regions p false) :
    PmmSafe (pmmStep t c) := by
  have unowned : ∀ p ∈ (c.effect t.pmm).handedOut, ¬ PageBit t.pmm.regions p true :=
    fun p hp hset => Bool.noConfusion ((hclear p hp).unique h.wf hset)
  have taken : Ledger.Within
      (fun p => PageBit t.pmm.regions p true ∨ p ∈ (c.effect t.pmm).handedOut)
      (Ledger.take (c.effect t.pmm).handedOut t.live) :=
    h.within.take (fun _ hp => .inl hp) fun _ hp => .inr hp
  refine ⟨?_, ?_, ?_, ?_, ?_⟩
  · show LayoutWf (layout (c.effect t.pmm).after.regions)
    rw [law.layout]
    exact h.wf
  · intro hinit
    have := law.layout
    rw [h.uninitialized (law.uninitialized hinit)] at this
    exact List.map_eq_nil_iff.mp this
  · intro r hr
    have mem : r.shape ∈ layout (c.effect t.pmm).after.regions := List.mem_map_of_mem hr
    rw [law.layout] at mem
    obtain ⟨q, hq, heq⟩ := List.mem_map.mp mem
    show ∃ range ∈ c.added t.pmm ++ t.ranges, _
    rw [hadded, List.nil_append, ← heq]
    exact h.ranges q hq
  · exact taken.release fun p hp hback => hp.elim (fun hp => law.keeps p hp hback) (law.marks p)
  · exact (h.exclusive.take h.within unowned).release

/-- Adding a region of a disjoint range that reaches a page boundary keeps the invariant. -/
theorem PmmSafe.addRegion {t : PmmTrace} (h : PmmSafe t) {base : UIntPtr} {size : SizeT}
    {zone : PmmZone} {heap : PmmHeap} (hadd : AddsDisjoint t (.addRegion base size zone heap))
    (hreach : ReachesPage base size) : PmmSafe (pmmStep t (.addRegion base size zone heap)) := by
  obtain ⟨hbase, hfits, hdisjoint⟩ := hadd
  rcases pmmAddRegion_spec t.pmm base size zone heap with hres | ⟨hpages, hres⟩
  · refine h.of_law ?_ ?_ fun _ hp => absurd hp List.not_mem_nil
    · show PmmLaw t.pmm (plainEffect (pmmAddRegion t.pmm base size zone heap))
      rw [hres]
      exact .of_onlyMarks id (.refl _)
    · simp [PmmCall.added, hres]
  · have wf := newRegion_wf zone hbase hfits hreach hpages
    have contained : ∀ p, (newRegion base size zone).shape.HasPage p →
        InRange (base, size) p.toNat := fun p => newRegion_contained zone hbase hfits hreach hpages
    have regions : (pmmStep t (.addRegion base size zone heap)).pmm.regions =
        newRegion base size zone :: t.pmm.regions := by
      simp [pmmStep, PmmCall.effect, plainEffect, hres]
    have ranges :
        (pmmStep t (.addRegion base size zone heap)).ranges = (base, size) :: t.ranges := by
      simp [pmmStep, PmmCall.added, hres]
    have live : (pmmStep t (.addRegion base size zone heap)).live = [] :: t.live := by
      simp [pmmStep, PmmCall.effect, plainEffect, Ledger.take]
    refine ⟨?_, ?_, ?_, ?_, ?_⟩
    · rw [regions]
      refine ⟨fun q hq => ?_, List.Pairwise.cons (fun q hq p hp hp' => ?_) h.wf.disjoint⟩
      · rcases List.mem_cons.mp hq with rfl | hq
        · exact wf
        · exact h.wf.wf q hq
      · obtain ⟨r, hr, rfl⟩ := List.mem_map.mp hq
        obtain ⟨range, hrange, hin⟩ := h.ranges r hr
        exact hdisjoint range hrange p.toNat (hin p hp') (contained p hp)
    · intro hinit
      have : t.pmm.initialized = false := by
        simpa [pmmStep, PmmCall.effect, plainEffect, hres] using hinit
      have failed : pmmAddRegion t.pmm base size zone heap = (t.pmm, -1) := by
        simp [pmmAddRegion, this]
      rw [failed] at hres
      have code : (-1 : Int) = 0 := congrArg Prod.snd hres
      exact absurd code (by decide)
    · rw [regions, ranges]
      intro r hr
      rcases List.mem_cons.mp hr with rfl | hr
      · exact ⟨_, List.mem_cons_self, contained⟩
      · obtain ⟨range, hrange, hin⟩ := h.ranges r hr
        exact ⟨range, List.mem_cons_of_mem _ hrange, hin⟩
    · rw [regions, live]
      exact h.within.take (fun p hp => pageBit_cons.mpr (.inr hp))
        fun p hp => absurd hp List.not_mem_nil
    · rw [live]
      exact h.exclusive.take h.within fun p hp => absurd hp List.not_mem_nil

/-- One call of a run that adds proper regions and stops its searches at clear mirror images. -/
theorem PmmSafe.step {t : PmmTrace} (h : PmmSafe t) (c : PmmCall) (hdom : AddsDisjoint t c)
    (hreach : AddsReachPage t c) (hstop : StopsAtMirror t c) : PmmSafe (pmmStep t c) := by
  cases c with
  | addRegion base size zone heap => exact h.addRegion hdom hreach
  | _ =>
    refine h.of_law (PmmCall.law h.uninitialized h.regions_wf _ ?_) rfl ((h.clear_iff _).mpr hstop)
    intros
    exact PmmCall.noConfusion

/-- Under the invariant, a call keeps ownership exclusive exactly when it meets the condition. -/
theorem PmmSafe.singleOwner_iff {t : PmmTrace} (h : PmmSafe t) (c : PmmCall)
    (hdom : AddsDisjoint t c) (hreach : AddsReachPage t c) :
    SingleOwner t c ↔ StopsAtMirror t c := by
  constructor
  · intro hown
    exact (h.clear_iff c).mp fun p hp => (hown.1 p hp).1
  · intro hstop
    refine ⟨fun p hp => ⟨(h.clear_iff c).mpr hstop p hp, ?_⟩,
      (h.step c hdom hreach hstop).exclusive⟩
    cases c with
    | addRegion => exact absurd hp List.not_mem_nil
    | _ =>
      refine (PmmCall.law h.uninitialized h.regions_wf _ ?_).marks p hp
      intros
      exact PmmCall.noConfusion

/-! ## Runs -/

/-- In every run that adds disjoint regions, each reaching a page boundary, every page handed out
was clear before the call and is set after it, and no two live allocations share a page, exactly
when every single-page call stops at a word in which the mirror image of the highest clear bit is
clear. -/
theorem single_owner_iff {calls : List PmmCall}
    (hdom : EveryStep pmmStep AddsDisjoint pmmTraceStart calls)
    (hreach : EveryStep pmmStep AddsReachPage pmmTraceStart calls) :
    EveryStep pmmStep SingleOwner pmmTraceStart calls ↔
      EveryStep pmmStep StopsAtMirror pmmTraceStart calls := by
  have domain := everyStep_and.mpr ⟨hdom, hreach⟩
  exact everyStep_iff_within (I := PmmSafe) (fun _ c h hd hc => h.step c hd.1 hd.2 hc)
    (fun _ c h hd => h.singleOwner_iff c hd.1 hd.2) pmmSafe_start domain

/-- A heap that does not run out. -/
def pmmHeapFull : PmmHeap := { malloc := true, calloc := true }

/-- The condition is met by a run that takes one page at a time and gives it back. -/
theorem single_owner_one_page :
    EveryStep pmmStep SingleOwner pmmTraceStart
      [.init, .addRegion 0x100000 0x10000 .normal pmmHeapFull, .allocPage,
        .freePage 0x100000 (fun _ => false), .allocPage] :=
  (single_owner_iff (by simp [AddsDisjoint, pmmTraceStart, pmmStep, PmmCall.added])
    (by simp [AddsReachPage, ReachesPage]; decide)).mpr
    (by
      simp only [everyStep_cons, StopsAtMirror, MirrorClear, everyStep_nil, and_true, true_and]
      decide)

/-- Two single-page calls in a row are handed the same page. -/
theorem single_owner_fails :
    EveryStep pmmStep AddsDisjoint pmmTraceStart
        [.init, .addRegion 0x100000 0x10000 .normal pmmHeapFull, .allocPage, .allocPage] ∧
      ¬ EveryStep pmmStep SingleOwner pmmTraceStart
        [.init, .addRegion 0x100000 0x10000 .normal pmmHeapFull, .allocPage, .allocPage] := by
  refine ⟨by simp [AddsDisjoint, pmmTraceStart, pmmStep, PmmCall.added], ?_⟩
  intro h
  have last : Ledger.Exclusive (runFrom pmmStep pmmTraceStart
      [.init, .addRegion 0x100000 0x10000 .normal pmmHeapFull, .allocPage, .allocPage]).live :=
    h.2.2.2.1.2
  have live : (runFrom pmmStep pmmTraceStart
      [.init, .addRegion 0x100000 0x10000 .normal pmmHeapFull, .allocPage, .allocPage]).live =
      [[0x100000], [0x100000], [], []] := by decide
  rw [live] at last
  simp [Ledger.Exclusive] at last

end Unics
