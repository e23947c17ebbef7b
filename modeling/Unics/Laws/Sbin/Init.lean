import Unics.Laws.Pmm.Fresh
import Unics.Laws.Vmm.Calls
import Unics.Sbin.Boot

/-!
# Frames after the boot

`main` brings up two allocators over the same memory: the page table of the VMM and the region of
the PMM both begin at 1 MiB, where the kernel image is, and the range that `main` reserves ends
there. So each of them, asked first, hands out frames of the kernel.

`frames_disjoint_iff` is the exact condition over whole runs. A PMM allocation that can succeed
hands out the first frame of the kernel, so a good run has none, and the PMM stays as `main` left
it. A VMM allocation is a first fit, so it is good exactly when its block fits nowhere below the end
of the kernel.
-/

namespace Unics

open Unics.Lib

/-! ## Runs of both managers -/

/-- The call allocates or frees. -/
def PmmCall.MovesPages : PmmCall → Bool
  | .init | .addRegion .. | .reserveRange .. => false
  | _ => true

/-- A call after the initialisation. -/
inductive MemCall where
  | vmm (c : VmmCall)
  | pmm (c : PmmCall) (moves : c.MovesPages = true)

/-- What a call does: the managers after it, unless an assertion stopped the machine, and the frames
that each of them handed out and got back. -/
structure MemEffect where
  after : Option Mem
  vmmOut : List UIntPtr
  vmmBack : List UIntPtr
  pmmOut : List UIntPtr
  pmmBack : List UIntPtr

/-- A call on a machine that has stopped. -/
def MemEffect.stopped : MemEffect :=
  { after := none, vmmOut := [], vmmBack := [], pmmOut := [], pmmBack := [] }

/-- The effect of each call. -/
def MemCall.effect (m : Mem) : MemCall → MemEffect
  | .vmm c =>
    let e := c.effect m.vmm
    { after := e.after.map fun vmm => { m with vmm := vmm }
      vmmOut := e.handedOut, vmmBack := e.givenBack, pmmOut := [], pmmBack := [] }
  | .pmm c _ =>
    let e := c.effect m.pmm
    { after := some { m with pmm := e.after }
      vmmOut := [], vmmBack := [], pmmOut := e.handedOut, pmmBack := e.givenBack }

/-- A run so far: the managers, unless an assertion has stopped the machine, and the live blocks of
each. -/
structure MemTrace where
  mem : Option Mem
  vmmLive : Ledger UIntPtr
  pmmLive : Ledger UIntPtr

/-- The start of every run: what `main` leaves. -/
def memTraceStart (heap : PmmHeap) : MemTrace :=
  { mem := some (mainInitMem heap), vmmLive := [], pmmLive := [] }

/-- The effect of a call in a run. -/
def MemTrace.effect (t : MemTrace) (c : MemCall) : MemEffect :=
  match t.mem with
  | some m => c.effect m
  | none => .stopped

/-- One call of a run. -/
def memStep (t : MemTrace) (c : MemCall) : MemTrace :=
  let e := t.effect c
  { mem := e.after
    vmmLive := Ledger.release e.vmmBack (Ledger.take e.vmmOut t.vmmLive)
    pmmLive := Ledger.release e.pmmBack (Ledger.take e.pmmOut t.pmmLive) }

/-! ## The property and its condition -/

/-- The frame is one of the kernel image, which ends at `kernelEnd`. -/
def InKernel (kernelEnd p : UIntPtr) : Prop := kernelStart ≤ p ∧ p < kernelEnd

/-- After the call no frame is in a live block of each manager, and the call handed out no frame of
the kernel. -/
def FramesDisjoint (kernelEnd : UIntPtr) (t : MemTrace) (c : MemCall) : Prop :=
  (∀ b ∈ (memStep t c).vmmLive, ∀ b' ∈ (memStep t c).pmmLive, b.Disjoint b') ∧
  ∀ p ∈ (t.effect c).vmmOut ++ (t.effect c).pmmOut, ¬ InKernel kernelEnd p

/-- A PMM call that cannot be given a page: no region has as many as it asks for. -/
def PmmCall.Starves (regions : List PmmRegion) : PmmCall → Prop
  | .allocPage => regions = []
  | .allocPageZone _ => regions = []
  | .allocPages count => NoRoom regions count .normal
  | .allocPagesZone count zone => NoRoom regions count zone
  | _ => True

/-- The condition on a call: a VMM call asks for a block that fits nowhere in the kernel, and a PMM
call asks for more than there is. -/
def MemCall.Spares (kernelEnd : UIntPtr) (m : Mem) : MemCall → Prop
  | .vmm c => c.FitsOnlyAbove kernelEnd m.vmm.pageTable
  | .pmm c _ => c.Starves m.pmm.regions

/-- The condition in a run. -/
def SparesKernel (kernelEnd : UIntPtr) (t : MemTrace) (c : MemCall) : Prop :=
  ∀ m, t.mem = some m → c.Spares kernelEnd m

/-! ## What `main` leaves -/

/-- The region that `main` adds. -/
def mainRegion : PmmRegion := newRegion 0x00100000 0x07F00000 .normal

theorem mainRegion_base : mainRegion.base = kernelStart := by decide

theorem mainRegion_fresh : mainRegion.Fresh :=
  newRegion_fresh (by decide) (by decide) (by unfold ReachesPage; decide) (by decide)

/-- The PMM after `main`: one fresh region, or none if the heap ran out. -/
def mainPmm (heap : PmmHeap) : Pmm :=
  { regions := if heap.malloc && heap.calloc then [mainRegion] else [], initialized := true }

theorem mainPmm_fresh {heap : PmmHeap} : ∀ r ∈ (mainPmm heap).regions, r = mainRegion := by
  intro r hr
  unfold mainPmm at hr
  dsimp only at hr
  split at hr
  · exact List.mem_singleton.mp hr
  · cases hr

/-- The range that `main` reserves ends where its region begins, so it reserves nothing. -/
theorem mainInitMem_pmm (heap : PmmHeap) : (mainInitMem heap).pmm = mainPmm heap := by
  have added : (pmmAddRegion { regions := [], initialized := true } 0x00100000 0x07F00000 .normal
      heap).1 = mainPmm heap := by
    obtain ⟨malloc, calloc⟩ := heap
    cases malloc <;> cases calloc <;> rfl
  have below : ∀ r ∈ (mainPmm heap).regions, pmmPageAlignUp 0x00100000 ≤ r.base := by
    intro r hr
    rw [mainPmm_fresh r hr]
    decide
  have start : (pmmInit pmmStart).1 = { regions := [], initialized := true } := rfl
  unfold mainInitMem
  dsimp only
  rw [start, added, pmmReserveRange_of_below below]

theorem mainInitMem_vmm (heap : PmmHeap) : VmmReady (mainInitMem heap).vmm :=
  ⟨rfl, vmmPaged_initial⟩

/-! ## The PMM hands out nothing, or the kernel -/

/-- A call that changes nothing and hands out nothing, or one that hands out the first frame of the
kernel. -/
inductive MainPmmCase (heap : PmmHeap) (e : PmmEffect) (starves : Prop) : Prop
  | idle (starves : starves) (after : e.after = mainPmm heap) (out : e.handedOut = [])
      (back : e.givenBack = [])
  | kernel (room : ¬ starves) (out : kernelStart ∈ e.handedOut)

/-- An allocation that fails. -/
theorem MainPmmCase.of_null {heap : PmmHeap} {starves : Prop} (h : starves) (count : SizeT) :
    MainPmmCase heap (allocEffect count (mainPmm heap, null)) starves :=
  .idle h rfl rfl rfl

/-- An allocation that returns the first page of the region. -/
theorem MainPmmCase.of_base {heap : PmmHeap} {starves : Prop} (h : ¬ starves) {count : SizeT}
    (hpos : count ≠ 0) {res : Pmm × UIntPtr} (hres : res.2 = mainRegion.base) :
    MainPmmCase heap (allocEffect count res) starves := by
  have page : res.2 = kernelStart := hres.trans mainRegion_base
  have pos := toNat_pos hpos
  refine .kernel h ?_
  rw [allocEffect, page]
  exact mem_pagesFrom.mpr ⟨0, pos, by decide⟩

theorem mainPmm_allocPageZone (heap : PmmHeap) (zone : PmmZone) :
    MainPmmCase heap (allocEffect 1 (pmmAllocPageZone (mainPmm heap) zone))
      ((mainPmm heap).regions = []) := by
  by_cases hheap : (heap.malloc && heap.calloc) = true
  · have main : mainPmm heap = { regions := [mainRegion], initialized := true } := by
      rw [mainPmm, if_pos hheap]
    rw [main]
    exact .of_base (List.cons_ne_nil _ _) (by decide) (mainRegion_fresh.allocPageZone zone)
  · have main : mainPmm heap = { regions := [], initialized := true } := by
      rw [mainPmm, if_neg hheap]
    have failed : pmmAllocPageZone (mainPmm heap) zone = (mainPmm heap, null) := by
      rw [main]
      rfl
    rw [failed]
    exact .of_null (by rw [main]) 1

theorem mainPmm_allocPagesZone (heap : PmmHeap) (count : SizeT) (zone : PmmZone) :
    MainPmmCase heap (allocEffect count (pmmAllocPagesZone (mainPmm heap) count zone))
      (NoRoom (mainPmm heap).regions count zone) := by
  by_cases hroom : NoRoom (mainPmm heap).regions count zone
  · rw [pmmAllocPagesZone_of_noRoom hroom]
    exact .of_null hroom count
  · -- only a region of the zone has room
    have room := hroom
    unfold NoRoom at room
    push Not at room
    obtain ⟨r, hr, hz, hpos, hle⟩ := room
    obtain rfl := mainPmm_fresh r hr
    obtain rfl : mainRegion.zone = zone := hz
    have main : mainPmm heap = { regions := [mainRegion], initialized := true } := by
      unfold mainPmm at hr ⊢
      dsimp only at hr
      split at hr
      · next hheap => rw [if_pos hheap]
      · cases hr
    have first := mainRegion_fresh.allocPagesZone hpos (BitVec.not_lt.mp hle)
    rw [← main] at first
    exact .of_base hroom hpos first

theorem mainPmm_free (heap : PmmHeap) (addr : UIntPtr) (count : SizeT) (past : Nat → Bool) :
    MainPmmCase heap (freeEffect addr count (pmmFreePages (mainPmm heap) addr count past))
      True := by
  have fresh : ∀ r ∈ (mainPmm heap).regions, r.Fresh :=
    fun r hr => mainPmm_fresh r hr ▸ mainRegion_fresh
  rw [pmmFreePages_of_fresh fresh]
  exact .idle trivial rfl rfl rfl

theorem mainPmm_case (heap : PmmHeap) :
    ∀ c : PmmCall, c.MovesPages = true →
      MainPmmCase heap (c.effect (mainPmm heap)) (c.Starves (mainPmm heap).regions)
  | .allocPage, _ => mainPmm_allocPageZone heap .normal
  | .allocPageZone zone, _ => mainPmm_allocPageZone heap zone
  | .allocPages count, _ => mainPmm_allocPagesZone heap count .normal
  | .allocPagesZone count zone, _ => mainPmm_allocPagesZone heap count zone
  | .freePage addr past, _ => mainPmm_free heap addr 1 past
  | .freePages addr count past, _ => mainPmm_free heap addr count past

/-! ## The invariant of a run -/

/-- What a run keeps as long as it spares the kernel: the PMM has given nothing away. -/
structure MemSafe (heap : PmmHeap) (t : MemTrace) : Prop where
  vmm : ∀ m, t.mem = some m → VmmReady m.vmm
  pmm : ∀ m, t.mem = some m → m.pmm = mainPmm heap
  idle : ∀ b ∈ t.pmmLive, b = []

theorem memSafe_start (heap : PmmHeap) : MemSafe heap (memTraceStart heap) where
  vmm _ hm := Option.some.inj hm ▸ mainInitMem_vmm heap
  pmm _ hm := Option.some.inj hm ▸ mainInitMem_pmm heap
  idle _ hb := absurd hb List.not_mem_nil

section Step

variable {heap : PmmHeap} {t : MemTrace}

/-- A call for which the PMM hands out nothing leaves its ledger empty. -/
theorem MemSafe.idle_step (h : MemSafe heap t) {c : MemCall} (hout : (t.effect c).pmmOut = []) :
    ∀ b ∈ (memStep t c).pmmLive, b = [] := by
  intro b hb
  obtain ⟨old, hold, rfl⟩ := List.mem_map.mp hb
  rw [hout] at hold
  have none : old = [] := by
    rcases List.mem_cons.mp hold with rfl | hold
    · rfl
    · exact h.idle old hold
  rw [none]
  rfl

/-- With the PMM's ledger empty, a call is good exactly when the frames it hands out are. -/
theorem framesDisjoint_iff {kernelEnd : UIntPtr} {c : MemCall}
    (hidle : ∀ b ∈ (memStep t c).pmmLive, b = []) :
    FramesDisjoint kernelEnd t c ↔
      ∀ p ∈ (t.effect c).vmmOut ++ (t.effect c).pmmOut, ¬ InKernel kernelEnd p := by
  refine and_iff_right fun b _ b' hb' => ?_
  rw [hidle b' hb']
  exact List.disjoint_nil_right b

theorem sparesKernel_some {kernelEnd : UIntPtr} {m : Mem} (hm : t.mem = some m) {c : MemCall} :
    SparesKernel kernelEnd t c ↔ c.Spares kernelEnd m := by
  unfold SparesKernel
  rw [hm]
  exact ⟨fun h => h m rfl, fun h m' heq => Option.some.inj heq ▸ h⟩

/-- A VMM call keeps the invariant, and is good exactly when its block fits only above the kernel.
-/
theorem MemSafe.vmm_call (h : MemSafe heap t) (kernelEnd : UIntPtr) {m : Mem}
    (hm : t.mem = some m) (c : VmmCall) :
    MemSafe heap (memStep t (.vmm c)) ∧
      (FramesDisjoint kernelEnd t (.vmm c) ↔ c.FitsOnlyAbove kernelEnd m.vmm.pageTable) := by
  have effect : t.effect (.vmm c) = MemCall.effect m (.vmm c) := by rw [MemTrace.effect, hm]
  have law := (h.vmm m hm).law c
  have idle := h.idle_step (c := .vmm c) (by rw [effect]; rfl)
  have after : ∀ m', (memStep t (.vmm c)).mem = some m' →
      ∃ vmm, (c.effect m.vmm).after = some vmm ∧ { m with vmm := vmm } = m' := by
    intro m' hm'
    have hm' : (t.effect (.vmm c)).after = some m' := hm'
    rw [effect] at hm'
    exact Option.map_eq_some_iff.mp hm'
  refine ⟨⟨fun m' hm' => ?_, fun m' hm' => ?_, idle⟩, ?_⟩
  · obtain ⟨vmm, hvmm, rfl⟩ := after m' hm'
    exact law.ready vmm hvmm
  · obtain ⟨vmm, hvmm, rfl⟩ := after m' hm'
    exact h.pmm m hm
  · rw [framesDisjoint_iff idle, effect, ← law.above_iff kernelEnd]
    show (∀ p ∈ (c.effect m.vmm).handedOut ++ [], _) ↔ _
    rw [List.append_nil]
    refine forall₂_congr fun p hp => ?_
    -- the table begins where the kernel does
    have base : kernelStart ≤ p := law.base p hp
    rw [InKernel, not_and, BitVec.not_lt]
    exact ⟨fun h => h base, fun h _ => h⟩

/-- A PMM call keeps the invariant if it starves, and is good exactly then. -/
theorem MemSafe.pmm_call (h : MemSafe heap t) {kernelEnd : UIntPtr} (hend : kernelStart < kernelEnd)
    {m : Mem} (hm : t.mem = some m) {c : PmmCall} (hc : c.MovesPages = true) :
    (c.Starves m.pmm.regions → MemSafe heap (memStep t (.pmm c hc))) ∧
      (FramesDisjoint kernelEnd t (.pmm c hc) ↔ c.Starves m.pmm.regions) := by
  have effect : t.effect (.pmm c hc) = MemCall.effect m (.pmm c hc) := by rw [MemTrace.effect, hm]
  have main := h.pmm m hm
  rw [main]
  cases mainPmm_case heap c hc with
  | idle hstarves hafter hout _ =>
    rw [← main] at hafter hout
    have out : (t.effect (.pmm c hc)).pmmOut = [] := by rw [effect]; exact hout
    have idle := h.idle_step out
    have after : (memStep t (.pmm c hc)).mem = some { m with pmm := (c.effect m.pmm).after } := by
      show (t.effect (.pmm c hc)).after = _
      rw [effect]
      rfl
    refine ⟨fun _ => ⟨fun m' hm' => ?_, fun m' hm' => ?_, idle⟩, iff_of_true ?_ hstarves⟩
    · rw [after] at hm'
      obtain rfl := Option.some.inj hm'
      exact h.vmm m hm
    · rw [after] at hm'
      obtain rfl := Option.some.inj hm'
      exact hafter.trans main
    · rw [framesDisjoint_iff idle, out, effect]
      exact fun p hp => absurd hp List.not_mem_nil
  | kernel hroom hout =>
    rw [← main] at hout
    refine ⟨fun hstarves => absurd hstarves hroom, iff_of_false (fun hgood => ?_) hroom⟩
    have mem : kernelStart ∈ (t.effect (.pmm c hc)).vmmOut ++ (t.effect (.pmm c hc)).pmmOut := by
      rw [effect]
      exact List.mem_append_right _ hout
    exact hgood.2 kernelStart mem ⟨BitVec.le_refl _, hend⟩

theorem MemSafe.step (h : MemSafe heap t) {kernelEnd : UIntPtr} (hend : kernelStart < kernelEnd)
    (c : MemCall) (hspares : SparesKernel kernelEnd t c) : MemSafe heap (memStep t c) := by
  cases hm : t.mem with
  | none =>
    have effect : t.effect c = .stopped := by rw [MemTrace.effect, hm]
    have stopped : (memStep t c).mem = none := by
      show (t.effect c).after = none
      rw [effect]
      rfl
    refine ⟨fun m' hm' => ?_, fun m' hm' => ?_, h.idle_step (by rw [effect]; rfl)⟩
    · rw [stopped] at hm'
      cases hm'
    · rw [stopped] at hm'
      cases hm'
  | some m =>
    cases c with
    | vmm c => exact (h.vmm_call kernelEnd hm c).1
    | pmm c hc => exact (h.pmm_call hend hm hc).1 ((sparesKernel_some hm).mp hspares)

theorem MemSafe.framesDisjoint_iff (h : MemSafe heap t) {kernelEnd : UIntPtr}
    (hend : kernelStart < kernelEnd) (c : MemCall) :
    FramesDisjoint kernelEnd t c ↔ SparesKernel kernelEnd t c := by
  cases hm : t.mem with
  | none =>
    have effect : t.effect c = .stopped := by rw [MemTrace.effect, hm]
    refine iff_of_true ?_ fun m hm' => ?_
    · rw [Unics.framesDisjoint_iff (h.idle_step (by rw [effect]; rfl)), effect]
      exact fun p hp => absurd hp List.not_mem_nil
    · rw [hm] at hm'
      cases hm'
  | some m =>
    rw [sparesKernel_some hm]
    cases c with
    | vmm c => exact (h.vmm_call kernelEnd hm c).2
    | pmm c hc => exact (h.pmm_call hend hm hc).2

end Step

/-! ## Runs -/

/-- In every run after `main` has initialised the managers, no frame is in a live block of each and
neither hands out a frame of the kernel, exactly when every VMM allocation asks for a block that
fits nowhere below the end of the kernel and every PMM allocation asks for more than there is. -/
theorem frames_disjoint_iff {heap : PmmHeap} {kernelEnd : UIntPtr} {calls : List MemCall}
    (hend : kernelStart < kernelEnd) :
    EveryStep memStep (FramesDisjoint kernelEnd) (memTraceStart heap) calls ↔
      EveryStep memStep (SparesKernel kernelEnd) (memTraceStart heap) calls :=
  everyStep_iff (fun _ c h hspares => h.step hend c hspares)
    (fun _ c h => h.framesDisjoint_iff hend c) (memSafe_start heap)

/-- A block aligned to the end of the kernel, given back. -/
theorem frames_disjoint_aligned :
    EveryStep memStep (FramesDisjoint 0x200000) (memTraceStart pmmHeapFull)
      [.vmm (.allocAligned 0x1000 0x200000), .vmm (.free 0x200000),
        .pmm (.allocPages 0x8000) rfl] := by
  have hend : kernelStart < 0x200000 := by decide
  have start := memSafe_start pmmHeapFull
  have alloc : SparesKernel 0x200000 (memTraceStart pmmHeapFull)
      (.vmm (.allocAligned 0x1000 0x200000)) :=
    (sparesKernel_some rfl).mpr (.of_align (mainInitMem_vmm _).paged (by decide))
  have free : SparesKernel 0x200000 (memStep (memTraceStart pmmHeapFull)
      (.vmm (.allocAligned 0x1000 0x200000))) (.vmm (.free 0x200000)) := fun _ _ => trivial
  have safe := (start.step hend _ alloc).step hend _ free
  refine (frames_disjoint_iff hend).mpr ⟨alloc, free, fun m hm => ?_, trivial⟩
  show NoRoom m.pmm.regions 0x8000 .normal
  intro r hr _
  rw [safe.pmm m hm] at hr
  rw [mainPmm_fresh r hr]
  exact .inr (by decide)

/-- Asked one after the other, both managers hand out the first frame of the kernel. -/
theorem frames_disjoint_fails :
    ¬ EveryStep memStep (FramesDisjoint 0x200000) (memTraceStart pmmHeapFull)
      [.vmm (.alloc 0x1000), .pmm .allocPage rfl] := by
  intro h
  have apart := h.2.1.1 [kernelStart] (by decide +kernel) [kernelStart] (by decide +kernel)
  exact apart List.mem_cons_self List.mem_cons_self

end Unics
