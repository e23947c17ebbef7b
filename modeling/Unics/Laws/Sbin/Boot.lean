import Unics.Lib.Run
import Unics.Sbin.Boot

/-!
# When the page tables can be used

The driver's directory is null until a `paging_init` is answered with a page, and from then on it
never is again (`BootRun.Law`). Nothing looks at that before the directory is read, so the calls are
safe in just those orders in which no call that reads it comes earlier.
-/

namespace Unics

open Unics.Lib

/-- A run so far: the drivers, and whether a `paging_init` was answered with a page. -/
structure BootRun where
  boot : Boot
  served : Bool

def bootRunStart (memory : UIntPtr → PageEntry) : BootRun :=
  { boot := bootStart memory, served := false }

/-- A `paging_init` made now is answered with a page: the allocator is up and has one. -/
def Boot.servesInit (b : Boot) : BootCall → Bool
  | .pagingInit => (pmmAllocPage b.pmm).2 != null
  | _ => false

/-- One call of a run. -/
def bootStep (t : BootRun) (c : BootCall) : BootRun :=
  { boot := bootCall t.boot c, served := t.served || t.boot.servesInit c }

/-- The call fails, as far as it can. -/
def BootCall.Fails (b : Boot) : BootCall → Prop
  | .mapPage virtAddr physAddr flags => (bootMapPage b virtAddr physAddr flags).2 = false
  | .unmapPage virtAddr => (bootUnmapPage b virtAddr).2 = false
  | .getPhysical virtAddr => pagingGetPhysical b.paging virtAddr = 0
  | _ => True

/-- The call does not go through a null directory, and while the directory is null it fails. -/
structure BootSafe (t : BootRun) (c : BootCall) : Prop where
  access : c.readsDirectory = true → t.boot.paging.currentPageDirectory ≠ null
  fails : t.boot.paging.currentPageDirectory = null → c.Fails t.boot

/-- A call that reads the directory comes after a `paging_init` that was answered with a page. -/
def AfterInit (t : BootRun) (c : BootCall) : Prop := c.readsDirectory = true → t.served = true

/-- The directory is null exactly as long as no `paging_init` was answered with a page. -/
def BootRun.Law (t : BootRun) : Prop :=
  t.boot.paging.currentPageDirectory = null ↔ t.served = false

/-! ## The directory -/

/-- The page that `paging_init` is given becomes the directory, as the driver's model has it. -/
theorem bootPagingInit_start (memory : UIntPtr → PageEntry) :
    (bootPagingInit (bootStart memory)).paging =
      pagingInit memory (pmmAllocPage (bootStart memory).pmm).2 := by
  unfold bootPagingInit pagingInit
  dsimp only
  split
  · rfl
  · rfl

theorem pagingMapPage_dir (s : Paging) (virtAddr physAddr : UIntPtr) (flags : BitVec 32)
    (page : UIntPtr) :
    (pagingMapPage s virtAddr physAddr flags page).1.currentPageDirectory =
      s.currentPageDirectory := by
  unfold pagingMapPage getOrCreatePageTable
  dsimp only
  split
  · rfl
  · split
    · split <;> rfl
    · split <;> split <;> rfl

theorem pagingUnmapPage_dir (s : Paging) (virtAddr : UIntPtr) :
    (pagingUnmapPage s virtAddr).1.currentPageDirectory = s.currentPageDirectory := by
  unfold pagingUnmapPage
  dsimp only
  split
  · rfl
  · split
    · rfl
    · split <;> rfl

/-- No call but `paging_init` moves the directory. -/
theorem bootCall_dir (b : Boot) (c : BootCall) (hc : b.servesInit c = false) :
    (bootCall b c).paging.currentPageDirectory = b.paging.currentPageDirectory := by
  cases c with
  | pagingInit =>
    have hnull : (pmmAllocPage b.pmm).2 = null := by simpa [Boot.servesInit] using hc
    show (bootPagingInit b).paging.currentPageDirectory = _
    unfold bootPagingInit
    dsimp only
    rw [if_pos hnull]
  | mapPage virtAddr physAddr flags => exact pagingMapPage_dir _ _ _ _ _
  | unmapPage virtAddr => exact pagingUnmapPage_dir _ _
  | _ => rfl

/-- A `paging_init` that gets a page leaves a directory. -/
theorem bootPagingInit_dir {b : Boot} (h : (pmmAllocPage b.pmm).2 ≠ null) :
    (bootPagingInit b).paging.currentPageDirectory ≠ null := by
  unfold bootPagingInit
  dsimp only
  rw [if_neg h]
  exact h

theorem BootRun.Law.step {t : BootRun} (h : t.Law) (c : BootCall) : (bootStep t c).Law := by
  unfold BootRun.Law bootStep at *
  dsimp only
  cases hc : t.boot.servesInit c with
  | false => rw [bootCall_dir t.boot c hc, Bool.or_false, h]
  | true =>
    cases c with
    | pagingInit =>
      have page : (pmmAllocPage t.boot.pmm).2 ≠ null := by simpa [Boot.servesInit] using hc
      rw [Bool.or_true]
      exact iff_of_false (bootPagingInit_dir page) Bool.noConfusion
    | _ => cases hc

/-! ## Safety -/

/-- A call that does not read the directory fails of its own accord. -/
theorem BootCall.fails_of_not_reads (b : Boot) {c : BootCall} (hc : c.readsDirectory = false) :
    c.Fails b := by
  cases c with
  | mapPage virtAddr physAddr flags =>
    have unaligned : (!pmmIsPageAligned virtAddr || !pmmIsPageAligned physAddr) = true := by
      have aligned : (pmmIsPageAligned virtAddr && pmmIsPageAligned physAddr) = false := hc
      rw [← Bool.not_and, aligned]
      rfl
    show (bootMapPage b virtAddr physAddr flags).2 = false
    unfold bootMapPage pagingMapPage
    dsimp only
    rw [if_pos unaligned]
  | unmapPage virtAddr =>
    have unaligned : (!pmmIsPageAligned virtAddr) = true := by
      have aligned : pmmIsPageAligned virtAddr = false := hc
      rw [aligned]
      rfl
    show (bootUnmapPage b virtAddr).2 = false
    unfold bootUnmapPage pagingUnmapPage
    dsimp only
    rw [if_pos unaligned]
  | getPhysical virtAddr => cases hc
  | _ => trivial

theorem BootRun.Law.safe_iff {t : BootRun} (h : t.Law) (c : BootCall) :
    BootSafe t c ↔ AfterInit t c := by
  constructor
  · intro hsafe hreads
    by_contra hserved
    exact hsafe.access hreads (h.mpr (Bool.not_eq_true _ ▸ hserved))
  · intro hafter
    refine ⟨fun hreads hnull => ?_, fun hnull => ?_⟩
    · have served := hafter hreads
      rw [h.mp hnull] at served
      cases served
    · refine BootCall.fails_of_not_reads t.boot (Bool.eq_false_iff.mpr fun hreads => ?_)
      have served := hafter hreads
      rw [h.mp hnull] at served
      cases served

/-- Over every order of the boot calls: none goes through a null directory, and all fail that are
made while it is null, exactly when each call that reads it comes after a `paging_init` that was
answered with a page. -/
theorem boot_safe_iff (memory : UIntPtr → PageEntry) (calls : List BootCall) :
    EveryStep bootStep BootSafe (bootRunStart memory) calls ↔
      EveryStep bootStep AfterInit (bootRunStart memory) calls :=
  everyStep_iff (fun _ c h _ => BootRun.Law.step h c) (fun _ c h => BootRun.Law.safe_iff h c)
    (iff_of_true rfl rfl)

/-- The order of `main`, and a page mapped after it: the mapping writes an entry at address 4 and
returns true. -/
theorem boot_not_safe :
    ¬ EveryStep bootStep BootSafe (bootRunStart fun _ => 0)
      [.pagingInit, .pmmInit,
        .pmmAddRegion 0x00100000 0x00003000 .normal { malloc := true, calloc := true },
        .mapPage 0x00400000 0x00007000 2] := by
  intro h
  have mapped : false = true := by
    rw [← h.2.2.2.1.fails rfl]
    decide
  cases mapped

end Unics
