import Unics.Lib.Stretch
import Unics.Laws.Vmm.Aligned
import Unics.Laws.Vmm.Release

/-!
# The largest free block

`vmm_get_largest_free_block` counts free pages in a row; the search of `vmm_alloc` jumps over taken
pages and rounds its size up. Both speak of the longest run of free pages: the one answers its
length, the other succeeds when it is long enough. Before `vmm_init` the one still answers, for a
table that is all zero and so all free, and the other stops the machine.
-/

namespace Unics

open Unics.Lib

/-- The page is free. -/
def VmmPageFree (table : VmmPageTable) (k : Nat) : Prop := (table k).state = .free

instance (table : VmmPageTable) : DecidablePred (VmmPageFree table) :=
  fun k => inferInstanceAs (Decidable ((table k).state = .free))

/-- The allocation hands out a block. -/
def VmmSucceeds (res : Option (Vmm × UIntPtr)) : Prop := ∃ s p, res = some (s, p) ∧ p ≠ null

section Largest

variable {table : VmmPageTable}

/-- The counters of the loop after `n` pages. -/
theorem vmmFreeRun_eq (table : VmmPageTable) {n : Nat} (hn : n ≤ vmmMaxPages) :
    (List.range n).foldl (vmmFreeRunTurn table) { maxFree := 0, currentFree := 0 } =
      { maxFree := BitVec.ofNat 32 (longestRun (VmmPageFree table) n)
        currentFree := BitVec.ofNat 32 (runBefore (VmmPageFree table) n) } := by
  induction n with
  | zero => rfl
  | succ n ih =>
    have max : vmmMaxPages = 1024 := rfl
    have most := longestRun_le (p := VmmPageFree table) n
    have now := runBefore_le_longestRun (p := VmmPageFree table) n
    have longest : (BitVec.ofNat 32 (longestRun (VmmPageFree table) n)).toNat =
        longestRun (VmmPageFree table) n := by
      rw [BitVec.toNat_ofNat, Nat.mod_eq_of_lt (by omega)]
    have current : (BitVec.ofNat 32 (runBefore (VmmPageFree table) n) + 1).toNat =
        runBefore (VmmPageFree table) n + 1 := by
      have one : (1 : SizeT).toNat = 1 := rfl
      rw [BitVec.toNat_add, BitVec.toNat_ofNat, one]
      omega
    rw [List.range_succ, List.foldl_append, ih (by omega), List.foldl_cons, List.foldl_nil,
      vmmFreeRunTurn, longestRun, runBefore]
    by_cases hfree : VmmPageFree table n
    · rw [if_pos hfree, if_pos (show (table n).state = .free from hfree)]
      refine congrArg₂ VmmFreeRun.mk ?_ (BitVec.ofNat_add _ 1).symm
      split
      · next hlt =>
        have hlt := BitVec.lt_def.mp hlt
        rw [longest, current] at hlt
        rw [Nat.max_eq_right hlt.le, BitVec.ofNat_add]
        rfl
      · next hge =>
        have hge := fun h => hge (BitVec.lt_def.mpr h)
        rw [longest, current] at hge
        rw [Nat.max_eq_left (Nat.le_of_not_lt hge)]
    · rw [if_neg hfree, if_neg (show (table n).state ≠ .free from hfree),
        Nat.max_eq_left (Nat.zero_le _)]
      rfl

/-- The answer, in bytes. -/
theorem toNat_vmmGetLargestFreeBlock (s : Vmm) :
    (vmmGetLargestFreeBlock s).toNat =
      4096 * longestRun (VmmPageFree s.pageTable) vmmMaxPages := by
  have max : vmmMaxPages = 1024 := rfl
  have most := longestRun_le (p := VmmPageFree s.pageTable) vmmMaxPages
  rw [vmmGetLargestFreeBlock, vmmFreeRun_eq s.pageTable (Nat.le_refl _), BitVec.toNat_mul,
    BitVec.toNat_ofNat, show vmmPageSize.toNat = 4096 from rfl]
  omega

/-- A block of whole pages fits somewhere exactly when the longest run of free pages holds it. -/
theorem VmmPaged.fits_iff (h : VmmPaged table) {pages : Nat} (hpos : 0 < pages) :
    (∃ i, i + pages ≤ vmmMaxPages ∧ VmmFits table pages vmmPageSize i) ↔
      pages ≤ longestRun (VmmPageFree table) vmmMaxPages := by
  rw [le_longestRun_iff]
  constructor
  · rintro ⟨i, hi, -, hfree⟩
    exact ⟨i, hi, hfree⟩
  · rintro ⟨i, hi, hfree⟩
    exact ⟨i, hi, h.dvd_of_le ⟨12, rfl⟩ (Nat.le_refl _) (by omega), hfree⟩

/-- In a table that `vmm_init` has set up. -/
theorem VmmReady.alloc_succeeds_iff {s : Vmm} (h : VmmReady s) {size : SizeT}
    (hsize : 0 < size.toNat) (hwrap : size.toNat + 4095 < 2 ^ 32) :
    VmmSucceeds (vmmAlloc s size) ↔ size.toNat ≤ (vmmGetLargestFreeBlock s).toNat := by
  have count := vmmPagesNeeded_eq hwrap
  have pos := pagesToHold_pos hsize
  have most := longestRun_le (p := VmmPageFree s.pageTable) vmmMaxPages
  have enough : size.toNat ≤ (vmmGetLargestFreeBlock s).toNat ↔
      pagesToHold size ≤ longestRun (VmmPageFree s.pageTable) vmmMaxPages := by
    rw [toNat_vmmGetLargestFreeBlock]
    unfold pagesToHold
    omega
  have fails : ¬ VmmSucceeds (some (s, null)) := by
    rintro ⟨s', p, hres, hp⟩
    exact hp (Prod.mk.inj (Option.some.inj hres)).2.symm
  have some_size : size ≠ 0 := by
    rintro rfl
    exact absurd hsize (by decide)
  rw [enough, vmmAlloc, vmmAllocSized, if_neg some_size]
  by_cases hpages : vmmMaxPages < (vmmPagesNeeded size).toNat
  · rw [if_pos hpages]
    exact iff_of_false fails (by omega)
  · rw [if_neg hpages]
    have page : vmmPageSize.toNat.isPowerOfTwo := ⟨12, rfl⟩
    obtain ⟨place, hfirst, hres⟩ := vmmAllocInternal_spec h.initialized h.paged page
      (count ▸ pos) (Nat.le_of_not_lt hpages) 0 false
    rw [count] at hfirst hpages
    rw [hres, ← h.paged.fits_iff pos]
    cases place with
    | none =>
      refine iff_of_false fails ?_
      rintro ⟨i, hi, hfits⟩
      have empty : fitting _ _ _ = ∅ := hfirst
      have mem : i ∈ fitting (VmmFits s.pageTable (pagesToHold size) vmmPageSize) 0
          (vmmMaxPages - pagesToHold size) := ⟨Nat.zero_le i, by omega, hfits⟩
      rw [empty] at mem
      exact Set.notMem_empty i mem
    | some i =>
      obtain ⟨⟨-, hi, hfits⟩, -⟩ := hfirst
      have fit : i + pagesToHold size ≤ vmmMaxPages := by omega
      exact iff_of_true ⟨_, _, rfl, h.paged.baseAddr_ne_null (by omega)⟩ ⟨i, fit, hfits⟩

end Largest

/-- In every state that a run of calls reaches, for every size from 1 on whose sum with 4095 does
not wrap: `vmm_alloc` succeeds exactly when the manager is initialized and the size is at most the
largest free block. -/
theorem vmm_alloc_succeeds_iff (calls : List VmmRunCall) (s : Vmm)
    (hs : (runFrom vmmRunStep vmmRunStart calls).vmm = some s) (size : SizeT)
    (hsize : 0 < size.toNat) (hwrap : size.toNat + 4095 < 2 ^ 32) :
    VmmSucceeds (vmmAlloc s size) ↔
      s.initialized = true ∧ size.toNat ≤ (vmmGetLargestFreeBlock s).toNat := by
  by_cases hinit : s.initialized = true
  · have ready := (vmmRunSafe_run calls).ready hs hinit
    rw [ready.alloc_succeeds_iff hsize hwrap]
    exact (and_iff_right hinit).symm
  · refine iff_of_false ?_ fun h => hinit h.1
    rintro ⟨s', p, hres, hp⟩
    have hend : VmmAllocEnd s size 0 false (vmmAlloc s size) :=
      vmmAllocSized_end (fun h => absurd h hinit) ⟨12, rfl⟩ 0 false
    rw [hres] at hend
    cases hend with
    | null => exact hp rfl
    | block i ready => exact hinit ready.initialized

/-- The whole memory, in the first state after `vmm_init`. -/
theorem vmm_alloc_succeeds_iff_all :
    VmmSucceeds (vmmAlloc (vmmInit vmmStart) 0x400000) ↔
      (vmmInit vmmStart).initialized = true ∧
        (0x400000 : SizeT).toNat ≤ (vmmGetLargestFreeBlock (vmmInit vmmStart)).toNat :=
  vmm_alloc_succeeds_iff [.init] _ rfl 0x400000 (by decide) (by decide)

/-- Before `vmm_init` the largest free block is all of the memory, and no allocation succeeds. -/
theorem vmm_alloc_fails_at_start :
    ¬ ∀ (calls : List VmmRunCall) (s : Vmm),
      (runFrom vmmRunStep vmmRunStart calls).vmm = some s → ∀ size : SizeT, 0 < size.toNat →
        size.toNat + 4095 < 2 ^ 32 →
          (VmmSucceeds (vmmAlloc s size) ↔ size.toNat ≤ (vmmGetLargestFreeBlock s).toNat) := by
  intro hall
  have one : 1 ≤ longestRun (VmmPageFree vmmStart.pageTable) vmmMaxPages :=
    le_longestRun_iff.mpr ⟨0, by decide, fun _ _ => rfl⟩
  have enough : (1 : SizeT).toNat ≤ (vmmGetLargestFreeBlock vmmStart).toNat := by
    rw [toNat_vmmGetLargestFreeBlock]
    have small : (1 : SizeT).toNat = 1 := rfl
    omega
  obtain ⟨s, p, hres, -⟩ := (hall [] vmmStart rfl 1 (by decide) (by decide)).mpr enough
  have stops : vmmAlloc vmmStart 1 = none := by
    rw [vmmAlloc, vmmAllocSized, if_neg (by decide), if_neg (by decide), vmmAllocInternal,
      if_neg fun h => Bool.noConfusion h.1]
  rw [stops] at hres
  cases hres

end Unics
