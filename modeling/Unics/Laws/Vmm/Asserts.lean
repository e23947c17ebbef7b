import Unics.Laws.Vmm.Aligned

/-!
# Which requests trip an assertion

`vmm_alloc_internal` asserts that it is asked for at least one page and for no more than the table
has. Its three callers refuse a size of 0 and a page count above the table's, and both guards read
numbers: the size, and the count after the rounding. The rounding wraps for the last 4095 sizes, and
the count is then 0, which no guard refuses (`vmm_requests_meet_iff`).
-/

namespace Unics

open Unics.Lib

/-- A request is met: no assertion stops the machine, and where it asks for more than the memory
there is, the answer is null and nothing has changed. -/
structure VmmMeets (s : Vmm) (size : SizeT) (res : Option (Vmm × UIntPtr)) : Prop where
  stands : res ≠ none
  large : 4096 * vmmMaxPages < size.toNat → res = some (s, null)

section Asserts

variable {s : Vmm} {size align : SizeT} {tag : BitVec 32} {isKernel : Bool}

/-- The two assertions. -/
theorem vmmAllocInternal_eq_none_iff {pages : SizeT} :
    vmmAllocInternal s pages align tag isKernel = none ↔
      ¬ (s.initialized = true ∧ 0 < pages.toNat ∧ pages.toNat ≤ vmmMaxPages) := by
  unfold vmmAllocInternal
  split
  · next hpass =>
    refine iff_of_false ?_ (not_not_intro hpass)
    split
    · exact Option.some_ne_none _
    · exact Option.some_ne_none _
  · next hfail => exact iff_of_true rfl hfail

/-- Where the rounding wraps, no page is left to ask for. -/
theorem vmmPagesNeeded_of_wraps (hwrap : ¬ size.toNat + 4095 < 2 ^ 32) :
    (vmmPagesNeeded size).toNat = 0 := by
  by_contra hne
  have count := @toNat_vmmPagesNeeded size (by omega)
  have top : (size + vmmPageSize - 1).toNat < 4096 := by
    unfold vmmPageSize
    bv_omega
  rw [vmmPagesNeeded, BitVec.toNat_udiv, show vmmPageSize.toNat = 4096 from rfl,
    Nat.div_eq_of_lt top] at hne
  exact hne rfl

theorem vmmMeets_null : VmmMeets s size (some (s, null)) :=
  ⟨Option.some_ne_none _, fun _ => rfl⟩

/-- What the three callers share meets the request exactly when the rounding does not wrap. -/
theorem vmmAllocSized_meets_iff (hinit : s.initialized = true) :
    VmmMeets s size (vmmAllocSized s size align tag isKernel) ↔ size.toNat + 4095 < 2 ^ 32 := by
  unfold vmmAllocSized
  split
  · next hzero =>
    subst hzero
    exact iff_of_true vmmMeets_null (by decide)
  next hsize =>
  have pos : 0 < size.toNat := toNat_pos hsize
  by_cases hwrap : size.toNat + 4095 < 2 ^ 32
  · have count := vmmPagesNeeded_eq hwrap
    refine iff_of_true ?_ hwrap
    split
    · exact vmmMeets_null
    · next hpages =>
      rw [count] at hpages
      have held : ¬ 4096 * vmmMaxPages < size.toNat := by
        unfold pagesToHold at hpages
        omega
      refine ⟨fun hnone => ?_, fun hlarge => absurd hlarge held⟩
      have positive := pagesToHold_pos pos
      exact vmmAllocInternal_eq_none_iff.mp hnone ⟨hinit, by omega, by omega⟩
  · have count := vmmPagesNeeded_of_wraps hwrap
    refine iff_of_false (fun h => h.stands ?_) hwrap
    rw [if_neg (by omega)]
    exact vmmAllocInternal_eq_none_iff.mpr fun hpass => by omega

/-- `vmm_alloc_aligned` refuses an alignment that is no power of two before it rounds. -/
theorem vmmAllocAligned_meets_iff (hinit : s.initialized = true) :
    VmmMeets s size (vmmAllocAligned s size align) ↔
      (align.toNat.isPowerOfTwo → size.toNat + 4095 < 2 ^ 32) := by
  unfold vmmAllocAligned
  split
  · next hzero =>
    subst hzero
    exact iff_of_true vmmMeets_null fun _ => by decide
  split
  · next hbad =>
    refine iff_of_true vmmMeets_null fun hpower => ?_
    obtain ⟨hne, hmask⟩ := and_sub_one_eq_zero_iff.mpr hpower
    exact absurd hbad (not_or.mpr ⟨not_not_intro hmask, hne⟩)
  · next hgood =>
    rw [not_or, not_not] at hgood
    have power := and_sub_one_eq_zero_iff.mp hgood.symm
    rw [vmmAllocSized_meets_iff hinit]
    exact ⟨fun h _ => h, fun h => h power⟩

end Asserts

/-- After `vmm_init`, in every state, for every size, alignment, tag and kernel flag: which requests
are met. -/
theorem vmm_requests_meet_iff {s : Vmm} (hinit : s.initialized = true) (size align : SizeT)
    (tag : BitVec 32) (isKernel : Bool) :
    (VmmMeets s size (vmmAlloc s size) ↔ size.toNat + 4095 < 2 ^ 32) ∧
      (VmmMeets s size (vmmAllocTagged s size tag isKernel) ↔ size.toNat + 4095 < 2 ^ 32) ∧
        (VmmMeets s size (vmmAllocAligned s size align) ↔
          (align.toNat.isPowerOfTwo → size.toNat + 4095 < 2 ^ 32)) :=
  ⟨vmmAllocSized_meets_iff hinit, vmmAllocSized_meets_iff hinit, vmmAllocAligned_meets_iff hinit⟩

/-- 5 MiB are more than there are, and the rounding does not wrap. -/
theorem vmm_requests_meet_iff_large :
    vmmAlloc (vmmInit vmmStart) 0x500000 = some (vmmInit vmmStart, null) ∧
      vmmAllocTagged (vmmInit vmmStart) 0x500000 7 true = some (vmmInit vmmStart, null) ∧
        vmmAllocAligned (vmmInit vmmStart) 0x500000 0x2000 = some (vmmInit vmmStart, null) := by
  obtain ⟨plain, tagged, aligned⟩ :=
    vmm_requests_meet_iff (s := vmmInit vmmStart) rfl 0x500000 0x2000 7 true
  have room : (0x500000 : SizeT).toNat + 4095 < 2 ^ 32 := by decide
  have large : 4096 * vmmMaxPages < (0x500000 : SizeT).toNat := by decide
  exact ⟨(plain.mpr room).large large, (tagged.mpr room).large large,
    (aligned.mpr fun _ => room).large large⟩

/-- A request for all of the address space asks for no page, and the assertion fails. -/
theorem vmm_requests_not_met :
    ¬ VmmMeets (vmmInit vmmStart) 0xFFFFFFFF (vmmAlloc (vmmInit vmmStart) 0xFFFFFFFF) := by
  intro h
  have stops : vmmAlloc (vmmInit vmmStart) 0xFFFFFFFF = none := by
    rw [vmmAlloc, vmmAllocSized, if_neg (by decide), if_neg (by decide)]
    exact vmmAllocInternal_eq_none_iff.mpr fun hpass => absurd hpass.2.1 (by decide)
  exact h.stands stops

end Unics
