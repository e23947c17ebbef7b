import Unics.Laws.Vmm.Isolation

/-!
# An aligned allocation is naive first fit

`vmm_alloc_aligned`, beside the search that one would write without thinking of the loop: of all
addresses that are aligned and begin enough free pages of the table, the lowest. The two agree for
every table, whatever its pages hold (`vmmAllocAligned_naive`).
-/

namespace Unics

open Unics.Lib

/-- `ceil(size / VMM_PAGE_SIZE)`. -/
def pagesToHold (size : SizeT) : Nat := (size.toNat + 4095) / 4096

/-- A block of the size can be put at the address. -/
structure VmmRoom (table : VmmPageTable) (size align : SizeT) (addr : Nat) : Prop where
  aligned : max align.toNat 4096 ∣ addr
  pages : ∃ i, (table i).baseAddr.toNat = addr ∧ i + pagesToHold size ≤ vmmMaxPages ∧
    ∀ j < pagesToHold size, (table (i + j)).state = .free

/-- The pages that hold the size from the address on are used, with their number in the first one,
and no other page has changed. -/
def VmmTakes (s t : Vmm) (size : SizeT) (p : UIntPtr) : Prop :=
  t.initialized = s.initialized ∧ ∃ i < vmmMaxPages, (s.pageTable i).baseAddr = p ∧
    ∀ k, t.pageTable k =
      if i ≤ k ∧ k < i + pagesToHold size then
        { s.pageTable k with
          state := .used
          allocPages := if k = i then BitVec.ofNat 32 (pagesToHold size) else 0
          tag := 0
          isKernel := false }
      else s.pageTable k

section Aligned

variable {s : Vmm} {size align : SizeT}

/-- Without a wrap, the code's page count is the one that is needed. -/
theorem vmmPagesNeeded_eq (hwrap : size.toNat + 4095 < 2 ^ 32) :
    (vmmPagesNeeded size).toNat = pagesToHold size := by
  have top : (size + vmmPageSize - 1).toNat = size.toNat + 4095 := by
    unfold vmmPageSize
    bv_omega
  rw [vmmPagesNeeded, BitVec.toNat_udiv, top]
  rfl

theorem pagesToHold_pos (hsize : 0 < size.toNat) : 0 < pagesToHold size := by
  unfold pagesToHold
  omega

/-- Pages stand at multiples of their size, so the larger of two powers of two is the alignment. -/
theorem VmmPaged.aligned_iff {table : VmmPageTable} (h : VmmPaged table)
    (halign : align.toNat.isPowerOfTwo) {i : Nat} (hi : i < vmmMaxPages) :
    max align.toNat 4096 ∣ (table i).baseAddr.toNat ↔ align.toNat ∣ (table i).baseAddr.toNat := by
  have base : 4096 ∣ (table i).baseAddr.toNat := by
    rw [h i hi]
    exact ⟨256 + i, by omega⟩
  rcases Nat.le_total align.toNat 4096 with hle | hle
  · rw [Nat.max_eq_right hle]
    exact iff_of_true base (h.dvd_of_le halign hle hi)
  · rw [Nat.max_eq_left hle]

/-- Room at an address is a fit at the index of its page. -/
theorem VmmPaged.room_iff {table : VmmPageTable} (h : VmmPaged table)
    (halign : align.toNat.isPowerOfTwo) (hsize : 0 < size.toNat) {addr : Nat} :
    VmmRoom table size align addr ↔
      ∃ i ∈ fitting (VmmFits table (pagesToHold size) align) 0 (vmmMaxPages - pagesToHold size),
        (table i).baseAddr.toNat = addr ∧ i + pagesToHold size ≤ vmmMaxPages := by
  have pos := pagesToHold_pos hsize
  constructor
  · intro hroom
    obtain ⟨hdvd, i, rfl, hfit, hfree⟩ := hroom
    have lt : i < vmmMaxPages := by omega
    exact ⟨i, ⟨Nat.zero_le i, by omega, (h.aligned_iff halign lt).mp hdvd, hfree⟩, rfl, hfit⟩
  · intro hplace
    obtain ⟨i, ⟨_, _, hdvd, hfree⟩, rfl, hfit⟩ := hplace
    have lt : i < vmmMaxPages := by omega
    exact ⟨(h.aligned_iff halign lt).mpr hdvd, i, rfl, hfit, hfree⟩

/-- Addresses are in the order of their pages. -/
theorem VmmPaged.baseAddr_le_iff {table : VmmPageTable} (h : VmmPaged table) {i j : Nat}
    (hi : i < vmmMaxPages) (hj : j < vmmMaxPages) :
    (table i).baseAddr.toNat ≤ (table j).baseAddr.toNat ↔ i ≤ j := by
  rw [h i hi, h j hj]
  omega

theorem VmmPaged.baseAddr_ne_null {table : VmmPageTable} (h : VmmPaged table) {i : Nat}
    (hi : i < vmmMaxPages) : (table i).baseAddr ≠ null := by
  intro heq
  have base := h i hi
  rw [heq, toNat_null] at base
  omega

/-- What the search for a place answers, said of addresses. -/
theorem VmmPaged.least_room {table : VmmPageTable} (h : VmmPaged table)
    (halign : align.toNat.isPowerOfTwo) (hsize : 0 < size.toNat)
    (hpages : pagesToHold size ≤ vmmMaxPages) {i : Nat}
    (hleast : IsLeast
      (fitting (VmmFits table (pagesToHold size) align) 0 (vmmMaxPages - pagesToHold size)) i) :
    IsLeast {addr | VmmRoom table size align addr} (table i).baseAddr.toNat := by
  have pos := pagesToHold_pos hsize
  obtain ⟨hfits, hlow⟩ := hleast
  have fit : i + pagesToHold size ≤ vmmMaxPages := by
    have := hfits.2.1
    omega
  constructor
  · exact (h.room_iff halign hsize).mpr ⟨i, hfits, rfl, fit⟩
  · intro addr hroom
    obtain ⟨j, hj, rfl, hfitj⟩ := (h.room_iff halign hsize).mp hroom
    apply (h.baseAddr_le_iff (by omega) (by omega)).mpr
    exact hlow hj

/-- What an answer of naive first fit is: null and no change where there is no room, or the lowest
address with room, and its pages are taken. -/
structure VmmNaive (s : Vmm) (size align : SizeT) (t : Vmm) (p : UIntPtr) : Prop where
  null_iff : p = null ↔ ∀ addr, ¬ VmmRoom s.pageTable size align addr
  same : p = null → t = s
  least : p ≠ null → IsLeast {addr | VmmRoom s.pageTable size align addr} p.toNat
  takes : p ≠ null → VmmTakes s t size p

theorem VmmNaive.of_none (hnone : ∀ addr, ¬ VmmRoom s.pageTable size align addr) :
    VmmNaive s size align s null :=
  ⟨iff_of_true rfl hnone, fun _ => rfl, fun hne => absurd rfl hne, fun hne => absurd rfl hne⟩

/-- For every table behind the addresses of `vmm_init`, every size from 1 on whose sum with 4095
does not wrap, and every power of two. -/
theorem vmmAllocAligned_naive (h : VmmReady s) (hsize : 0 < size.toNat)
    (hwrap : size.toNat + 4095 < 2 ^ 32) (halign : align.toNat.isPowerOfTwo) :
    ∃ t p, vmmAllocAligned s size align = some (t, p) ∧ VmmNaive s size align t p := by
  have count := vmmPagesNeeded_eq hwrap
  have pos := pagesToHold_pos hsize
  obtain ⟨hne, hmask⟩ := and_sub_one_eq_zero_iff.mpr halign
  have some_size : size ≠ 0 := by
    rintro rfl
    exact absurd hsize (by decide)
  unfold vmmAllocAligned vmmAllocSized
  rw [if_neg some_size, if_neg (not_or.mpr ⟨not_not_intro hmask, hne⟩), if_neg some_size]
  by_cases hpages : vmmMaxPages < (vmmPagesNeeded size).toNat
  · rw [if_pos hpages]
    refine ⟨s, null, rfl, .of_none fun addr hroom => ?_⟩
    obtain ⟨i, _, hfit, _⟩ := hroom.pages
    omega
  · rw [if_neg hpages]
    obtain ⟨place, hfirst, hres⟩ := vmmAllocInternal_spec h.initialized h.paged halign
      (count ▸ pos) (Nat.le_of_not_lt hpages) 0 false
    rw [count] at hfirst hpages
    rw [hres]
    cases place with
    | none =>
      refine ⟨s, null, rfl, .of_none fun addr hroom => ?_⟩
      obtain ⟨i, hi, _⟩ := (h.paged.room_iff halign hsize).mp hroom
      have empty : fitting _ _ _ = ∅ := hfirst
      rw [empty] at hi
      exact Set.notMem_empty i hi
    | some i =>
      have least := h.paged.least_room halign hsize (Nat.le_of_not_lt hpages) hfirst
      have lt : i < vmmMaxPages := by
        have := hfirst.1.2.1
        omega
      have some_addr := h.paged.baseAddr_ne_null lt
      refine ⟨_, _, rfl, ⟨iff_of_false some_addr fun hnone => hnone _ least.1,
        fun hnull => absurd hnull some_addr, fun _ => least, fun _ => ⟨rfl, i, lt, rfl, ?_⟩⟩⟩
      intro k
      show vmmMarkUsed s.pageTable i (vmmPagesNeeded size) 0 false k = _
      have word : BitVec.ofNat 32 (pagesToHold size) = vmmPagesNeeded size := by
        rw [← count, BitVec.ofNat_toNat, BitVec.setWidth_eq]
      rw [vmmMarkUsed, count, word]

end Aligned

/-- One byte on a boundary of 2 MiB, over the table as `vmm_init` leaves it. -/
theorem vmmAllocAligned_naive_byte :
    ∃ t p, vmmAllocAligned (vmmInit vmmStart) 1 0x200000 = some (t, p) ∧
      VmmNaive (vmmInit vmmStart) 1 0x200000 t p :=
  vmmAllocAligned_naive ⟨rfl, vmmPaged_initial⟩ (by decide) (by decide) ⟨21, rfl⟩

end Unics
