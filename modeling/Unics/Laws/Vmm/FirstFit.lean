import Unics.Drivers.Vmm
import Unics.Lib.Words

/-!
# The page table allocator is a first fit

Over a table whose pages stand one after the other from `VMM_BASE_ADDRESS` on, the loop of
`vmm_alloc_internal` skips only places where the block asked for does not fit. So it takes the
lowest place where it does (`vmmAllocInternal_spec`), although its turns jump over misaligned and
taken pages.
-/

namespace Unics

open Unics.Lib

/-- The addresses are the ones that `vmm_init` stores. -/
def VmmPaged (table : VmmPageTable) : Prop :=
  ∀ i < vmmMaxPages, (table i).baseAddr.toNat = 0x100000 + 4096 * i

/-- `pages` pages fit at index `i`: they are free, and the first is aligned. -/
def VmmFits (table : VmmPageTable) (pages : Nat) (align : SizeT) (i : Nat) : Prop :=
  align.toNat ∣ (table i).baseAddr.toNat ∧ ∀ j < pages, (table (i + j)).state = .free

theorem toNat_vmmBaseAddress : vmmBaseAddress.toNat = 0x100000 := rfl

theorem vmmPaged_initial : VmmPaged vmmInitialPage := by
  intro i hi
  have small : i < 1024 := hi
  show (vmmBaseAddress + BitVec.ofNat 32 i * vmmPageSize).toNat = _
  rw [BitVec.toNat_add, BitVec.toNat_mul, BitVec.toNat_ofNat, toNat_vmmBaseAddress,
    show vmmPageSize.toNat = 4096 from rfl]
  omega

section Scan

variable {table : VmmPageTable} {pages : Nat} {align : SizeT} {i : Nat}

/-- The alignment check of the loop rounds up to the least aligned address that is not below. -/
theorem VmmPaged.toNat_alignUp (h : VmmPaged table) (halign : align.toNat.isPowerOfTwo)
    (hi : i < vmmMaxPages) :
    (vmmAlignUp (table i).baseAddr align).toNat =
      ((table i).baseAddr.toNat + (align.toNat - 1)) / align.toNat * align.toNat := by
  refine toNat_roundUp halign ?_
  obtain ⟨k, hk⟩ := halign
  have width : k < 32 := (Nat.pow_lt_pow_iff_right (by decide)).mp (hk ▸ align.isLt)
  have bound : 2 ^ k ≤ 2 ^ 31 := Nat.pow_le_pow_right (by decide) (Nat.le_of_lt_succ width)
  have lt : i < 1024 := hi
  rw [h i hi, hk]
  omega

/-- An alignment of at most a page is every page's. -/
theorem VmmPaged.dvd_of_le (h : VmmPaged table) (halign : align.toNat.isPowerOfTwo)
    (hle : align.toNat ≤ 4096) (hi : i < vmmMaxPages) :
    align.toNat ∣ (table i).baseAddr.toNat := by
  obtain ⟨k, hk⟩ := halign
  have page : 2 ^ k ∣ 4096 := by
    have : k ≤ 12 := (Nat.pow_le_pow_iff_right (by decide)).mp (hk ▸ hle)
    exact Nat.pow_dvd_pow 2 this
  have base : 4096 ∣ (table i).baseAddr.toNat := by
    rw [h i hi]
    exact ⟨256 + i, by omega⟩
  rw [hk]
  exact page.trans base

/-- A page that passes the alignment check is aligned. -/
theorem VmmPaged.dvd_of_aligned (h : VmmPaged table) (halign : align.toNat.isPowerOfTwo)
    (hi : i < vmmMaxPages) (aligned : ¬ (vmmPageSize < align ∧
      vmmAlignUp (table i).baseAddr align ≠ (table i).baseAddr)) :
    align.toNat ∣ (table i).baseAddr.toNat := by
  by_cases hpage : vmmPageSize < align
  · have same : vmmAlignUp (table i).baseAddr align = (table i).baseAddr := by
      by_contra hne
      exact aligned ⟨hpage, hne⟩
    have up := h.toNat_alignUp halign hi
    rw [same] at up
    rw [up]
    exact Nat.dvd_mul_left _ _
  · exact h.dvd_of_le halign (Nat.le_of_not_lt hpage) hi

/-- The check rounds up, and not down. -/
theorem VmmPaged.le_alignUp (h : VmmPaged table) (halign : align.toNat.isPowerOfTwo)
    (hi : i < vmmMaxPages) :
    (table i).baseAddr.toNat ≤ (vmmAlignUp (table i).baseAddr align).toNat := by
  rw [h.toNat_alignUp halign hi]
  exact le_roundUp (Nat.pos_of_isPowerOfTwo halign)

/-- No block fits at a page before the address that the check rounds up to. -/
theorem VmmPaged.not_fits_below (h : VmmPaged table) (halign : align.toNat.isPowerOfTwo)
    (hi : i < vmmMaxPages) {j : Nat} (hij : i ≤ j) (hj : j < vmmMaxPages)
    (hbelow : 4096 * (j - i) <
      (vmmAlignUp (table i).baseAddr align).toNat - (table i).baseAddr.toNat) :
    ¬ VmmFits table pages align j := by
  intro hfits
  have start := h i hi
  have place := h j hj
  have above := roundUp_le_of_dvd (Nat.pos_of_isPowerOfTwo halign) hfits.1
    (x := (table i).baseAddr.toNat) (by omega)
  rw [← h.toNat_alignUp halign hi] at above
  omega

/-- Every turn of the loop is sound: it stops where the block fits, and skips only places where it
does not. -/
theorem vmmAllocTurn_sound (h : VmmPaged table) (halign : align.toNat.isPowerOfTwo)
    (hpos : 0 < pages) (hpages : pages ≤ vmmMaxPages) (hi : i ≤ vmmMaxPages - pages) :
    (vmmAllocTurn table pages align i).Sound (VmmFits table pages align) (vmmMaxPages - pages)
      i := by
  have hlt : i < vmmMaxPages := by omega
  unfold vmmAllocTurn
  split
  · next hreserved =>
    intro j hij hji _ hfits
    obtain rfl : j = i := by omega
    have free := hfits.2 0 hpos
    rw [Nat.add_zero, hreserved] at free
    cases free
  dsimp only
  split
  · next hmis =>
    have low : (table i).baseAddr.toNat < (vmmAlignUp (table i).baseAddr align).toNat :=
      Nat.lt_of_le_of_ne (h.le_alignUp halign hlt) fun heq =>
        hmis.2 (BitVec.eq_of_toNat_eq heq.symm)
    have gap : ((vmmAlignUp (table i).baseAddr align - (table i).baseAddr) / vmmPageSize).toNat =
        ((vmmAlignUp (table i).baseAddr align).toNat - (table i).baseAddr.toNat) / 4096 := by
      rw [BitVec.toNat_udiv, BitVec.toNat_sub_of_le (BitVec.le_def.mpr low.le)]
      rfl
    split
    · intro j hij hji hj
      exact h.not_fits_below halign hlt hij (by omega) (by omega)
    · intro j hij hji hj
      exact h.not_fits_below halign hlt hij (by omega) (by omega)
  · next haligned =>
    split
    · next j hj =>
      -- every block that starts at or before the taken page, and not before `i`, contains it
      have taken : (table (i + j)).state ≠ .free := by simpa using List.find?_some hj
      have hjp : j < pages := List.mem_range.mp (List.mem_of_find?_eq_some hj)
      intro k hik hkj _ hfits
      have free := hfits.2 (i + j - k) (by omega)
      rw [Nat.add_sub_cancel' hkj] at free
      exact taken free
    · next hnone =>
      refine ⟨h.dvd_of_aligned halign hlt haligned, fun j hj => ?_⟩
      have := List.find?_eq_none.mp hnone j (List.mem_range.mpr hj)
      simpa using this

/-- `vmm_alloc_internal` takes the lowest place where the block fits, or there is none and it
changes nothing. -/
theorem vmmAllocInternal_spec {s : Vmm} (hinit : s.initialized = true) (h : VmmPaged s.pageTable)
    {pages align : SizeT} (halign : align.toNat.isPowerOfTwo) (hpos : 0 < pages.toNat)
    (hpages : pages.toNat ≤ vmmMaxPages) (tag : BitVec 32) (isKernel : Bool) :
    ∃ place, FirstFit (VmmFits s.pageTable pages.toNat align) 0 (vmmMaxPages - pages.toNat) place ∧
      vmmAllocInternal s pages align tag isKernel = some (match place with
        | some i =>
          ({ s with pageTable := vmmMarkUsed s.pageTable i pages tag isKernel },
            (s.pageTable i).baseAddr)
        | none => (s, null)) := by
  have enough : vmmMaxPages - pages.toNat < vmmMaxPages + 1 + 0 := by omega
  have first := scan_firstFit (fun i hi => vmmAllocTurn_sound h halign hpos hpages hi) enough
  refine ⟨_, first, ?_⟩
  rw [vmmAllocInternal, if_pos ⟨hinit, hpos, hpages⟩]
  generalize scan _ _ _ _ = place
  cases place <;> rfl

end Scan

end Unics
