import Unics.Drivers.Paging
import Unics.Lib.TwoLevel
import Unics.Lib.Words

/-!
# The paging driver's memory, in frames

The driver writes to addresses that it computes. Read in frames of 1024 entries each, the memory is
one of `Lib.TwoLevel`, and what the driver does to it is what that library writes: an entry of a
frame (`setEntry_frames`) or a whole frame cleared (`clearPage_frames`).
-/

namespace Unics

open Unics.Lib

/-- The frame, or the virtual page, that an address is in. -/
def pageOf (addr : UIntPtr) : BitVec 20 := addr.extractLsb' 12 20

/-- The address of a frame. -/
def frameAddr (f : BitVec 20) : UIntPtr := f.setWidth 32 <<< 12

/-- The entry of the directory that a virtual page goes through. -/
def dirPart (v : BitVec 20) : BitVec 10 := v.extractLsb' 10 10

/-- The entry of its table that a virtual page goes through. -/
def tablePart (v : BitVec 20) : BitVec 10 := v.extractLsb' 0 10

/-- The memory, one frame of entries after the other. -/
def Paging.frames (s : Paging) : BitVec 20 → BitVec 10 → PageEntry :=
  fun f i => s.entry (frameAddr f) (i.setWidth 32)

/-! ## Addresses as numbers -/

theorem toNat_pageOf (addr : UIntPtr) : (pageOf addr).toNat = addr.toNat / 4096 := by
  have := addr.isLt
  rw [pageOf, BitVec.extractLsb'_toNat, Nat.shiftRight_eq_div_pow]
  omega

theorem toNat_frameAddr (f : BitVec 20) : (frameAddr f).toNat = 4096 * f.toNat := by
  have := f.isLt
  rw [frameAddr, BitVec.toNat_shiftLeft, BitVec.toNat_setWidth, Nat.shiftLeft_eq]
  omega

theorem toNat_dirPart (v : BitVec 20) : (dirPart v).toNat = v.toNat / 1024 := by
  have := v.isLt
  rw [dirPart, BitVec.extractLsb'_toNat, Nat.shiftRight_eq_div_pow]
  omega

theorem toNat_tablePart (v : BitVec 20) : (tablePart v).toNat = v.toNat % 1024 := by
  rw [tablePart, BitVec.extractLsb'_toNat, Nat.shiftRight_zero]

/-- A virtual page is its two parts. -/
theorem parts_inj {v v' : BitVec 20} :
    dirPart v' = dirPart v ∧ tablePart v' = tablePart v ↔ v' = v := by
  constructor
  · rintro ⟨hdir, htable⟩
    have dir := congrArg BitVec.toNat hdir
    have table := congrArg BitVec.toNat htable
    rw [toNat_dirPart, toNat_dirPart] at dir
    rw [toNat_tablePart, toNat_tablePart] at table
    exact BitVec.eq_of_toNat_eq (by omega)
  · rintro rfl
    exact ⟨rfl, rfl⟩

theorem pmmIsPageAligned_iff {addr : UIntPtr} :
    pmmIsPageAligned addr = true ↔ addr.toNat % 4096 = 0 := by
  have mask : (addr &&& (pmmPageSize - 1)).toNat = addr.toNat % 2 ^ 12 := toNat_and_mask rfl
  rw [pmmIsPageAligned, beq_iff_eq, ← BitVec.toNat_inj, mask]
  rfl

/-- An aligned address is that of its frame. -/
theorem frameAddr_pageOf {addr : UIntPtr} (h : pmmIsPageAligned addr = true) :
    frameAddr (pageOf addr) = addr := by
  have aligned := pmmIsPageAligned_iff.mp h
  refine BitVec.eq_of_toNat_eq ?_
  rw [toNat_frameAddr, toNat_pageOf]
  omega

theorem pdIndex_eq (addr : UIntPtr) : pdIndex addr = (dirPart (pageOf addr)).setWidth 32 := by
  have := addr.isLt
  have mask : (addr >>> 22 &&& 0x3FF).toNat = (addr >>> 22).toNat % 2 ^ 10 := toNat_and_mask rfl
  refine BitVec.eq_of_toNat_eq ?_
  rw [pdIndex, mask, BitVec.toNat_setWidth, toNat_dirPart, toNat_pageOf, BitVec.toNat_ushiftRight,
    Nat.shiftRight_eq_div_pow]
  omega

theorem ptIndex_eq (addr : UIntPtr) : ptIndex addr = (tablePart (pageOf addr)).setWidth 32 := by
  have := addr.isLt
  have mask : (addr >>> 12 &&& 0x3FF).toNat = (addr >>> 12).toNat % 2 ^ 10 := toNat_and_mask rfl
  refine BitVec.eq_of_toNat_eq ?_
  rw [ptIndex, mask, BitVec.toNat_setWidth, toNat_tablePart, toNat_pageOf,
    BitVec.toNat_ushiftRight, Nat.shiftRight_eq_div_pow]
  omega

/-- The address in an entry is that of the frame it names. -/
theorem address_eq (entry : PageEntry) : PageEntry.address entry = frameAddr (pageOf entry) := by
  have mask : (entry &&& ~~~0xFFF).toNat = entry.toNat / 2 ^ 12 * 2 ^ 12 := toNat_and_not_mask rfl
  refine BitVec.eq_of_toNat_eq ?_
  rw [PageEntry.address, mask, toNat_frameAddr, toNat_pageOf]
  omega

theorem toNat_entryAddr (f : BitVec 20) (i : BitVec 10) :
    (entryAddr (frameAddr f) (i.setWidth 32)).toNat = 4096 * f.toNat + 4 * i.toNat := by
  have := f.isLt
  have := i.isLt
  have four : (4 : BitVec 32).toNat = 4 := rfl
  rw [entryAddr, BitVec.toNat_add, BitVec.toNat_mul, four, toNat_frameAddr, BitVec.toNat_setWidth]
  omega

/-- Entries of two frames, or two entries of one, are not at one address. -/
theorem entryAddr_inj {f g : BitVec 20} {i j : BitVec 10} :
    entryAddr (frameAddr g) (j.setWidth 32) = entryAddr (frameAddr f) (i.setWidth 32) ↔
      g = f ∧ j = i := by
  constructor
  · intro h
    have eq := congrArg BitVec.toNat h
    rw [toNat_entryAddr, toNat_entryAddr] at eq
    have := i.isLt
    have := j.isLt
    exact ⟨BitVec.eq_of_toNat_eq (by omega), BitVec.eq_of_toNat_eq (by omega)⟩
  · rintro ⟨rfl, rfl⟩
    rfl

/-! ## Writes -/

theorem setEntry_frames (s : Paging) (f : BitVec 20) (i : BitVec 10) (entry : PageEntry) :
    (s.setEntry (frameAddr f) (i.setWidth 32) entry).frames = setWord s.frames f i entry := by
  funext g j
  show (if _ then _ else _) = if _ then _ else _
  simp only [entryAddr_inj]
  rfl

theorem clearPage_frames (s : Paging) (f : BitVec 20) :
    (s.clearPage (frameAddr f)).frames = fillFrame s.frames f 0 := by
  funext g j
  have inside : entryAddr (frameAddr g) (j.setWidth 32) - frameAddr f < pageSize ↔ g = f := by
    have := g.isLt
    have := f.isLt
    have := j.isLt
    rw [BitVec.lt_def, BitVec.toNat_sub, toNat_entryAddr, toNat_frameAddr,
      show pageSize.toNat = 4096 from rfl, ← BitVec.toNat_inj]
    omega
  show (if _ then _ else _) = if _ then _ else _
  simp only [inside]
  rfl

end Unics
