import Unics.Laws.Fs.Overlay
import Unics.Laws.Libc.Calls

/-!
# Two ways to the same file

`read` and `write` repeat the arithmetic of `fs_read` and `fs_write` with sums of their own. The sum
of position and count wraps, the growth of a block is clamped and called a success, and where a
block cannot grow `fs_write` writes what fits and `write` gives up. `io_paths_agree_iff` says, for
any file, exactly when a read copies what there is and a write does what `fs_write` does.
-/

namespace Unics

open Unics.Lib

/-- An ordinary file that one descriptor has open, that a lookup finds under a name, with every
permission, any content, and its position within its size. -/
structure OpenFile (u : Unistd) (fd : Int) (filename : Option CString) (i : Slot) : Prop where
  descriptor : getFile u fd = some i
  found : fsFindFile u.fs filename = some i
  isOpen : (u.fs.files i).isOpen = true
  notDir : (u.fs.files i).isDir = false
  permission : fsHasPerm (u.fs.files i) (fsPermRead ||| fsPermWrite ||| fsPermExec) = true
  position : (u.fs.files i).position ≤ (u.fs.files i).size
  block : ∃ block, (u.fs.files i).data = some block ∧
    block.length = (u.fs.files i).allocatedSize.toNat

/-- The bytes that a read of `count` should copy. -/
def File.toRead (f : File) (count : SizeT) : Nat :=
  min count.toNat (f.size.toNat - f.position.toNat)

/-- The copy touches no byte of the block at or beyond its allocated size. -/
def Memcpy.Within (m : Memcpy) (f : File) : Prop :=
  m.count ≠ 0 → m.offset.toNat + m.count.toNat ≤ f.allocatedSize.toNat

/-- A read copies what there is, from the position on. -/
structure ReadExact (u : Unistd) (fd : Int) (i : Slot) (count : SizeT) : Prop where
  moved : (unistdRead u fd count).moved.toNat = (u.fs.files i).toRead count
  stored : (unistdRead u fd count).stored =
    (((u.fs.files i).data.getD []).drop (u.fs.files i).position.toNat).take
      ((u.fs.files i).toRead count)
  within : ∀ m ∈ (unistdRead u fd count).copies, m.slot = i ∧ m.Within (u.fs.files i)

/-- A write does to its file what `fs_write` does, and answers the same 32 bits. -/
structure WriteAgrees (u : Unistd) (fd : Int) (filename : Option CString) (i : Slot) (buf : Buffer)
    (count : SizeT) (heap : Heap) : Prop where
  content : ((unistdWrite u fd buf count heap).after.fs.files i).content =
    ((fsWrite u.fs filename (some buf) count heap).after.files i).content
  size : ((unistdWrite u fd buf count heap).after.fs.files i).size =
    ((fsWrite u.fs filename (some buf) count heap).after.files i).size
  position : ((unistdWrite u fd buf count heap).after.fs.files i).position =
    ((fsWrite u.fs filename (some buf) count heap).after.files i).position
  answer : BitVec.ofInt 32 (unistdWrite u fd buf count heap).ret =
    (fsWrite u.fs filename (some buf) count heap).count
  within : ∀ m ∈ (unistdWrite u fd buf count heap).copies, m.slot = i ∧
    m.Within ((unistdWrite u fd buf count heap).after.fs.files i)

/-! ## The conditions -/

/-- The read is at the end of the file or its end does not wrap, and what it copies lies in the
block. -/
def ReadFits (f : File) (count : SizeT) : Prop :=
  (f.position = f.size ∨ f.position.toNat + count.toNat < 2 ^ 32) ∧
    (f.toRead count = 0 ∨ f.position.toNat + f.toRead count ≤ f.allocatedSize.toNat)

/-- The write ends within the block, or beyond the size and within the largest block with the heap
there to grow it, or it is of nothing at the end of a file that has outgrown the largest block. -/
def UnistdWriteFits (f : File) (count : SizeT) (heap : Heap) : Prop :=
  f.position.toNat + count.toNat ≤ f.allocatedSize.toNat ∨
    (f.size.toNat < f.position.toNat + count.toNat ∧
      f.position.toNat + count.toNat ≤ maxFileSize.toNat ∧ heap ≠ none) ∨
    (count = 0 ∧ f.position = f.size ∧ maxFileSize ≤ f.allocatedSize)

/-! ## Reading -/

section Read

variable {u : Unistd} {fd : Int} {filename : Option CString} {i : Slot}

/-- What a read transfers is what there is, exactly when its end does not wrap. -/
theorem unistdReadCount_eq_iff {f : File} {count : SizeT} (h : f.position < f.size) :
    (unistdReadCount f count).toNat = f.toRead count ↔
      f.position.toNat + count.toNat < 2 ^ 32 := by
  have hlt : f.position.toNat < f.size.toNat := h
  have hsize := f.size.isLt
  have hcount := count.isLt
  unfold unistdReadCount File.toRead
  split
  · next hlong =>
    have room : (f.size - f.position).toNat = f.size.toNat - f.position.toNat := by
      bv_omega
    rw [room]
    constructor
    · intro _
      bv_omega
    · intro hwrap
      have : f.size.toNat < f.position.toNat + count.toNat := by
        bv_omega
      omega
  · next hshort =>
    constructor
    · intro heq
      by_contra hwrap
      omega
    · intro hwrap
      have : f.position.toNat + count.toNat ≤ f.size.toNat := by
        bv_omega
      omega

theorem ReadExact.iff (h : OpenFile u fd filename i) (count : SizeT) :
    ReadExact u fd i count ↔ ReadFits (u.fs.files i) count := by
  have hle : (u.fs.files i).position.toNat ≤ (u.fs.files i).size.toNat := h.position
  rcases unistdRead_spec u fd count with ⟨ret, hres, hend⟩ | ⟨j, hj, -, hlt, hres⟩
  · -- at the end of the file
    have past : (u.fs.files i).size.toNat ≤ (u.fs.files i).position.toNat :=
      (hend i h.descriptor h.isOpen).1
    have none : (u.fs.files i).toRead count = 0 := by
      rw [File.toRead, Nat.sub_eq_zero_of_le past, Nat.min_zero]
    refine iff_of_true ⟨?_, ?_, ?_⟩ ⟨.inl (BitVec.eq_of_toNat_eq (by omega)), .inl none⟩
    · rw [hres, none]
      rfl
    · rw [hres, none, List.take_zero]
      rfl
    · rw [hres]
      exact fun m hm => absurd hm List.not_mem_nil
  · obtain rfl := Option.some.inj (hj.symm.trans h.descriptor)
    have exactly : (unistdReadCount (u.fs.files j) count).toNat = (u.fs.files j).toRead count ↔
        (u.fs.files j).position.toNat + count.toNat < 2 ^ 32 := unistdReadCount_eq_iff hlt
    have notEnd : (u.fs.files j).position ≠ (u.fs.files j).size := by
      intro heq
      rw [heq] at hlt
      exact absurd hlt (BitVec.lt_irrefl _)
    constructor
    · intro hexact
      have moved := hexact.moved
      rw [hres, moved_singleton] at moved
      refine ⟨.inr (exactly.mp moved), ?_⟩
      have within := hexact.within
      rw [hres] at within
      have within := (within _ List.mem_cons_self).2
      rw [← moved]
      by_cases hzero : unistdReadCount (u.fs.files j) count = 0
      · rw [hzero]
        exact .inl rfl
      · exact .inr (within hzero)
    · rintro ⟨hwrap, hroom⟩
      have moved := exactly.mpr (hwrap.resolve_left notEnd)
      refine ⟨?_, ?_, ?_⟩
      · rw [hres, moved_singleton]
        exact moved
      · rw [hres, ← moved]
        rfl
      · rw [hres]
        intro m hm
        obtain rfl := List.mem_singleton.mp hm
        refine ⟨rfl, fun hcount => ?_⟩
        show (u.fs.files j).position.toNat + (unistdReadCount (u.fs.files j) count).toNat ≤ _
        rw [moved]
        refine hroom.resolve_left fun hzero => hcount (BitVec.eq_of_toNat_eq ?_)
        exact moved.trans hzero

end Read

/-! ## Writing -/

/-- A copy of nothing. -/
theorem copyIn_zero (block : List UInt8) (offset : SizeT) (source : Buffer) :
    copyIn block offset 0 source = block := by
  refine List.ext_getElem (length_copyIn ..) fun k _ _ => ?_
  simp only [copyIn, List.getElem_mapIdx]
  refine if_neg fun h => ?_
  have : k < offset.toNat + 0 := h.2
  omega

/-- Two resizes of a file differ in the time they stamp. -/
theorem Resized.same {f g e : File} {asked : SizeT} {heap : Heap} (hg : Resized f asked heap g)
    (he : Resized f asked heap e) :
    g.data = e.data ∧ g.size = e.size ∧ g.position = e.position := by
  cases hg with
  | fits _ hle =>
    cases he with
    | fits => exact ⟨rfl, rfl, rfl⟩
    | grown _ hlt => exact absurd hlt (BitVec.not_lt.mpr hle)
  | grown _ hlt hblock =>
    cases he with
    | fits _ hle => exact absurd hlt (BitVec.not_lt.mpr hle)
    | grown _ _ hblock' =>
      obtain rfl := Option.some.inj (hblock.symm.trans hblock')
      exact ⟨rfl, rfl, rfl⟩

/-- The block of a file that a resize has grown. -/
theorem Resized.length_content {f g : File} {asked : SizeT} {heap : Heap}
    (hg : Resized f asked heap g) (hlt : f.allocatedSize < clampSize asked) (buf : Buffer)
    (n : SizeT) : (g.unistdWritten buf n).content.length =
      min (g.unistdWritten buf n).size.toNat (blockSize (clampSize asked)).toNat := by
  cases hg with
  | fits _ hle => exact absurd hlt (BitVec.not_lt.mpr hle)
  | @grown _ block _ hblock =>
    obtain ⟨junk, -, rfl⟩ := Option.map_eq_some_iff.mp hblock
    simp only [File.content, File.unistdWritten, Option.map_some, Option.getD_some,
      List.length_take, length_copyIn, List.length_map, List.length_range]

section Write

variable {u : Unistd} {fd : Int} {filename : Option CString} {i : Slot}

/-- A write of something gets past the checks of `fs_write`. -/
theorem OpenFile.target (h : OpenFile u fd filename i) {count : SizeT} (hcount : count ≠ 0) :
    WriteTarget u.fs filename count i := by
  refine ⟨hcount, h.found, h.isOpen, h.notDir, ?_⟩
  have all := h.permission
  rw [fsHasPerm, beq_iff_eq] at all ⊢
  have write : fsPermWrite = (fsPermRead ||| fsPermWrite ||| fsPermExec) &&& fsPermWrite := rfl
  rw [write, ← UInt8.and_assoc, all]

/-- The position moves by what `fs_write` says it has written. -/
theorem OpenFile.fsWrite_position (h : OpenFile u fd filename i) (buf : Buffer) (count : SizeT)
    (heap : Heap) :
    ((fsWrite u.fs filename (some buf) count heap).after.files i).position =
      (u.fs.files i).position + (fsWrite u.fs filename (some buf) count heap).count := by
  by_cases hcount : count = 0
  · subst hcount
    rw [fsWrite_zero]
    exact (BitVec.add_zero _).symm
  · have spec := fsWrite_spec (h.target hcount) buf heap
    generalize fsWrite u.fs filename (some buf) count heap = r at spec ⊢
    cases spec with
    | inPlace | cut =>
      rw [fsWriteCopy_after, Fs.setFile_self]
      rfl
    | resized _ hg =>
      rw [fsWriteCopy_after_resize, Fs.setFile_self]
      exact congrArg (· + count) hg.position
    | noRoom => exact (BitVec.add_zero _).symm

/-- A write that does not pass the end leaves the size and the length of the block. -/
theorem OpenFile.fsWrite_inside (h : OpenFile u fd filename i) {buf : Buffer} {count : SizeT}
    {heap : Heap} (hheap : heap ≠ none)
    (hend : count = 0 ∨ (u.fs.files i).position + count ≤ (u.fs.files i).size) :
    ((fsWrite u.fs filename (some buf) count heap).after.files i).size = (u.fs.files i).size ∧
      ((fsWrite u.fs filename (some buf) count heap).after.files i).content.length =
        min (u.fs.files i).size.toNat (u.fs.files i).allocatedSize.toNat := by
  obtain ⟨block, hdata, hblock⟩ := h.block
  by_cases hcount : count = 0
  · subst hcount
    rw [fsWrite_zero]
    exact ⟨rfl, by rw [← hblock]; exact length_content hdata⟩
  · have hle := hend.resolve_left hcount
    have spec := fsWrite_spec (h.target hcount) buf heap
    generalize fsWrite u.fs filename (some buf) count heap = r at spec ⊢
    have notPast := BitVec.not_lt.mpr hle
    cases spec with
    | inPlace =>
      rw [fsWriteCopy_after, Fs.setFile_self]
      have size : ((u.fs.files i).written buf count (fsGetTime u.fs).2).size =
          (u.fs.files i).size := if_neg notPast
      refine ⟨size, ?_⟩
      have data : ((u.fs.files i).written buf count (fsGetTime u.fs).2).data =
          some (copyIn block (u.fs.files i).position count buf) := by
        rw [File.written, hdata]
        rfl
      rw [length_content data, size, length_copyIn, hblock]
    | resized hgt => exact absurd hgt notPast
    | cut hnone | noRoom hnone => exact absurd hnone hheap

/-- A block that has grown in `write` is longer than what `fs_write` leaves of a file that had
outgrown its block. -/
theorem OpenFile.not_grown (h : OpenFile u fd filename i) {buf : Buffer} {count : SizeT}
    {heap : Heap} (hheap : heap ≠ none)
    (hend : count = 0 ∨ (u.fs.files i).position + count ≤ (u.fs.files i).size)
    (hroom : (u.fs.files i).allocatedSize < (u.fs.files i).size) {g : File}
    (hg : Resized (u.fs.files i) ((u.fs.files i).position + count) heap g)
    (hlt : (u.fs.files i).allocatedSize < clampSize ((u.fs.files i).position + count))
    (content : (g.unistdWritten buf count).content =
      ((fsWrite u.fs filename (some buf) count heap).after.files i).content)
    (size : (g.unistdWritten buf count).size =
      ((fsWrite u.fs filename (some buf) count heap).after.files i).size) : False := by
  obtain ⟨hsize, hlength⟩ := @OpenFile.fsWrite_inside _ _ _ _ h buf _ _ hheap hend
  have new := hg.length_content hlt buf count
  obtain ⟨hge, -⟩ := blockSize_bounds (clampSize_le ((u.fs.files i).position + count))
  rw [content, hlength, size, hsize] at new
  bv_omega

/-- A write that has made its block large enough, and does what `fs_write` does. -/
theorem OpenFile.fits_of_resized (h : OpenFile u fd filename i) {buf : Buffer} {count : SizeT}
    {heap : Heap} {g : File}
    (grows : (u.fs.files i).position + count > (u.fs.files i).allocatedSize)
    (hg : Resized (u.fs.files i) ((u.fs.files i).position + count) heap g)
    (content : (g.unistdWritten buf count).content =
      ((fsWrite u.fs filename (some buf) count heap).after.files i).content)
    (size : (g.unistdWritten buf count).size =
      ((fsWrite u.fs filename (some buf) count heap).after.files i).size)
    (within : count ≠ 0 →
      (u.fs.files i).position.toNat + count.toNat ≤ g.allocatedSize.toNat) :
    UnistdWriteFits (u.fs.files i) count heap := by
  have hle : (u.fs.files i).position.toNat ≤ (u.fs.files i).size.toNat := h.position
  have hgrown := hg
  cases hg with
  | fits now hfits =>
    by_cases hcount : count = 0
    · subst hcount
      -- the resize was clamped, and the write put the size back to the position
      have clamped : clampSize ((u.fs.files i).position + 0) = maxFileSize := by
        unfold clampSize at hfits ⊢
        split
        · rfl
        · next hsmall =>
          rw [if_neg hsmall] at hfits
          exact absurd grows (BitVec.not_lt.mpr hfits)
      rw [fsWrite_zero] at size
      have size : (if (u.fs.files i).position + 0 > clampSize ((u.fs.files i).position + 0) then
          (u.fs.files i).position + 0 else clampSize ((u.fs.files i).position + 0)) =
          (u.fs.files i).size := size
      rw [clamped] at size hfits
      refine .inr (.inr ⟨rfl, ?_, hfits⟩)
      rw [if_pos (by bv_omega)] at size
      bv_omega
    · have within : (u.fs.files i).position.toNat + count.toNat ≤
          (u.fs.files i).allocatedSize.toNat := within hcount
      exact .inl within
  | grown now hlt hblock =>
    have hheap : heap ≠ none := by
      rintro rfl
      exact absurd hblock.symm (Option.some_ne_none _)
    obtain ⟨-, hmax⟩ := blockSize_bounds (clampSize_le ((u.fs.files i).position + count))
    have never (hend : count = 0 ∨ (u.fs.files i).position + count ≤ (u.fs.files i).size) : False :=
      h.not_grown hheap hend (by rcases hend with rfl | hend <;> bv_omega) hgrown hlt content size
    have hcount : count ≠ 0 := fun hzero => never (.inl hzero)
    have within : (u.fs.files i).position.toNat + count.toNat ≤
        (blockSize (clampSize ((u.fs.files i).position + count))).toNat := within hcount
    have hmax : (blockSize (clampSize ((u.fs.files i).position + count))).toNat ≤
        maxFileSize.toNat := hmax
    refine .inr (.inl ⟨?_, within.trans hmax, hheap⟩)
    by_contra hpast
    exact never (.inr (by bv_omega))

/-- A write that does what `fs_write` does meets the condition. -/
theorem WriteAgrees.fits (h : OpenFile u fd filename i) {buf : Buffer} {count : SizeT} {heap : Heap}
    (hw : WriteAgrees u fd filename i buf count heap) :
    UnistdWriteFits (u.fs.files i) count heap := by
  obtain ⟨content, size, position, answer, within⟩ := hw
  rw [h.fsWrite_position] at position
  have spec := unistdWrite_spec h.descriptor h.isOpen buf count heap
  generalize unistdWrite u fd buf count heap = r at spec content size position answer within
  cases spec with
  | inPlace fits =>
    rw [unistdWriteCopy_after, Unistd.setFile, Fs.setFile_self] at within
    have within := (within _ List.mem_cons_self).2
    left
    by_cases hcount : count = 0
    · subst hcount
      show (u.fs.files i).position.toNat + 0 ≤ _
      bv_omega
    · exact within hcount
  | @resized g grows _ hg =>
    rw [unistdWriteCopy_after_resize] at content size within
    dsimp only at content size within
    rw [Fs.setFile_self] at content size within
    refine h.fits_of_resized grows hg content size fun hcount => ?_
    have within : ((u.fs.tick.setFile i g).files i).position.toNat + count.toNat ≤
        g.allocatedSize.toNat := (within _ List.mem_cons_self).2 hcount
    rw [Fs.setFile_self, hg.position] at within
    exact within
  | refused =>
    -- nothing has moved, so `fs_write` wrote nothing, and `write` answers -1
    have none : (fsWrite u.fs filename (some buf) count heap).count = 0 := by
      have position : (u.fs.files i).position = (u.fs.files i).position +
        (fsWrite u.fs filename (some buf) count heap).count := position
      bv_omega
    have answer : BitVec.ofInt 32 (-1) = 0 := answer.trans none
    exact absurd answer (by decide)

/-- The two copies leave the same content when they meet the same bytes and end at the same size. -/
theorem written_content {g e : File} {buf : Buffer} {count : SizeT} {now : BitVec 64}
    (hdata : e.data = g.data) (hposition : e.position = g.position)
    (hsize : (e.written buf count now).size = (g.unistdWritten buf count).size) :
    (g.unistdWritten buf count).content = (e.written buf count now).content := by
  unfold File.content
  rw [hsize]
  simp only [File.unistdWritten, File.written, hdata, hposition]

/-- A copy of nothing leaves the content, if the size is the same. -/
theorem content_of_nothing {f g : File} {buf : Buffer} {block : List UInt8}
    (hdata : f.data = some block) (gdata : g.data = f.data)
    (hsize : (g.unistdWritten buf 0).size = f.size) :
    (g.unistdWritten buf 0).content = f.content := by
  unfold File.content
  rw [hsize]
  simp only [File.unistdWritten, gdata, hdata, Option.map_some, copyIn_zero]

/-- A write through a descriptor that copies, beside what `fs_write` leaves and answers. -/
theorem WriteAgrees.of_files {g e : File} {buf : Buffer} {count : SizeT} {heap : Heap}
    {copies : List Memcpy} {v : Unistd}
    (hres : unistdWrite u fd buf count heap = ⟨v, count.toInt, [], copies⟩)
    (hcopies : ∀ m ∈ copies, m.slot = i ∧ m.Within (g.unistdWritten buf count))
    (hfile : v.fs.files i = g.unistdWritten buf count)
    (hafter : (fsWrite u.fs filename (some buf) count heap).after.files i = e)
    (hcount : (fsWrite u.fs filename (some buf) count heap).count = count)
    (hcontent : (g.unistdWritten buf count).content = e.content)
    (hsize : (g.unistdWritten buf count).size = e.size)
    (hposition : (g.unistdWritten buf count).position = e.position) :
    WriteAgrees u fd filename i buf count heap := by
  constructor
  · rw [hres, hafter, hfile, hcontent]
  · rw [hres, hafter, hfile, hsize]
  · rw [hres, hafter, hfile, hposition]
  · rw [hres, hcount]
    exact BitVec.ofInt_toInt
  · rw [hres, hfile]
    exact hcopies

/-- A write that ends within its block copies in place. -/
theorem OpenFile.unistdWrite_of_fits (h : OpenFile u fd filename i) (buf : Buffer) {count : SizeT}
    (heap : Heap) (hend : (u.fs.files i).position + count ≤ (u.fs.files i).allocatedSize) :
    unistdWrite u fd buf count heap = unistdWriteCopy u i buf count := by
  have spec := unistdWrite_spec h.descriptor h.isOpen buf count heap
  generalize unistdWrite u fd buf count heap = r at spec ⊢
  cases spec with
  | inPlace => rfl
  | resized grows => exact absurd grows (BitVec.not_lt.mpr hend)
  | refused refused => exact absurd refused (not_growthRefused_of_fits hend)

/-- Within its block `fs_write` copies too, and ends at the size where `write` ends. -/
theorem OpenFile.fsWrite_of_fits (h : OpenFile u fd filename i) (buf : Buffer) {count : SizeT}
    (heap : Heap) (hcount : count ≠ 0)
    (hend : (u.fs.files i).position + count ≤ (u.fs.files i).allocatedSize) :
    ∃ (e : File) (now : BitVec 64),
      (fsWrite u.fs filename (some buf) count heap).after.files i = e.written buf count now ∧
      (fsWrite u.fs filename (some buf) count heap).count = count ∧
      e.data = (u.fs.files i).data ∧ e.position = (u.fs.files i).position ∧
      (e.written buf count now).size = ((u.fs.files i).unistdWritten buf count).size := by
  have hclamp := clampSize_le_asked ((u.fs.files i).position + count)
  have spec := fsWrite_spec (h.target hcount) buf heap
  generalize fsWrite u.fs filename (some buf) count heap = r at spec ⊢
  cases spec with
  | inPlace =>
    exact ⟨u.fs.files i, _, Fs.setFile_self .., rfl, rfl, rfl, rfl⟩
  | @resized g hpast hg =>
    refine ⟨g, (fsGetTime u.fs.tick).2, ?_, rfl, ?_⟩
    · rw [fsWriteCopy_after_resize, Fs.setFile_self]
    · cases hg with
      | fits =>
        -- the resize has room, and both end at the sum
        refine ⟨rfl, rfl, ?_⟩
        show (if (u.fs.files i).position + count > clampSize ((u.fs.files i).position + count)
          then (u.fs.files i).position + count
          else clampSize ((u.fs.files i).position + count)) =
            if (u.fs.files i).position + count > (u.fs.files i).size
            then (u.fs.files i).position + count else (u.fs.files i).size
        rw [if_pos hpast]
        split
        · rfl
        · next hclamped => exact BitVec.le_antisymm hclamp (BitVec.not_lt.mp hclamped)
      | grown _ hlt => exact absurd (BitVec.le_trans hclamp hend) (BitVec.not_le.mpr hlt)
  | cut _ hlt | noRoom _ hlt =>
    exact absurd (BitVec.le_trans hclamp hend) (BitVec.not_le.mpr hlt)

/-- A write that ends within the block, beside `fs_write`: both copy the same bytes in place. -/
theorem OpenFile.agrees_inPlace (h : OpenFile u fd filename i) {buf : Buffer} {count : SizeT}
    {heap : Heap} (hfits : (u.fs.files i).position.toNat + count.toNat ≤
      (u.fs.files i).allocatedSize.toNat) : WriteAgrees u fd filename i buf count heap := by
  have hle : (u.fs.files i).position ≤ (u.fs.files i).size := h.position
  have hend : (u.fs.files i).position + count ≤ (u.fs.files i).allocatedSize := by
    bv_omega
  have hres := h.unistdWrite_of_fits buf heap hend
  have hcopies : ∀ m ∈ (unistdWriteCopy u i buf count).copies, m.slot = i ∧
      m.Within ((u.fs.files i).unistdWritten buf count) := by
    intro m hm
    obtain rfl := List.mem_singleton.mp hm
    exact ⟨rfl, fun _ => hfits⟩
  have of_files := fun e => @WriteAgrees.of_files _ _ filename _ (u.fs.files i) e _ _ _ _ _
    hres hcopies (Fs.setFile_self ..)
  by_cases hcount : count = 0
  · subst hcount
    obtain ⟨block, hdata, -⟩ := h.block
    have same := fsWrite_zero u.fs filename (some buf) heap
    have hsize : ((u.fs.files i).unistdWritten buf 0).size = (u.fs.files i).size :=
      if_neg (by bv_omega)
    exact of_files (u.fs.files i) (by rw [same]; rfl) (by rw [same]; rfl)
      (content_of_nothing hdata rfl hsize) hsize (BitVec.add_zero _)
  · obtain ⟨e, now, hafter, hanswer, hdata, hposition, hsize⟩ :=
      h.fsWrite_of_fits buf heap hcount hend
    refine of_files _ hafter hanswer (written_content hdata hposition hsize) hsize.symm ?_
    show (u.fs.files i).position + count = e.position + count
    rw [hposition]

/-- A write that ends past its block resizes it and copies, unless a larger block is refused. -/
theorem OpenFile.unistdWrite_of_grows (h : OpenFile u fd filename i) (buf : Buffer) {count : SizeT}
    {heap : Heap} (grows : (u.fs.files i).position + count > (u.fs.files i).allocatedSize)
    (granted : heap ≠ none ∨
      clampSize ((u.fs.files i).position + count) ≤ (u.fs.files i).allocatedSize) :
    ∃ g, Resized (u.fs.files i) ((u.fs.files i).position + count) heap g ∧
      unistdWrite u fd buf count heap =
        unistdWriteCopy { u with fs := u.fs.tick.setFile i g } i buf count := by
  have spec := unistdWrite_spec h.descriptor h.isOpen buf count heap
  generalize unistdWrite u fd buf count heap = r at spec ⊢
  cases spec with
  | inPlace fits => exact absurd grows (BitVec.not_lt.mpr fits)
  | resized _ _ hg => exact ⟨_, hg, rfl⟩
  | refused refused =>
    rcases refused.2 with hdir | ⟨hnone, hlt⟩
    · exact absurd (h.notDir.symm.trans hdir) Bool.noConfusion
    · rcases granted with hheap | hle
      · exact absurd hnone hheap
      · exact absurd hlt (BitVec.not_lt.mpr hle)

/-- A write of `fs_write` that ends past the file resizes and copies, if the heap has a block. -/
theorem OpenFile.fsWrite_of_past (h : OpenFile u fd filename i) (buf : Buffer) {count : SizeT}
    {heap : Heap} (hcount : count ≠ 0)
    (past : (u.fs.files i).position + count > (u.fs.files i).size) (hheap : heap ≠ none) :
    ∃ e, Resized (u.fs.files i) ((u.fs.files i).position + count) heap e ∧
      fsWrite u.fs filename (some buf) count heap =
        fsWriteCopy (u.fs.tick.setFile i e) i buf count := by
  have spec := fsWrite_spec (h.target hcount) buf heap
  generalize fsWrite u.fs filename (some buf) count heap = r at spec ⊢
  cases spec with
  | inPlace fits => exact absurd past (BitVec.not_lt.mpr fits)
  | resized _ hg => exact ⟨_, hg, rfl⟩
  | cut hnone | noRoom hnone => exact absurd hnone hheap

/-- A write that grows its block, beside `fs_write`: both resize alike and copy the same bytes. -/
theorem OpenFile.agrees_resized (h : OpenFile u fd filename i) {buf : Buffer} {count : SizeT}
    {heap : Heap} (hpast : (u.fs.files i).size.toNat < (u.fs.files i).position.toNat + count.toNat)
    (hmax : (u.fs.files i).position.toNat + count.toNat ≤ maxFileSize.toNat)
    (hgrows : (u.fs.files i).allocatedSize.toNat < (u.fs.files i).position.toNat + count.toNat)
    (hheap : heap ≠ none) : WriteAgrees u fd filename i buf count heap := by
  have hle : (u.fs.files i).position.toNat ≤ (u.fs.files i).size.toNat := h.position
  rw [maxFileSize_toNat] at hmax
  have hcount : count ≠ 0 := by
    rintro rfl
    have : (u.fs.files i).size.toNat < (u.fs.files i).position.toNat + 0 := hpast
    omega
  have grows : (u.fs.files i).position + count > (u.fs.files i).allocatedSize := by
    bv_omega
  have past : (u.fs.files i).position + count > (u.fs.files i).size := by
    bv_omega
  have clamped : clampSize ((u.fs.files i).position + count) = (u.fs.files i).position + count := by
    refine clampSize_of_le ?_
    unfold maxFileSize
    bv_omega
  obtain ⟨g, hg, hres⟩ := h.unistdWrite_of_grows buf grows (.inl hheap)
  obtain ⟨e, he, hres'⟩ := h.fsWrite_of_past buf hcount past hheap
  obtain ⟨hdata, hsize, hposition⟩ := he.same hg
  have size : (e.written buf count (fsGetTime u.fs.tick).2).size =
      (g.unistdWritten buf count).size := by
    simp only [File.written, File.unistdWritten, hposition, hsize]
  refine WriteAgrees.of_files (g := g) (e := e.written buf count (fsGetTime u.fs.tick).2) hres
    ?_ ?_ ?_ ?_ (written_content hdata hposition size) size.symm ?_
  · intro m hm
    obtain rfl := List.mem_singleton.mp hm
    refine ⟨rfl, fun _ => ?_⟩
    show ((u.fs.tick.setFile i g).files i).position.toNat + count.toNat ≤ g.allocatedSize.toNat
    rw [Fs.setFile_self, hg.position]
    cases hg with
    | fits _ hfits =>
      rw [clamped] at hfits
      exact absurd grows (BitVec.not_lt.mpr hfits)
    | grown =>
      obtain ⟨hge, -⟩ := blockSize_bounds (clampSize_le ((u.fs.files i).position + count))
      rw [clamped] at hge ⊢
      show _ ≤ (blockSize ((u.fs.files i).position + count)).toNat
      bv_omega
  · have after := unistdWriteCopy_after_resize u i g buf count
    exact (congrArg (fun v : Unistd => v.fs.files i) after).trans (Fs.setFile_self ..)
  · rw [hres', fsWriteCopy_after_resize, Fs.setFile_self]
  · rw [hres']
    rfl
  · show g.position + count = e.position + count
    rw [hposition]

/-- A write of nothing at the end of a file that has outgrown the largest block. -/
theorem OpenFile.agrees_beyond (h : OpenFile u fd filename i) {buf : Buffer} {heap : Heap}
    (hend : (u.fs.files i).position = (u.fs.files i).size)
    (hmax : maxFileSize ≤ (u.fs.files i).allocatedSize)
    (hbeyond : (u.fs.files i).allocatedSize < (u.fs.files i).position) :
    WriteAgrees u fd filename i buf 0 heap := by
  obtain ⟨block, hdata, -⟩ := h.block
  have hclamp : clampSize ((u.fs.files i).position + 0) ≤ (u.fs.files i).allocatedSize :=
    BitVec.le_trans (clampSize_le _) hmax
  have sum : (u.fs.files i).position + 0 = (u.fs.files i).position := BitVec.add_zero _
  have grows : (u.fs.files i).position + 0 > (u.fs.files i).allocatedSize := by
    rw [sum]
    exact hbeyond
  have granted : heap ≠ none ∨ _ := .inr hclamp
  obtain ⟨g, hg, hres⟩ := h.unistdWrite_of_grows buf grows granted
  have kept : g.data = (u.fs.files i).data ∧ g.size = clampSize ((u.fs.files i).position + 0) := by
    cases hg with
    | fits => exact ⟨rfl, rfl⟩
    | grown _ hlt => exact absurd hlt (BitVec.not_lt.mpr hclamp)
  have gposition := hg.position
  obtain ⟨gdata, gsize⟩ := kept
  have same := fsWrite_zero u.fs filename (some buf) heap
  have hsize : (g.unistdWritten buf 0).size = (u.fs.files i).size := by
    show (if g.position + 0 > g.size then g.position + 0 else g.size) = (u.fs.files i).size
    rw [gposition, gsize, if_pos (by bv_omega), sum, hend]
  have position : (g.unistdWritten buf 0).position = (u.fs.files i).position := by
    show g.position + 0 = _
    rw [gposition, sum]
  refine WriteAgrees.of_files hres ?_ ?_ (by rw [same]; rfl) (by rw [same]; rfl)
    (content_of_nothing hdata gdata hsize) hsize position
  · intro m hm
    obtain rfl := List.mem_singleton.mp hm
    exact ⟨rfl, fun hzero => absurd rfl hzero⟩
  · have after := unistdWriteCopy_after_resize u i g buf 0
    exact (congrArg (fun v : Unistd => v.fs.files i) after).trans (Fs.setFile_self ..)

theorem WriteAgrees.iff (h : OpenFile u fd filename i) (buf : Buffer) (count : SizeT)
    (heap : Heap) : WriteAgrees u fd filename i buf count heap ↔
      UnistdWriteFits (u.fs.files i) count heap := by
  refine ⟨WriteAgrees.fits h, ?_⟩
  by_cases hfits : (u.fs.files i).position.toNat + count.toNat ≤ (u.fs.files i).allocatedSize.toNat
  · exact fun _ => h.agrees_inPlace hfits
  · rintro (hfits' | ⟨hpast, hmax, hheap⟩ | ⟨rfl, hend, hmax⟩)
    · exact absurd hfits' hfits
    · exact h.agrees_resized hpast hmax (Nat.not_le.mp hfits) hheap
    · refine h.agrees_beyond hend hmax ?_
      have hfits : ¬ (u.fs.files i).position.toNat + 0 ≤ _ := hfits
      bv_omega

end Write

/-! ## Both -/

/-- For any open file and any count, a read copies exactly what there is and a write does what
`fs_write` does, both within the block, exactly when the read and the write fit. -/
theorem io_paths_agree_iff {u : Unistd} {fd : Int} {filename : Option CString} {i : Slot}
    (h : OpenFile u fd filename i) (buf : Buffer) (count : SizeT) (heap : Heap) :
    (ReadExact u fd i count ∧ WriteAgrees u fd filename i buf count heap) ↔
      ReadFits (u.fs.files i) count ∧ UnistdWriteFits (u.fs.files i) count heap :=
  and_congr (ReadExact.iff h count) (WriteAgrees.iff h buf count heap)

/-- A file `a` of ten bytes in slot 1, under descriptor 3 and at position 1. -/
def tenBytes : Unistd where
  fs :=
    { fsInit fsStart with
      fileCount := 2
      freeList := fun i => decide (1 < i.val)
      files := Function.update (fsInit fsStart).files 1
        { File.zero with
          name := .char 97
          data := some (List.replicate 512 120)
          size := 10
          allocatedSize := 512
          isOpen := true
          position := 1
          permissions := 7
          parent := some 0 } }
  fdTable := Function.update (fun _ => none) 3 (some 1)

theorem openFile_tenBytes : OpenFile tenBytes 3 (some (.char 97)) 1 where
  descriptor := by decide +kernel
  found := by decide +kernel
  isOpen := by decide +kernel
  notDir := by decide +kernel
  permission := by decide +kernel
  position := by decide +kernel
  block := ⟨_, rfl, List.length_replicate⟩

/-- Nine bytes are there to read, and twenty to write fit the block. -/
theorem io_paths_agree_twenty :
    ReadExact tenBytes 3 1 20 ∧ WriteAgrees tenBytes 3 (some (.char 97)) 1 (fun _ => 121) 20 none :=
  (io_paths_agree_iff openFile_tenBytes (fun _ => 121) 20 none).mpr
    ⟨⟨.inr (by decide +kernel), .inr (by decide +kernel)⟩, .inl (by decide +kernel)⟩

/-- A read whose end wraps copies four gigabytes of a file of ten. -/
theorem io_paths_disagree : ¬ ReadExact tenBytes 3 1 0xffffffff := by
  intro h
  have moved := h.moved
  revert moved
  decide +kernel

end Unics
