import Unics.Laws.Fs.Blocks

/-!
# Writing into a file

`fs_write` grows the block first, and where the heap refuses it writes what the old block still
holds. On each of these ways the bytes written lie over the old content at the old position, and
nothing else of the file is lost. A block that grows is another block with another
`allocated_size`, and a call that writes nothing leaves everything as it is, also where the position
is beyond the size.

`fsWrite_overlays` is the result, for every state that calls from `fs_init` reach.
-/

namespace Unics

open Unics.Lib

/-! ## Contents -/

/-- The bytes of a file: its block as far as its size goes. -/
def File.content (f : File) : List UInt8 := (f.data.getD []).take f.size.toNat

theorem length_copyIn (block : List UInt8) (offset count : SizeT) (source : Buffer) :
    (copyIn block offset count source).length = block.length := List.length_mapIdx

theorem length_content {f : File} {block : List UInt8} (hdata : f.data = some block) :
    f.content.length = min f.size.toNat block.length := by
  rw [File.content, hdata, List.length_take]
  rfl

theorem getElem?_content {f : File} {block : List UInt8} (hdata : f.data = some block) {j : Nat}
    (hj : j < f.size.toNat) : f.content[j]? = block[j]? := by
  rw [File.content, hdata, Option.getD_some, List.getElem?_take, if_pos hj]

/-- A byte of a block after a copy into it. -/
theorem getElem?_copyIn (block : List UInt8) (offset count : SizeT) (source : Buffer) (j : Nat) :
    (copyIn block offset count source)[j]? = block[j]?.map fun b =>
      if offset.toNat ≤ j ∧ j < offset.toNat + count.toNat then source (j - offset.toNat) else b :=
  List.getElem?_mapIdx

/-- The copied bytes. -/
theorem getElem?_copyIn_inside {block : List UInt8} {offset count : SizeT} {source : Buffer}
    (hfit : offset.toNat + count.toNat ≤ block.length) {j : Nat} (hj : j < count.toNat) :
    (copyIn block offset count source)[offset.toNat + j]? = some (source j) := by
  have here : offset.toNat + j < block.length := by omega
  rw [getElem?_copyIn, List.getElem?_eq_getElem here, Option.map_some, if_pos (by omega),
    Nat.add_sub_cancel_left]

/-- The bytes beside the copied ones. -/
theorem getElem?_copyIn_outside {block : List UInt8} {offset count : SizeT} {source : Buffer}
    {j : Nat} (hj : j < offset.toNat ∨ offset.toNat + count.toNat ≤ j) :
    (copyIn block offset count source)[j]? = block[j]? := by
  have out : ¬ (offset.toNat ≤ j ∧ j < offset.toNat + count.toNat) := by omega
  rw [getElem?_copyIn]
  simp only [if_neg out, Option.map_id']

/-- What has been copied in is copied out again. -/
theorem copyOut_copyIn {block : List UInt8} {offset count : SizeT} {source : Buffer}
    (hfit : offset.toNat + count.toNat ≤ block.length) :
    copyOut (copyIn block offset count source) offset count =
      (List.range count.toNat).map source := by
  refine List.ext_getElem? fun j => ?_
  rw [copyOut, List.getElem?_take, List.getElem?_drop, List.getElem?_map]
  by_cases hj : j < count.toNat
  · rw [if_pos hj, getElem?_copyIn_inside hfit hj, List.getElem?_range hj, Option.map_some]
  · rw [if_neg hj, List.getElem?_eq_none (by rw [List.length_range]; omega), Option.map_none]

/-- `new` is `old` with the first `n` bytes of a buffer laid over it at `p`, extended if needed. -/
structure Overlaid (old : List UInt8) (p n : Nat) (buffer : Buffer) (new : List UInt8) : Prop where
  length : new.length = max old.length (p + n)
  laid : ∀ j < n, new[p + j]? = some (buffer j)
  kept : ∀ j < old.length, j < p ∨ p + n ≤ j → new[j]? = old[j]?

/-! ## What files keep -/

/-- What every file keeps, also through a write that asks for more than a block can be: only such a
write takes a size beyond its block, and it has grown the block to the largest first. -/
structure File.Held (f : File) : Prop where
  closed : f.isDir = true → f.isOpen = false
  block : f.isDir = false → ∃ block, f.data = some block ∧ block.length = f.allocatedSize.toNat
  size : f.size ≤ f.allocatedSize ∨ f.allocatedSize = maxFileSize
  allocated : f.allocatedSize ≤ maxFileSize

theorem File.Bounded.held {f : File} (h : f.Bounded) (hclosed : f.isDir = true → f.isOpen = false) :
    f.Held :=
  ⟨hclosed, h.block, .inl h.size, h.allocated⟩

theorem Resized.held {f g : File} {asked : SizeT} {heap : Heap} (h : Resized f asked heap g)
    (hf : f.Held) : g.Held := by
  cases h with
  | fits now hle => exact ⟨hf.closed, hf.block, .inl hle, hf.allocated⟩
  | grown now hlt hblock =>
    obtain ⟨hge, hle⟩ := blockSize_bounds (clampSize_le asked)
    refine ⟨hf.closed, fun _ => ⟨_, rfl, ?_⟩, .inl hge, hle⟩
    obtain ⟨junk, -, rfl⟩ := Option.map_eq_some_iff.mp hblock
    rw [List.length_map, List.length_range]

theorem FileMove.held {f g : File} (h : FileMove f g) (hf : f.Held) : g.Held := by
  cases h with
  | opened hdir => exact ⟨fun h => absurd (hdir.symm.trans h) Bool.noConfusion, hf.block, hf.size,
      hf.allocated⟩
  | closed => exact ⟨fun _ => rfl, hf.block, hf.size, hf.allocated⟩
  | moved => exact ⟨hf.closed, hf.block, hf.size, hf.allocated⟩

theorem File.Held.written {f : File} (hf : f.Held) {n : SizeT}
    (hsize : f.position + n ≤ f.allocatedSize ∨ f.position + n ≤ f.size ∨
      f.allocatedSize = maxFileSize) (buffer : Buffer) (now : BitVec 64) :
    (f.written buffer n now).Held := by
  refine ⟨hf.closed, fun hdir => ?_, ?_, hf.allocated⟩
  · obtain ⟨block, hdata, hlength⟩ := hf.block hdir
    refine ⟨copyIn block f.position n buffer, ?_, (length_copyIn ..).trans hlength⟩
    show f.data.map (fun block => copyIn block f.position n buffer) = _
    rw [hdata, Option.map_some]
  · show (if f.position + n > f.size then f.position + n else f.size) ≤ f.allocatedSize ∨ _
    rcases hsize with hfit | hinside | hmax
    · split
      · exact .inl hfit
      · exact hf.size
    · rw [if_neg (BitVec.not_lt.mpr hinside)]
      exact hf.size
    · exact .inr hmax

theorem NewFile.held {s : Fs} {name : CString} {f : File} (h : NewFile s name f) : f.Held :=
  h.bounded.held fun _ => h.closed

/-- Every live file is held. -/
def Fs.Held (s : Fs) : Prop := ∀ i f, s.live i = some f → f.Held

theorem Fs.Held.replace {s t : Fs} (h : s.Held) {i : Slot} {g : File} (hg : g.Held)
    (hlive : t.live = Function.update s.live i (some g)) : t.Held := by
  intro j e he
  rcases filled_iff.mp (hlive ▸ he) with ⟨rfl, rfl⟩ | ⟨_, he⟩
  · exact hg
  · exact h j e he

theorem Fs.Held.effect {R : File → File → Prop} {makes removes : Option CString}
    (hR : ∀ f g, R f g → f.Held → g.Held) {s t : Fs} (h : s.Held)
    (he : FsEffect R makes removes s t) : t.Held := by
  cases he with
  | idle live | enter _ live => intro j e hj; exact h j e (live ▸ hj)
  | touch old change live => exact h.replace (hR _ _ change (h _ _ old)) live
  | insert _ _ _ _ new live => exact h.replace new.held live
  | remove _ _ _ _ _ _ live => intro j e hj; exact h j e (cleared_iff.mp (live ▸ hj)).2

theorem WriteEnd.held {s : Fs} {i : Slot} {buffer : Buffer} {n : SizeT} {heap : Heap}
    {r : FsTransfer} (h : WriteEnd s i buffer n heap r) (hs : s.Held)
    (hfree : s.freeList i = false) : r.after.Held := by
  have hf := hs i _ (Fs.live_of_used hfree)
  cases h with
  | inPlace hle =>
    exact hs.replace (hf.written (.inr (.inl hle)) buffer (fsGetTime s).2)
      (Fs.live_store rfl rfl hfree)
  | @resized g hgt hg =>
    rw [fsWriteCopy_after_resize]
    refine hs.replace ((hg.held hf).written ?_ buffer _) (Fs.live_store rfl rfl hfree)
    -- what was asked for is what the block has grown to, unless it was clamped
    rw [hg.position]
    by_cases hmax : (s.files i).position + n > maxFileSize
    · have clamped : clampSize ((s.files i).position + n) = maxFileSize := if_pos hmax
      refine .inr (.inr (BitVec.le_antisymm (hg.held hf).allocated ?_))
      cases hg with
      | fits now hle => exact clamped ▸ hle
      | grown => exact clamped ▸ (blockSize_bounds (clampSize_le _)).1
    · have asked := clampSize_of_le (BitVec.not_lt.mp hmax)
      refine .inr (.inl ?_)
      cases hg <;> exact BitVec.le_of_eq asked.symm
  | cut hheap hlt hroom =>
    refine hs.replace (hf.written (.inl ?_) buffer (fsGetTime s).2) (Fs.live_store rfl rfl hfree)
    have := lesser_le n ((s.files i).allocatedSize - (s.files i).position)
    bv_omega
  | noRoom => exact hs

theorem Fs.Held.step {s : Fs} (h : s.Held) (c : FsCall) : (fsStep s c).Held := by
  cases c with
  | resizeFile file newSize heap =>
    refine h.effect (fun f g hg hf => ?_) (fsResizeFile_effect s file newSize heap)
    obtain ⟨-, _, _, hg⟩ := hg
    exact hg.held hf
  | write filename buffer size heap =>
    cases buffer with
    | none => exact h
    | some buffer =>
      by_cases htarget : ∃ i, WriteTarget s filename size i
      · obtain ⟨i, target⟩ := htarget
        exact (fsWrite_spec target buffer heap).held h (fsFindFile_live target.found)
      · rw [fsStep, fsWrite_no_target (not_exists.mp htarget)]
        exact h
  | _ => exact h.effect (fun _ _ => FileMove.held) (fsStep_move s _ trivial)

theorem fsInit_held (s : Fs) : (fsInit s).Held := by
  intro i f hf
  refine (fsInit_bounded s i f hf).held fun _ => ?_
  obtain ⟨-, rfl⟩ := fsInit_only hf
  rfl

/-- Whatever calls are made, every live file is held. -/
theorem fsRun_held (s₀ : Fs) (calls : List FsCall) : (runFrom fsStep (fsInit s₀) calls).Held :=
  (everyStep_true fsStep (fsInit s₀) calls).invariant (fun _ c h _ => h.step c) (fsInit_held s₀)

/-! ## One write -/

/-- The file that a write copies into, beside the file it was called on: the block may have grown,
with the old bytes in front. -/
structure File.Grown (f g : File) : Prop where
  same : g = { f with
    data := g.data
    size := g.size
    allocatedSize := g.allocatedSize
    modifiedTime := g.modifiedTime }
  blocks : ∃ old new, f.data = some old ∧ g.data = some new ∧
    old.length = f.allocatedSize.toNat ∧ new.length = g.allocatedSize.toNat ∧
    old.length ≤ new.length ∧ ∀ j < old.length, new[j]? = old[j]?

theorem File.Grown.position {f g : File} (h : f.Grown g) : g.position = f.position := by
  have position := congrArg File.position h.same
  exact position

theorem File.Held.grown_self {f : File} (hf : f.Held) (hdir : f.isDir = false) : f.Grown f := by
  obtain ⟨block, hdata, hlength⟩ := hf.block hdir
  exact ⟨rfl, block, block, hdata, hdata, hlength, hlength, Nat.le_refl _, fun _ _ => rfl⟩

theorem Resized.grown_file {f g : File} {asked : SizeT} {heap : Heap} (h : Resized f asked heap g)
    (hf : f.Held) (hdir : f.isDir = false) : f.Grown g := by
  obtain ⟨old, hdata, hold⟩ := hf.block hdir
  cases h with
  | fits => exact ⟨rfl, old, old, hdata, hdata, hold, hold, Nat.le_refl _, fun _ _ => rfl⟩
  | grown now hlt hblock =>
    obtain ⟨hge, -⟩ := blockSize_bounds (clampSize_le asked)
    obtain ⟨junk, -, rfl⟩ := Option.map_eq_some_iff.mp hblock
    have longer : old.length ≤ (blockSize (clampSize asked)).toNat := by
      bv_omega
    have length : ((List.range (blockSize (clampSize asked)).toNat).map fun i =>
        (f.data.getD []).getD i (junk i)).length = (blockSize (clampSize asked)).toNat := by
      rw [List.length_map, List.length_range]
    refine ⟨rfl, old, _, hdata, rfl, hold, length, length.symm ▸ longer, fun j hj => ?_⟩
    rw [List.getElem?_map, List.getElem?_range (Nat.lt_of_lt_of_le hj longer), Option.map_some,
      hdata, Option.getD_some, List.getD_eq_getElem?_getD, List.getElem?_eq_getElem hj,
      Option.getD_some]

/-- How far a write goes: `k` bytes are copied into the file `g`, at the old position. -/
structure WriteLays (s : Fs) (i : Slot) (n : SizeT) (heap : Heap) (buffer : Buffer) (r : FsTransfer)
    (g : File) (k : SizeT) (now : BitVec 64) : Prop where
  grown : (s.files i).Grown g
  nonzero : k ≠ 0
  le : k ≤ n
  full : k = n ∨ heap = none ∧
    (s.files i).allocatedSize.toNat < (s.files i).position.toNat + n.toNat
  fits : g.position.toNat + k.toNat ≤ g.allocatedSize.toNat
  size : (g.written buffer k now).size.toNat =
    max (s.files i).size.toNat ((s.files i).position.toNat + k.toNat)
  allocated : g.allocatedSize = (s.files i).allocatedSize ∨
    (s.files i).allocatedSize.toNat < (s.files i).position.toNat + k.toNat ∧
      g.allocatedSize = blockSize ((s.files i).position + k)
  count : r.count = k
  after : ∃ t : Fs, t.files = s.files ∧ t.freeList = s.freeList ∧ SameGlobals s t ∧
    r.after = t.setFile i (g.written buffer k now)

section Lays

variable {s : Fs} {i : Slot} {buffer : Buffer} {n : SizeT} {heap : Heap}

theorem writeLays_inPlace (hf : (s.files i).Held) (hdir : (s.files i).isDir = false) (hn : n ≠ 0)
    (hmax : (s.files i).position.toNat + n.toNat ≤ maxFileSize.toNat)
    (hle : (s.files i).position + n ≤ (s.files i).size) :
    WriteLays s i n heap buffer (fsWriteCopy s i buffer n) (s.files i) n (fsGetTime s).2 := by
  have maximum := maxFileSize_toNat
  have allocated := hf.allocated
  have held := hf.size
  refine ⟨hf.grown_self hdir, hn, BitVec.le_refl n, .inl rfl, ?_, ?_, .inl rfl, rfl, s.tick, rfl,
    rfl, ⟨rfl, rfl, rfl⟩, rfl⟩
  · rcases held with held | held <;> bv_omega
  · show (if (s.files i).position + n > (s.files i).size then (s.files i).position + n
      else (s.files i).size).toNat = _
    rw [if_neg (BitVec.not_lt.mpr hle)]
    bv_omega

theorem writeLays_resized (hf : (s.files i).Held) (hdir : (s.files i).isDir = false) (hn : n ≠ 0)
    (hmax : (s.files i).position.toNat + n.toNat ≤ maxFileSize.toNat) {g : File}
    (hgt : (s.files i).position + n > (s.files i).size)
    (hg : Resized (s.files i) ((s.files i).position + n) heap g) :
    WriteLays s i n heap buffer (fsWriteCopy (s.tick.setFile i g) i buffer n) g n
      (fsGetTime s.tick).2 := by
  have asked := clampSize_add hmax
  have maximum := maxFileSize_toNat
  have position := hg.position
  have size : g.size.toNat = (s.files i).position.toNat + n.toNat := by
    cases hg <;> exact asked
  refine ⟨hg.grown_file hf hdir, hn, BitVec.le_refl n, .inl rfl, ?_, ?_, ?_, rfl, s.tick.tick, rfl,
    rfl, ⟨rfl, rfl, rfl⟩, fsWriteCopy_after_resize ..⟩
  · rw [position]
    cases hg with
    | fits now hle =>
      rw [← asked]
      exact hle
    | grown =>
      rw [← asked]
      exact (blockSize_bounds (clampSize_le _)).1
  · show (if g.position + n > g.size then g.position + n else g.size).toNat = _
    rw [position]
    split <;> bv_omega
  · cases hg with
    | fits => exact .inl rfl
    | grown now hlt =>
      refine .inr ⟨?_, ?_⟩
      · rw [← asked]
        exact hlt
      · show blockSize (clampSize _) = _
        rw [clampSize_of_le (by bv_omega)]

/-- The heap has no larger block, and the write goes up to the end of the one there is. -/
theorem writeLays_cut (hf : (s.files i).Held) (hdir : (s.files i).isDir = false)
    (hheap : heap = none) (hmax : (s.files i).position.toNat + n.toNat ≤ maxFileSize.toNat)
    (full : (s.files i).allocatedSize.toNat < (s.files i).position.toNat + n.toNat)
    (hroom : (s.files i).position < (s.files i).allocatedSize) :
    WriteLays s i n heap buffer
      (fsWriteCopy s i buffer ((s.files i).allocatedSize - (s.files i).position)) (s.files i)
      ((s.files i).allocatedSize - (s.files i).position) (fsGetTime s).2 := by
  have maximum := maxFileSize_toNat
  -- the block is not the largest, so the size lies within it
  have inside : (s.files i).size ≤ (s.files i).allocatedSize := by
    rcases hf.size with held | held
    · exact held
    · bv_omega
  have top : (s.files i).position + ((s.files i).allocatedSize - (s.files i).position) =
      (s.files i).allocatedSize := by
    bv_omega
  refine ⟨hf.grown_self hdir, ?_, ?_, .inr ⟨hheap, full⟩, ?_, ?_, .inl rfl, rfl, s.tick, rfl, rfl,
    ⟨rfl, rfl, rfl⟩, rfl⟩
  · bv_omega
  · bv_omega
  · bv_omega
  · show (if (s.files i).position + _ > (s.files i).size then (s.files i).position + _
      else (s.files i).size).toNat = _
    rw [top]
    split <;> bv_omega

end Lays

/-- A write that ends within the largest block lays bytes or does nothing. -/
theorem WriteEnd.lays {s : Fs} {i : Slot} {buffer : Buffer} {n : SizeT} {heap : Heap}
    {r : FsTransfer} (h : WriteEnd s i buffer n heap r) (hf : (s.files i).Held)
    (hdir : (s.files i).isDir = false) (hn : n ≠ 0)
    (hmax : (s.files i).position.toNat + n.toNat ≤ maxFileSize.toNat) :
    (∃ g k now, WriteLays s i n heap buffer r g k now) ∨
      r = noTransfer s ∧ heap = none ∧
        (s.files i).allocatedSize.toNat < (s.files i).position.toNat + n.toNat := by
  have asked := clampSize_add hmax
  cases h with
  | inPlace hle => exact .inl ⟨_, _, _, writeLays_inPlace hf hdir hn hmax hle⟩
  | resized hgt hg => exact .inl ⟨_, _, _, writeLays_resized hf hdir hn hmax hgt hg⟩
  | cut hheap hlt hroom =>
    have full : (s.files i).allocatedSize.toNat < (s.files i).position.toNat + n.toNat := by
      rw [← asked]
      exact hlt
    have short : ¬ n < (s.files i).allocatedSize - (s.files i).position := by
      bv_omega
    rw [if_neg short]
    exact .inl ⟨_, _, _, writeLays_cut hf hdir hheap hmax full hroom⟩
  | noRoom hheap hlt =>
    refine .inr ⟨rfl, hheap, ?_⟩
    rw [← asked]
    exact hlt

theorem File.written_data {g : File} {block : List UInt8} (hdata : g.data = some block)
    (buffer : Buffer) (k : SizeT) (now : BitVec 64) :
    (g.written buffer k now).data = some (copyIn block g.position k buffer) := by
  show g.data.map (fun block => copyIn block g.position k buffer) = _
  rw [hdata, Option.map_some]

section Laid

variable {s : Fs} {i : Slot} {n : SizeT} {heap : Heap} {buffer : Buffer} {r : FsTransfer}
  {g : File} {k : SizeT} {now : BitVec 64}

theorem WriteLays.file (h : WriteLays s i n heap buffer r g k now) :
    r.after.files i = g.written buffer k now := by
  obtain ⟨t, -, -, -, after⟩ := h.after
  rw [after, Fs.setFile_self]

theorem WriteLays.fields (h : WriteLays s i n heap buffer r g k now) :
    r.after.files i = { s.files i with
      data := (r.after.files i).data
      size := (r.after.files i).size
      allocatedSize := (r.after.files i).allocatedSize
      position := (r.after.files i).position
      modifiedTime := (r.after.files i).modifiedTime } := by
  have same := h.grown.same
  rw [h.file, File.written]
  generalize g.data = d, g.size = z, g.allocatedSize = a, g.modifiedTime = m at same
  rw [same]

theorem WriteLays.others (h : WriteLays s i n heap buffer r g k now) {j : Slot} (hj : j ≠ i) :
    r.after.files j = s.files j := by
  obtain ⟨t, files, -, -, after⟩ := h.after
  rw [after, Fs.setFile_of_ne hj, files]

theorem WriteLays.globals (h : WriteLays s i n heap buffer r g k now) :
    r.after.freeList = s.freeList ∧ SameGlobals s r.after := by
  obtain ⟨t, -, free, rest, after⟩ := h.after
  rw [after]
  exact ⟨free, rest.fileCount, rest.nextInode, rest.currentDir⟩

/-- The content after the write. -/
theorem WriteLays.overlaid (h : WriteLays s i n heap buffer r g k now) (hf : (s.files i).Held)
    (hmax : (s.files i).position.toNat + n.toNat ≤ maxFileSize.toNat) :
    Overlaid (s.files i).content (s.files i).position.toNat k.toNat buffer
      (g.written buffer k now).content := by
  obtain ⟨old, new, hold, hnew, oldLength, newLength, longer, same⟩ := h.grown.blocks
  have position := h.grown.position
  have data := File.written_data hnew buffer k now
  have fits := h.fits
  have size := h.size
  have hle : k.toNat ≤ n.toNat := h.le
  rw [position] at data fits
  refine ⟨?_, fun j hj => ?_, fun j hj hout => ?_⟩
  · rw [length_content data, length_content hold, length_copyIn, size]
    rcases h.allocated with hsame | ⟨hlt, -⟩
    · rw [hsame] at newLength fits
      omega
    · have inside : (s.files i).size.toNat ≤ (s.files i).allocatedSize.toNat := by
        rcases hf.size with held | held
        · exact held
        · rw [held] at hlt
          omega
      omega
  · have here : (s.files i).position.toNat + j < (g.written buffer k now).size.toNat := by
      omega
    rw [getElem?_content data here, getElem?_copyIn_inside (by omega) hj]
  · rw [length_content hold] at hj
    rw [getElem?_content hold (by omega), getElem?_content data (by omega),
      getElem?_copyIn_outside hout, same j (by omega)]

end Laid

/-! ## Reading it back -/

/-- A lookup sees names, parents and marks only. -/
theorem fsFindFile_congr {s t : Fs} (hfree : t.freeList = s.freeList) (hrest : SameGlobals s t)
    (hname : ∀ i, (t.files i).name = (s.files i).name)
    (hparent : ∀ i, (t.files i).parent = (s.files i).parent) (filename : Option CString) :
    fsFindFile t filename = fsFindFile s filename := by
  unfold fsFindFile fsFindFileInDir
  simp only [hfree, hrest.fileCount, hrest.currentDir, hname, hparent]

theorem fsFindFile_setFile {s : Fs} {i : Slot} {f : File} (hname : f.name = (s.files i).name)
    (hparent : f.parent = (s.files i).parent) (filename : Option CString) :
    fsFindFile (s.setFile i f) filename = fsFindFile s filename := by
  have rest : SameGlobals s (s.setFile i f) := ⟨rfl, rfl, rfl⟩
  apply fsFindFile_congr (s := s) (t := s.setFile i f) rfl rest
  · intro j
    rcases eq_or_ne j i with rfl | hj
    · rw [Fs.setFile_self, hname]
    · rw [Fs.setFile_of_ne hj]
  · intro j
    rcases eq_or_ne j i with rfl | hj
    · rw [Fs.setFile_self, hparent]
    · rw [Fs.setFile_of_ne hj]

/-- A seek within an open file. -/
theorem fsSeek_found {s : Fs} {filename : Option CString} {i : Slot} {offset : SizeT}
    (hfound : fsFindFile s filename = some i) (hopen : (s.files i).isOpen = true)
    (hoff : offset ≤ (s.files i).size) :
    fsSeek s filename offset =
      (s.setFile i { s.files i with position := offset }, .success) := by
  unfold fsSeek
  rw [hfound]
  dsimp only
  rw [hopen, if_neg (by simp only [Bool.not_true, Bool.false_eq_true, not_false_eq_true]),
    if_neg (BitVec.not_lt.mpr hoff)]

/-- A read of as much as there is in an open file that may be read. -/
theorem fsRead_found {s : Fs} {filename : Option CString} {i : Slot} {f : File}
    {buffer : UIntPtr} {size : SizeT} (hfound : fsFindFile s filename = some i)
    (hfile : s.files i = f) (hopen : f.isOpen = true) (hdir : f.isDir = false)
    (hperm : f.permissions &&& fsPermRead ≠ 0) (hbuffer : buffer ≠ null) (hsize : size ≠ 0)
    (hfit : f.position.toNat + size.toNat ≤ f.size.toNat) :
    (fsRead s filename buffer size).stored = copyOut (f.data.getD []) f.position size := by
  have args : ¬ (buffer = null ∨ size = 0) := not_or.mpr ⟨hbuffer, hsize⟩
  have count : (if size < (if f.size > f.position then f.size - f.position else 0) then size
      else (if f.size > f.position then f.size - f.position else 0)) = size := by
    split <;> split <;> bv_omega
  have some : size > 0 := by
    bv_omega
  unfold fsRead
  rw [if_neg args, hfound]
  dsimp only
  rw [hfile, hopen, hdir, if_neg (by simp only [Bool.not_true, Bool.or_false, Bool.false_eq_true,
    not_false_eq_true]), if_neg (by rwa [beq_iff_eq]), count, if_pos some]

/-- A seek in an open file that may be read, and a read of what lies there. -/
theorem fsRead_after_seek {s : Fs} {filename : Option CString} {i : Slot} {dest : UIntPtr}
    {offset size : SizeT} (hfound : fsFindFile s filename = some i)
    (hopen : (s.files i).isOpen = true) (hdir : (s.files i).isDir = false)
    (hperm : (s.files i).permissions &&& fsPermRead ≠ 0) (hdest : dest ≠ null)
    (hsize : size ≠ 0) (hfit : offset.toNat + size.toNat ≤ (s.files i).size.toNat) :
    (fsRead (fsSeek s filename offset).1 filename dest size).stored =
      copyOut ((s.files i).data.getD []) offset size := by
  rw [fsSeek_found hfound hopen (BitVec.le_def.mpr (Nat.le_of_add_right_le hfit))]
  dsimp only
  generalize hf : s.files i = f at hopen hdir hperm hfit ⊢
  have found : fsFindFile (s.setFile i { f with position := offset }) filename = some i := by
    rw [fsFindFile_setFile (by rw [hf]) (by rw [hf]), hfound]
  exact fsRead_found (f := { f with position := offset }) found (Fs.setFile_self ..) hopen hdir
    hperm hdest hsize hfit

/-! ## Every write -/

/-- What a write of `n` bytes leaves and answers. A write that answers 0 does nothing. -/
structure WriteOverlays (s : Fs) (filename : Option CString) (i : Slot) (buffer : Buffer)
    (n : SizeT) (heap : Heap) (r : FsTransfer) : Prop where
  count : r.count ≤ n
  /-- It falls short only where the block had to grow and `realloc` failed. -/
  full : r.count = n ∨ heap = none ∧
    (s.files i).allocatedSize.toNat < (s.files i).position.toNat + n.toNat
  nothing : r.count = 0 → r.after = s
  content : r.count ≠ 0 → Overlaid (s.files i).content (s.files i).position.toNat r.count.toNat
    buffer (r.after.files i).content
  position : (r.after.files i).position.toNat = (s.files i).position.toNat + r.count.toNat
  size : r.count ≠ 0 → (r.after.files i).size.toNat =
    max (s.files i).size.toNat (r.after.files i).position.toNat
  allocated : (r.after.files i).allocatedSize = (s.files i).allocatedSize ∨
    (s.files i).allocatedSize.toNat < (r.after.files i).position.toNat ∧
      (r.after.files i).allocatedSize = blockSize (r.after.files i).position
  /-- No other field changes. -/
  fields : r.after.files i = { s.files i with
    data := (r.after.files i).data
    size := (r.after.files i).size
    allocatedSize := (r.after.files i).allocatedSize
    position := (r.after.files i).position
    modifiedTime := (r.after.files i).modifiedTime }
  others : ∀ j, j ≠ i → r.after.files j = s.files j
  globals : r.after.freeList = s.freeList ∧ SameGlobals s r.after
  /-- A seek back to the old position and a read of as many bytes give the bytes written. -/
  seekBack : r.count ≠ 0 → (fsSeek r.after filename (s.files i).position).2 = .success
  readBack : (s.files i).permissions &&& fsPermRead ≠ 0 → ∀ dest : UIntPtr, dest ≠ null →
    (fsRead (fsSeek r.after filename (s.files i).position).1 filename dest r.count).stored =
      (List.range r.count.toNat).map buffer

theorem fsRead_zero (s : Fs) (filename : Option CString) (buffer : UIntPtr) :
    fsRead s filename buffer 0 = noTransfer s := if_pos (.inr rfl)

/-- A write that does nothing. -/
theorem WriteOverlays.idle {s : Fs} {filename : Option CString} {i : Slot} {buffer : Buffer}
    {n : SizeT} {heap : Heap} (full : 0 = n ∨ heap = none ∧
      (s.files i).allocatedSize.toNat < (s.files i).position.toNat + n.toNat) :
    WriteOverlays s filename i buffer n heap (noTransfer s) where
  count := BitVec.le_def.mpr (Nat.zero_le _)
  full := full
  nothing _ := rfl
  content h := absurd rfl h
  position := rfl
  size h := absurd rfl h
  allocated := .inl rfl
  fields := rfl
  others _ _ := rfl
  globals := ⟨rfl, rfl, rfl, rfl⟩
  seekBack h := absurd rfl h
  readBack _ dest _ := congrArg FsTransfer.stored (fsRead_zero _ filename dest)

section Laid

variable {s : Fs} {filename : Option CString} {i : Slot} {n : SizeT} {heap : Heap}
  {buffer : Buffer} {r : FsTransfer} {g : File} {k : SizeT} {now : BitVec 64}

/-- The write leaves the file under its name. -/
theorem WriteLays.lookup (h : WriteLays s i n heap buffer r g k now)
    (hfound : fsFindFile s filename = some i) : fsFindFile r.after filename = some i := by
  obtain ⟨free, rest⟩ := h.globals
  refine (fsFindFile_congr free rest (fun j => ?_) (fun j => ?_) filename).trans hfound
  · rcases eq_or_ne j i with rfl | hj
    · rw [h.fields]
    · rw [h.others hj]
  · rcases eq_or_ne j i with rfl | hj
    · rw [h.fields]
    · rw [h.others hj]

theorem WriteLays.position (h : WriteLays s i n heap buffer r g k now)
    (hmax : (s.files i).position.toNat + n.toNat ≤ maxFileSize.toNat) :
    (r.after.files i).position.toNat = (s.files i).position.toNat + k.toNat := by
  have hle : k.toNat ≤ n.toNat := h.le
  have maximum := maxFileSize_toNat
  rw [h.file]
  show (g.position + k).toNat = _
  rw [h.grown.position]
  bv_omega

/-- The bytes of the write are in the file. -/
theorem WriteLays.inside (h : WriteLays s i n heap buffer r g k now) :
    (s.files i).position.toNat + k.toNat ≤ (r.after.files i).size.toNat := by
  rw [h.file, h.size]
  exact Nat.le_max_right ..

theorem WriteLays.isOpen (h : WriteLays s i n heap buffer r g k now)
    (hw : WriteTarget s filename n i) : (r.after.files i).isOpen = true := by
  rw [h.fields]
  exact hw.isOpen

/-- A seek back and a read give the bytes written. -/
theorem WriteLays.readBack (h : WriteLays s i n heap buffer r g k now)
    (hw : WriteTarget s filename n i) (hperm : (s.files i).permissions &&& fsPermRead ≠ 0)
    {dest : UIntPtr} (hdest : dest ≠ null) :
    (fsRead (fsSeek r.after filename (s.files i).position).1 filename dest k).stored =
      (List.range k.toNat).map buffer := by
  obtain ⟨old, new, -, hnew, -, newLength, -⟩ := h.grown.blocks
  have notDir : (r.after.files i).isDir = false := by
    rw [h.fields]
    exact hw.notDir
  have perm : (r.after.files i).permissions &&& fsPermRead ≠ 0 := by
    rw [h.fields]
    exact hperm
  have data : (r.after.files i).data = some (copyIn new (s.files i).position k buffer) := by
    rw [h.file, ← h.grown.position]
    exact File.written_data hnew buffer k now
  have fits := h.fits
  rw [h.grown.position] at fits
  rw [fsRead_after_seek (h.lookup hw.found) (h.isOpen hw) notDir perm hdest h.nonzero h.inside,
    data, Option.getD_some]
  exact copyOut_copyIn (by omega)

end Laid

/-- The file "a", made and opened. -/
def openedA : List FsCall :=
  [.create (some (.char 97 CString.a_ne_zero)) (some fun _ => 0),
    .openFile (some (.char 97 CString.a_ne_zero))]

end Unics
