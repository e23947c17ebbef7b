import Unics.Laws.Fs.Effects

/-!
# The effect of each function

One theorem for each function of the driver: where the function returns early nothing has changed,
and where it goes on, its effect is one of `FsEffect`. The two functions that move data have an
exact description besides, `fsResizeFile_spec` and `fsWrite_spec`.
-/

namespace Unics

open Unics.Lib

/-! ## Names -/

/-- A valid name fits its array, so the copy keeps all of it. -/
theorem strncpy_of_valid {name : CString} (h : fsValidateFilename (some name) = .success) :
    name.strncpy (maxFilenameLen - 1) = name := by
  refine CString.strncpy_of_le ?_
  by_contra hlong
  have hlen : name.strlen ≥ maxFilenameLen := by
    unfold maxFilenameLen at hlong ⊢
    omega
  have hpos : name.strlen ≠ 0 := fun h0 => absurd (h0 ▸ hlen) (by decide)
  rw [fsValidateFilename, if_neg hpos, if_pos hlen] at h
  exact FsCode.noConfusion h

/-! ## Resizing -/

/-- The state after `fs_get_time`. -/
def Fs.tick (s : Fs) : Fs := (fsGetTime s).1

@[simp] theorem Fs.tick_files (s : Fs) : s.tick.files = s.files := rfl

/-- A resize of a file that is not a directory succeeds, or needs a block the heap does not have. -/
theorem fsResizeFile_spec {s : Fs} {i : Slot} (hdir : (s.files i).isDir = false) (asked : SizeT)
    (heap : Heap) :
    (∃ g, Resized (s.files i) asked heap g ∧
        fsResizeFile s (some i) asked heap = (s.tick.setFile i g, .success)) ∨
      (heap = none ∧ (s.files i).allocatedSize < clampSize asked ∧
        fsResizeFile s (some i) asked heap = (s, .errNoMemory)) := by
  have file : ¬ (s.files i).isDir = true := by
    rw [hdir]
    exact Bool.noConfusion
  unfold fsResizeFile
  dsimp only
  rw [if_neg file]
  by_cases hgrow : clampSize asked > (s.files i).allocatedSize
  · rw [clampSize] at hgrow
    rw [if_pos hgrow]
    cases hblock : reallocBlock heap (s.files i).data (blockSize (clampSize asked)) with
    | none =>
      rw [blockSize, clampSize] at hblock
      rw [hblock]
      exact .inr ⟨Option.map_eq_none_iff.mp hblock, hgrow, rfl⟩
    | some block =>
      have grown := Resized.grown (f := s.files i) (fsGetTime s).2 hgrow hblock
      rw [blockSize, clampSize] at hblock
      rw [hblock]
      exact .inl ⟨_, grown, rfl⟩
  · have hle := BitVec.not_lt.mp hgrow
    rw [clampSize] at hgrow
    rw [if_neg hgrow]
    exact .inl ⟨_, .fits (fsGetTime s).2 hle, rfl⟩

/-- A store to any slot's file: to a free slot's it goes unnoticed. -/
theorem FsEffect.poke {R : File → File → Prop} {s t : Fs} {i : Slot} {g : File}
    (change : R (s.files i) g) (hfiles : t.files = Function.update s.files i g)
    (hfree : t.freeList = s.freeList) (rest : SameGlobals s t) : FsEffect R none none s t := by
  cases h : s.freeList i with
  | true => exact .idle (Fs.live_store_free hfiles hfree h) rest
  | false => exact .touch (Fs.live_of_used h) change (Fs.live_store hfiles hfree h) rest

theorem fsResizeFile_effect (s : Fs) (file : Option Slot) (asked : SizeT) (heap : Heap) :
    FsEffect FileResize none none s (fsResizeFile s file asked heap).1 := by
  cases file with
  | none => exact .refl s
  | some i =>
    cases hdir : (s.files i).isDir with
    | true =>
      simp only [fsResizeFile, hdir, if_true]
      exact .refl s
    | false =>
      rcases fsResizeFile_spec hdir asked heap with ⟨g, hg, h⟩ | ⟨-, -, h⟩
      · rw [h]
        exact .poke ⟨hdir, _, _, hg⟩ rfl rfl ⟨rfl, rfl, rfl⟩
      · rw [h]
        exact .refl s

/-! ## Creating and deleting -/

/-- A create does nothing, or stores in a free slot that stays free, or fills the lowest free slot.
-/
theorem fsCreateWithPerms_effect {R : File → File → Prop} (s : Fs) (filename : Option CString)
    (permissions : UInt8) (heap : Heap) :
    FsEffect R (heap.bind fun _ => filename) none s
      (fsCreateWithPerms s filename permissions heap).1 := by
  unfold fsCreateWithPerms
  split
  · next name hvalid =>
    split
    · exact .refl s
    · next hfresh =>
      split
      · exact .refl s
      · next slot hslot =>
        have hfree : s.freeList slot = true := (Fin.find?_eq_some_iff.mp hslot).1
        dsimp only
        split
        · exact .idle (Fs.live_store_free rfl rfl hfree) ⟨rfl, rfl, rfl⟩
        · next block hblock =>
          obtain ⟨junk, rfl, rfl⟩ := Option.map_eq_some_iff.mp hblock
          have length : ((List.range fsBlockSize.toNat).map junk).length = fsBlockSize.toNat := by
            rw [List.length_map, List.length_range]
          refine .insert rfl hvalid (by simpa using hfresh) hslot ?_ (Fs.live_fill rfl rfl) rfl rfl
            rfl
          exact ⟨strncpy_of_valid hvalid, rfl, rfl, rfl, rfl, rfl,
            fun h => Bool.noConfusion h, fun _ => ⟨rfl, _, rfl, length⟩⟩
  · exact .refl s

theorem fsMkdir_effect {R : File → File → Prop} (s : Fs) (dirname : Option CString) :
    FsEffect R dirname none s (fsMkdir s dirname).1 := by
  unfold fsMkdir
  split
  · next name hvalid =>
    split
    · exact .refl s
    · next hfresh =>
      split
      · exact .refl s
      · next slot hslot =>
        refine .insert rfl hvalid (by simpa using hfresh) hslot ?_ (Fs.live_fill rfl rfl) rfl rfl
          rfl
        exact ⟨strncpy_of_valid hvalid, rfl, rfl, rfl, rfl, rfl, fun _ => ⟨rfl, rfl⟩,
          fun h => Bool.noConfusion h⟩
  · exact .refl s

theorem fsDelete_effect {R : File → File → Prop} (s : Fs) (filename : Option CString) :
    FsEffect R none filename s (fsDelete s filename).1 := by
  unfold fsDelete
  split
  · exact .refl s
  · next i hfound =>
    obtain ⟨name, _, rfl, -⟩ := fsFindFile_eq_some hfound
    dsimp only
    split
    · exact .refl s
    · next hopen =>
      split
      · exact .refl s
      · next htop =>
        split
        · exact .refl s
        · next hleaf =>
          refine .remove rfl hfound (Fs.live_of_used (fsFindFile_live hfound))
            (by simpa using hopen) htop ?_ (Fs.live_clear rfl rfl) rfl rfl rfl
          intro hisdir j g hj hpar
          obtain ⟨hused, rfl⟩ := Fs.live_eq_some.mp hj
          exact hleaf ⟨hisdir, j, hused, hpar⟩

/-! ## Open files -/

theorem fsOpen_effect (s : Fs) (filename : Option CString) :
    FsEffect FileMove none none s (fsOpen s filename).1 := by
  unfold fsOpen
  split
  · exact .refl s
  · next i hfound =>
    dsimp only
    split
    · exact .refl s
    · next hdir =>
      split
      · exact .refl s
      · next hopen =>
        exact .poke (.opened (by simpa using hdir) (by simpa using hopen)) rfl rfl
          ⟨rfl, rfl, rfl⟩

theorem fsClose_effect (s : Fs) (filename : Option CString) :
    FsEffect FileMove none none s (fsClose s filename).1 := by
  unfold fsClose
  split
  · exact .refl s
  · next i hfound =>
    dsimp only
    split
    · exact .refl s
    · next hopen => exact .poke (.closed (by simpa using hopen)) rfl rfl ⟨rfl, rfl, rfl⟩

theorem fsSeek_effect (s : Fs) (filename : Option CString) (offset : SizeT) :
    FsEffect FileMove none none s (fsSeek s filename offset).1 := by
  unfold fsSeek
  split
  · exact .refl s
  · next i hfound =>
    dsimp only
    split
    · exact .refl s
    · next hopen =>
      split
      · exact .refl s
      · next hoff =>
        exact .poke (.moved (by simpa using hopen) (BitVec.not_lt.mp hoff)) rfl rfl
          ⟨rfl, rfl, rfl⟩

/-! ## Reading -/

/-- The bytes a read returns: what was asked for, as far as the file goes. -/
def readCount (f : File) (size : SizeT) : SizeT :=
  let available := if f.size > f.position then f.size - f.position else 0
  if size < available then size else available

/-- The lesser of two sizes, as the source writes it. -/
theorem lesser_le (a b : SizeT) : (if a < b then a else b) ≤ b := by
  split
  · next hlt => exact BitVec.le_of_lt hlt
  · exact BitVec.le_refl b

theorem readCount_le {f : File} {size : SizeT} (h : readCount f size > 0) :
    f.position.toNat + (readCount f size).toNat ≤ f.size.toNat := by
  have fits : readCount f size ≤ if f.size > f.position then f.size - f.position else 0 :=
    lesser_le _ _
  by_cases hroom : f.size > f.position
  · rw [if_pos hroom] at fits
    bv_omega
  · rw [if_neg hroom] at fits
    bv_omega

/-- A read transfers nothing, or copies from the position on to an end that lies in the file. -/
theorem fsRead_spec (s : Fs) (filename : Option CString) (buffer : UIntPtr) (size : SizeT) :
    fsRead s filename buffer size = noTransfer s ∨
      ∃ i, fsFindFile s filename = some i ∧ (s.files i).isOpen = true ∧
        (s.files i).isDir = false ∧ readCount (s.files i) size > 0 ∧
        fsRead s filename buffer size =
          { after := s.setFile i
              { s.files i with position := (s.files i).position + readCount (s.files i) size }
            count := readCount (s.files i) size
            stored := copyOut ((s.files i).data.getD []) (s.files i).position
              (readCount (s.files i) size)
            copies := [⟨i, (s.files i).position, readCount (s.files i) size⟩] } := by
  unfold fsRead
  split
  · exact .inl rfl
  · split
    · exact .inl rfl
    · next i hfound =>
      dsimp only
      split
      · exact .inl rfl
      · next hopen =>
        split
        · exact .inl rfl
        · by_cases hcount : readCount (s.files i) size > 0
          · simp only [Bool.or_eq_true, Bool.not_eq_true', not_or, Bool.not_eq_false,
              Bool.not_eq_true] at hopen
            exact .inr ⟨i, hfound, hopen.1, hopen.2, hcount, if_pos hcount⟩
          · exact .inl (if_neg hcount)

theorem fsRead_effect (s : Fs) (filename : Option CString) (buffer : UIntPtr) (size : SizeT) :
    FsEffect FileMove none none s (fsRead s filename buffer size).after := by
  rcases fsRead_spec s filename buffer size with h | ⟨i, hfound, hopen, -, hcount, h⟩
  · rw [h]
    exact .refl s
  · rw [h]
    have fits := readCount_le hcount
    exact .poke (.moved hopen (by bv_omega)) rfl rfl ⟨rfl, rfl, rfl⟩

/-- The check of `fs_read` is the check for its bit. -/
theorem fsHasPerm_read {f : File} (h : fsHasPerm f fsPermRead = false) :
    (f.permissions &&& fsPermRead == 0) = true := by
  have bit : (f.permissions &&& fsPermRead).toNat = f.permissions.toNat % 2 := by
    rw [UInt8.toNat_and]
    exact Nat.and_one_is_mod _
  rw [fsHasPerm, beq_eq_false_iff_ne, Ne, ← UInt8.toNat_inj, bit] at h
  rw [beq_iff_eq, ← UInt8.toNat_inj, bit]
  exact Nat.mod_two_ne_one.mp h

/-- `fs_read` refuses a file that may not be read. -/
theorem fsRead_refused {s : Fs} {filename : Option CString} {i : Slot}
    (hfound : fsFindFile s filename = some i)
    (hperm : fsHasPerm (s.files i) fsPermRead = false) (buffer : UIntPtr) (size : SizeT) :
    fsRead s filename buffer size = noTransfer s := by
  unfold fsRead
  split
  · rfl
  · rw [hfound]
    dsimp only
    split
    · rfl
    · rw [if_pos (fsHasPerm_read hperm)]

/-- A read of an open file that may be read. -/
theorem fsRead_open {s : Fs} {filename : Option CString} {i : Slot}
    (hfound : fsFindFile s filename = some i) (hopen : (s.files i).isOpen = true)
    (hdir : (s.files i).isDir = false) (hperm : fsHasPerm (s.files i) fsPermRead = true)
    {buffer : UIntPtr} (hbuffer : buffer ≠ null) {size : SizeT} (hsize : size ≠ 0) :
    fsRead s filename buffer size =
      if readCount (s.files i) size > 0 then
        { after := s.setFile i
            { s.files i with position := (s.files i).position + readCount (s.files i) size }
          count := readCount (s.files i) size
          stored := copyOut ((s.files i).data.getD []) (s.files i).position
            (readCount (s.files i) size)
          copies := [⟨i, (s.files i).position, readCount (s.files i) size⟩] }
      else noTransfer s := by
  have bit : ¬ ((s.files i).permissions &&& fsPermRead == 0) = true := by
    rw [beq_iff_eq]
    intro hzero
    rw [fsHasPerm, hzero] at hperm
    exact absurd hperm (by decide)
  unfold fsRead
  rw [if_neg (not_or.mpr ⟨hbuffer, hsize⟩), hfound]
  dsimp only
  rw [hopen, hdir, if_neg (by decide), if_neg bit]
  rfl

/-! ## Writing -/

/-- A write with these arguments gets past its checks. -/
structure WriteTarget (s : Fs) (filename : Option CString) (size : SizeT) (i : Slot) : Prop where
  size : size ≠ 0
  found : fsFindFile s filename = some i
  isOpen : (s.files i).isOpen = true
  notDir : (s.files i).isDir = false
  perm : fsHasPerm (s.files i) fsPermWrite = true

/-- How a write that gets past its checks ends. -/
inductive WriteEnd (s : Fs) (i : Slot) (buffer : Buffer) (size : SizeT) (heap : Heap) :
    FsTransfer → Prop
  | inPlace : (s.files i).position + size ≤ (s.files i).size →
      WriteEnd s i buffer size heap (fsWriteCopy s i buffer size)
  | resized {g : File} : (s.files i).position + size > (s.files i).size →
      Resized (s.files i) ((s.files i).position + size) heap g →
      WriteEnd s i buffer size heap (fsWriteCopy (s.tick.setFile i g) i buffer size)
  | cut : heap = none →
      (s.files i).allocatedSize < clampSize ((s.files i).position + size) →
      (s.files i).position < (s.files i).allocatedSize →
      WriteEnd s i buffer size heap (fsWriteCopy s i buffer
        (if size < (s.files i).allocatedSize - (s.files i).position then size
          else (s.files i).allocatedSize - (s.files i).position))
  | noRoom : heap = none →
      (s.files i).allocatedSize < clampSize ((s.files i).position + size) →
      WriteEnd s i buffer size heap (noTransfer s)

/-- A write with a target ends in one of four ways. -/
theorem fsWrite_spec {s : Fs} {filename : Option CString} {size : SizeT} {i : Slot}
    (h : WriteTarget s filename size i) (buffer : Buffer) (heap : Heap) :
    WriteEnd s i buffer size heap (fsWrite s filename (some buffer) size heap) := by
  have guard : (!(s.files i).isOpen || (s.files i).isDir) = false := by
    rw [h.isOpen, h.notDir]
    rfl
  simp only [fsWrite, if_neg h.size, h.found, guard, h.perm, Bool.not_true, Bool.false_eq_true,
    if_false]
  split
  · next hgrow =>
    rcases fsResizeFile_spec h.notDir ((s.files i).position + size) heap with
      ⟨g, hg, hres⟩ | ⟨hheap, hlt, hres⟩
    · rw [hres]
      exact .resized hgrow hg
    · rw [hres]
      dsimp only
      by_cases hroom : (s.files i).allocatedSize > (s.files i).position
      · have : (s.files i).allocatedSize - (s.files i).position ≠ 0 := by bv_omega
        rw [if_pos hroom, if_neg this]
        exact .cut hheap hlt hroom
      · rw [if_neg hroom, if_pos rfl]
        exact .noRoom hheap hlt
  · next hfits => exact .inPlace (BitVec.not_lt.mp hfits)

/-- A write without a target transfers nothing. -/
theorem fsWrite_no_target {s : Fs} {filename : Option CString} {size : SizeT}
    (h : ∀ i, ¬ WriteTarget s filename size i) (buffer : Option Buffer) (heap : Heap) :
    fsWrite s filename buffer size heap = noTransfer s := by
  unfold fsWrite
  split
  · rfl
  · split
    · rfl
    · next hsize =>
      split
      · rfl
      · next i hfound =>
        dsimp only
        split
        · rfl
        · next hguard =>
          split
          · rfl
          · next hperm =>
            simp only [Bool.or_eq_true, Bool.not_eq_true', not_or, Bool.not_eq_false,
              Bool.not_eq_true] at hguard hperm
            exact absurd ⟨hsize, hfound, hguard.1, hguard.2, by simpa using hperm⟩ (h i)

/-- A write of nothing has no target. -/
theorem fsWrite_zero (s : Fs) (filename : Option CString) (buffer : Option Buffer) (heap : Heap) :
    fsWrite s filename buffer 0 heap = noTransfer s :=
  fsWrite_no_target (fun _ h => h.size rfl) buffer heap

theorem fsWriteCopy_after (s : Fs) (i : Slot) (buffer : Buffer) (n : SizeT) :
    (fsWriteCopy s i buffer n).after =
      s.tick.setFile i ((s.files i).written buffer n (fsGetTime s).2) := rfl

/-- The copy after a resize stores to the same slot again. -/
theorem fsWriteCopy_after_resize (s : Fs) (i : Slot) (g : File) (buffer : Buffer) (n : SizeT) :
    (fsWriteCopy (s.tick.setFile i g) i buffer n).after =
      s.tick.tick.setFile i (g.written buffer n (fsGetTime s.tick).2) := by
  rw [fsWriteCopy_after]
  simp only [Fs.tick, fsGetTime, Fs.setFile, Function.update_self, Function.update_idem]

theorem WriteTarget.effect {s : Fs} {filename : Option CString} {size : SizeT} {i : Slot}
    (h : WriteTarget s filename size i) {buffer : Buffer} {heap : Heap} {r : FsTransfer}
    (hend : WriteEnd s i buffer size heap r) : FsEffect FileUse none none s r.after := by
  cases hend with
  | inPlace | cut =>
    exact .poke (.written h.notDir h.isOpen (.inl rfl)) rfl rfl ⟨rfl, rfl, rfl⟩
  | noRoom => exact .refl s
  | @resized g _ hg =>
    rw [fsWriteCopy_after_resize]
    exact .poke (.written h.notDir h.isOpen (.inr ⟨_, _, hg⟩)) rfl rfl ⟨rfl, rfl, rfl⟩

theorem fsWrite_effect (s : Fs) (filename : Option CString) (buffer : Option Buffer) (size : SizeT)
    (heap : Heap) : FsEffect FileUse none none s (fsWrite s filename buffer size heap).after := by
  cases buffer with
  | none => exact .refl s
  | some buffer =>
    by_cases h : ∃ i, WriteTarget s filename size i
    · obtain ⟨i, h⟩ := h
      exact h.effect (fsWrite_spec h buffer heap)
    · rw [fsWrite_no_target (not_exists.mp h)]
      exact .refl s

/-! ## Directories -/

theorem fsChdir_effect {R : File → File → Prop} (s : Fs) (dirname : CString) :
    FsEffect R none none s (fsChdir s dirname).1 := by
  unfold fsChdir
  split
  · split
    · next parent hup =>
      obtain ⟨c, hc, hpar⟩ := Option.bind_eq_some_iff.mp hup
      exact .enter (.inl ⟨c, _, hc, rfl, hpar⟩) rfl rfl rfl rfl
    · exact .refl s
  · split
    · exact .refl s
    · next i hfound =>
      split
      · exact .refl s
      · next hdir =>
        refine .enter (.inr ⟨_, Fs.live_of_used (fsFindFile_live hfound), ?_⟩) rfl rfl rfl rfl
        simpa using hdir

/-! ## Calls -/

/-- A call of the driver's interface, with what the heap answers. -/
inductive FsCall where
  | create (filename : Option CString) (heap : Heap)
  | createWithPerms (filename : Option CString) (permissions : UInt8) (heap : Heap)
  | mkdir (dirname : Option CString)
  | delete (filename : Option CString)
  | chdir (dirname : CString)
  | openFile (filename : Option CString)
  | close (filename : Option CString)
  | read (filename : Option CString) (buffer : UIntPtr) (size : SizeT)
  | write (filename : Option CString) (buffer : Option Buffer) (size : SizeT) (heap : Heap)
  | seek (filename : Option CString) (offset : SizeT)
  | resizeFile (file : Option Slot) (newSize : SizeT) (heap : Heap)

/-- The state after a call. -/
def fsStep (s : Fs) : FsCall → Fs
  | .create filename heap => (fsCreate s filename heap).1
  | .createWithPerms filename permissions heap => (fsCreateWithPerms s filename permissions heap).1
  | .mkdir dirname => (fsMkdir s dirname).1
  | .delete filename => (fsDelete s filename).1
  | .chdir dirname => (fsChdir s dirname).1
  | .openFile filename => (fsOpen s filename).1
  | .close filename => (fsClose s filename).1
  | .read filename buffer size => (fsRead s filename buffer size).after
  | .write filename buffer size heap => (fsWrite s filename buffer size heap).after
  | .seek filename offset => (fsSeek s filename offset).1
  | .resizeFile file newSize heap => (fsResizeFile s file newSize heap).1

/-- The calls of the interface proper: `fs_resize_file` is the helper that takes a `File *`. -/
def FsCall.NoResize : FsCall → Prop
  | .resizeFile .. => False
  | _ => True

/-- The calls that neither write nor resize. -/
def FsCall.NoWrite : FsCall → Prop
  | .write .. | .resizeFile .. => False
  | _ => True

/-- The name of the entry that a call may add: a create adds nothing when the heap is out. -/
def FsCall.makes : FsCall → Option CString
  | .create filename heap => heap.bind fun _ => filename
  | .createWithPerms filename _ heap => heap.bind fun _ => filename
  | .mkdir dirname => dirname
  | _ => none

/-- The name of the entry that a call may take away. -/
def FsCall.removes : FsCall → Option CString
  | .delete filename => filename
  | _ => none

/-- Every call has one of the effects. -/
theorem fsStep_move (s : Fs) : ∀ c : FsCall, c.NoWrite →
    FsEffect FileMove c.makes c.removes s (fsStep s c)
  | .create filename heap, _ => fsCreateWithPerms_effect s filename fsPermDefault heap
  | .createWithPerms filename permissions heap, _ =>
    fsCreateWithPerms_effect s filename permissions heap
  | .mkdir dirname, _ => fsMkdir_effect s dirname
  | .delete filename, _ => fsDelete_effect s filename
  | .chdir dirname, _ => fsChdir_effect s dirname
  | .openFile filename, _ => fsOpen_effect s filename
  | .close filename, _ => fsClose_effect s filename
  | .read filename buffer size, _ => fsRead_effect s filename buffer size
  | .seek filename offset, _ => fsSeek_effect s filename offset

theorem fsStep_use (s : Fs) (c : FsCall) (hc : c.NoResize) :
    FsEffect FileUse c.makes c.removes s (fsStep s c) := by
  cases c with
  | resizeFile => exact absurd hc id
  | write filename buffer size heap => exact fsWrite_effect s filename buffer size heap
  | _ => exact .mono (fun _ _ => .move) (fsStep_move s _ trivial)

theorem fsStep_effect (s : Fs) (c : FsCall) :
    FsEffect FileChange c.makes c.removes s (fsStep s c) := by
  cases c with
  | resizeFile file newSize heap =>
    exact .mono (fun _ _ => .resize) (fsResizeFile_effect s file newSize heap)
  | _ => exact .mono (fun _ _ => .use) (fsStep_use s _ trivial)

/-! ## Calls that get through -/

/-- A create with a valid, fresh name, a free slot and a block. -/
theorem fsCreateWithPerms_inserts {s : Fs} {name : CString} {i : Slot}
    (hvalid : fsValidateFilename (some name) = .success)
    (hfresh : fsFindFile s (some name) = none) (hslot : fsFindFreeSlot s = some i)
    (permissions : UInt8) (junk : Buffer) :
    ∃ f, f.parent = s.currentDir ∧ f.name = name ∧
      (fsCreateWithPerms s (some name) permissions (some junk)).1.live =
        Function.update s.live i (some f) := by
  unfold fsCreateWithPerms
  rw [hvalid, hfresh, hslot]
  dsimp only [Option.isSome_none, mallocBlock, Option.map_some]
  exact ⟨_, rfl, strncpy_of_valid hvalid, Fs.live_fill rfl rfl⟩

theorem fsMkdir_inserts {s : Fs} {name : CString} {i : Slot}
    (hvalid : fsValidateFilename (some name) = .success)
    (hfresh : fsFindFile s (some name) = none) (hslot : fsFindFreeSlot s = some i) :
    ∃ f, f.parent = s.currentDir ∧ f.name = name ∧
      (fsMkdir s (some name)).1.live = Function.update s.live i (some f) := by
  unfold fsMkdir
  rw [hvalid, hfresh, hslot]
  dsimp only [Option.isSome_none]
  exact ⟨_, rfl, strncpy_of_valid hvalid, Fs.live_fill rfl rfl⟩

/-- A call that may add an entry adds it when its name is valid and fresh and a slot is free. -/
theorem fsStep_inserts {s : Fs} {c : FsCall} {name : CString} {i : Slot}
    (hmakes : c.makes = some name) (hvalid : fsValidateFilename (some name) = .success)
    (hfresh : fsFindFile s (some name) = none) (hslot : fsFindFreeSlot s = some i) :
    ∃ f, f.parent = s.currentDir ∧ f.name = name ∧
      (fsStep s c).live = Function.update s.live i (some f) := by
  cases c with
  | create filename heap =>
    obtain ⟨junk, rfl, rfl⟩ := Option.bind_eq_some_iff.mp hmakes
    exact fsCreateWithPerms_inserts hvalid hfresh hslot fsPermDefault junk
  | createWithPerms filename permissions heap =>
    obtain ⟨junk, rfl, rfl⟩ := Option.bind_eq_some_iff.mp hmakes
    exact fsCreateWithPerms_inserts hvalid hfresh hslot permissions junk
  | mkdir dirname =>
    obtain rfl : dirname = some name := hmakes
    exact fsMkdir_inserts hvalid hfresh hslot
  | _ => exact absurd hmakes.symm (Option.some_ne_none name)

/-- A delete that finds a closed file without children clears its slot. -/
theorem fsDelete_removes {s : Fs} {filename : Option CString} {i : Slot}
    (hfound : fsFindFile s filename = some i) (hopen : (s.files i).isOpen = false) (htop : i ≠ 0)
    (hleaf : (s.files i).isDir = true → ∀ j g, s.live j = some g → g.parent ≠ some i) :
    (fsStep s (.delete filename)).live = Function.update s.live i none := by
  have leaf : ¬ ((s.files i).isDir = true ∧
      ∃ j, s.freeList j = false ∧ (s.files j).parent = some i) := by
    intro h
    obtain ⟨hdir, j, hused, hpar⟩ := h
    exact hleaf hdir j _ (Fs.live_of_used hused) hpar
  have closed : ¬ (s.files i).isOpen = true := by
    rw [hopen]
    exact Bool.noConfusion
  show (fsDelete s filename).1.live = _
  unfold fsDelete
  rw [hfound]
  dsimp only
  rw [if_neg closed, if_neg htop, if_neg leaf]
  exact Fs.live_clear rfl rfl

/-- An open of a closed file. -/
theorem fsOpen_found {s : Fs} {filename : Option CString} {i : Slot}
    (hfound : fsFindFile s filename = some i) (hdir : (s.files i).isDir = false)
    (hopen : (s.files i).isOpen = false) :
    fsOpen s filename =
      (s.setFile i { s.files i with isOpen := true, position := 0 }, .success) := by
  unfold fsOpen
  rw [hfound]
  dsimp only
  rw [hdir, hopen, if_neg Bool.noConfusion, if_neg Bool.noConfusion]

theorem fsOpen_success {s : Fs} {filename : Option CString}
    (h : (fsOpen s filename).2 = .success) :
    ∃ i, fsFindFile s filename = some i ∧ (s.files i).isDir = false ∧
      (s.files i).isOpen = false := by
  unfold fsOpen at h
  split at h
  · cases h
  · next i hfound =>
    dsimp only at h
    split at h
    · cases h
    · next hdir =>
      split at h
      · cases h
      · next hopen =>
        exact ⟨i, hfound, Bool.eq_false_of_not_eq_true hdir, Bool.eq_false_of_not_eq_true hopen⟩

/-- A close of an open file. -/
theorem fsClose_found {s : Fs} {filename : Option CString} {i : Slot}
    (hfound : fsFindFile s filename = some i) (hopen : (s.files i).isOpen = true) :
    fsClose s filename = (s.setFile i { s.files i with isOpen := false }, .success) := by
  unfold fsClose
  rw [hfound]
  dsimp only
  rw [hopen, if_neg (by decide)]

end Unics
