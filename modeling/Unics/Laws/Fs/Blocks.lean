import Unics.Laws.Fs.Tree

/-!
# Blocks

A file's size and position stay within its block, and its block within the maximum, as long as no
write asks for more than a block can be. `fs_resize_file` clamps what it is asked for and reports
success, and the sum of position and length is taken modulo 2^32, so a write that asks for more
copies past its block.

`buffer_bounds_iff` is the exact condition over whole runs.
-/

namespace Unics

open Unics.Lib

/-! ## Sizes -/

theorem maxFileSize_toNat : maxFileSize.toNat = 8192 := rfl

theorem clampSize_le (asked : SizeT) : clampSize asked ≤ maxFileSize := by
  unfold clampSize
  split
  · exact BitVec.le_refl _
  · next h => exact BitVec.not_lt.mp h

theorem clampSize_of_le {asked : SizeT} (h : asked ≤ maxFileSize) : clampSize asked = asked :=
  if_neg (BitVec.not_lt.mpr h)

/-- A sum that the largest block holds neither wraps nor is clamped. -/
theorem clampSize_add {p n : SizeT} (h : p.toNat + n.toNat ≤ maxFileSize.toNat) :
    (clampSize (p + n)).toNat = p.toNat + n.toNat := by
  rw [maxFileSize_toNat] at h
  have sum : (p + n).toNat = p.toNat + n.toNat := by bv_omega
  rw [clampSize_of_le (BitVec.le_def.mpr (by rw [sum, maxFileSize_toNat]; exact h)), sum]

theorem clampSize_le_asked (asked : SizeT) : clampSize asked ≤ asked := by
  unfold clampSize
  split
  · next h => exact BitVec.le_of_lt h
  · exact BitVec.le_refl _

/-- The block is large enough and not too large. -/
theorem blockSize_bounds {n : SizeT} (h : n ≤ maxFileSize) :
    n ≤ blockSize n ∧ blockSize n ≤ maxFileSize := by
  have hn : n.toNat ≤ 8192 := BitVec.le_def.mp h
  have top : (n + fsBlockSize - 1).toNat = n.toNat + 511 := by
    unfold fsBlockSize
    bv_omega
  have size : (blockSize n).toNat = (n.toNat + 511) / 512 * 512 % 2 ^ 32 := by
    rw [blockSize, BitVec.toNat_mul, BitVec.toNat_udiv, top]
    rfl
  rw [BitVec.le_def, BitVec.le_def, size, maxFileSize_toNat]
  omega

/-! ## Bounded files -/

/-- A file within its block. -/
structure File.Bounded (f : File) : Prop where
  size : f.size ≤ f.allocatedSize
  allocated : f.allocatedSize ≤ maxFileSize
  position : f.position ≤ f.allocatedSize
  block : f.isDir = false → ∃ block, f.data = some block ∧ block.length = f.allocatedSize.toNat

theorem Resized.bounded {f g : File} {asked : SizeT} {heap : Heap} (h : Resized f asked heap g)
    (hf : f.Bounded) : g.Bounded := by
  cases h with
  | fits now hle => exact ⟨hle, hf.allocated, hf.position, hf.block⟩
  | grown now hlt hblock =>
    obtain ⟨hge, hle⟩ := blockSize_bounds (clampSize_le asked)
    refine ⟨hge, hle, BitVec.le_trans hf.position (BitVec.le_trans (BitVec.le_of_lt hlt) hge),
      fun _ => ⟨_, rfl, ?_⟩⟩
    obtain ⟨junk, -, rfl⟩ := Option.map_eq_some_iff.mp hblock
    rw [List.length_map, List.length_range]

theorem FileMove.bounded {f g : File} (h : FileMove f g) (hf : f.Bounded) : g.Bounded := by
  cases h with
  | opened => exact ⟨hf.size, hf.allocated, BitVec.le_def.mpr (Nat.zero_le _), hf.block⟩
  | closed => exact ⟨hf.size, hf.allocated, hf.position, hf.block⟩
  | moved _ hp => exact ⟨hf.size, hf.allocated, BitVec.le_trans hp hf.size, hf.block⟩

/-- A copy that fits leaves the file within its block. -/
theorem File.Bounded.written {f : File} (hf : f.Bounded) {n : SizeT}
    (hfit : f.position.toNat + n.toNat ≤ f.allocatedSize.toNat) (buffer : Buffer)
    (now : BitVec 64) : (f.written buffer n now).Bounded := by
  have inside : f.position + n ≤ f.allocatedSize := by bv_omega
  refine ⟨?_, hf.allocated, inside, fun hdir => ?_⟩
  · show (if f.position + n > f.size then f.position + n else f.size) ≤ f.allocatedSize
    split
    · exact inside
    · exact hf.size
  · obtain ⟨block, hdata, hlength⟩ := hf.block hdir
    refine ⟨copyIn block f.position n buffer, ?_, ?_⟩
    · show f.data.map (fun block => copyIn block f.position n buffer) = _
      rw [hdata, Option.map_some]
    · rw [copyIn, List.length_mapIdx, hlength]
      rfl

theorem NewFile.bounded {s : Fs} {name : CString} {f : File} (h : NewFile s name f) :
    f.Bounded := by
  cases hdir : f.isDir with
  | true =>
    obtain ⟨halloc, -⟩ := h.dirEmpty hdir
    refine ⟨?_, ?_, ?_, fun hfile => absurd (hdir.symm.trans hfile) Bool.noConfusion⟩
    · rw [h.size, halloc]
      exact BitVec.le_refl _
    · rw [halloc]
      decide
    · rw [h.position, halloc]
      exact BitVec.le_refl _
  | false =>
    obtain ⟨halloc, block, hdata, hlength⟩ := h.fileBlock hdir
    refine ⟨?_, ?_, ?_, fun _ => ⟨block, hdata, by rw [hlength, halloc]⟩⟩
    · rw [h.size, halloc]
      decide
    · rw [halloc]
      decide
    · rw [h.position, halloc]
      decide

/-! ## The invariant -/

/-- Every live file is within its block. -/
def Fs.Bounded (s : Fs) : Prop := ∀ i f, s.live i = some f → f.Bounded

theorem Fs.Bounded.replace {s t : Fs} (h : s.Bounded) {i : Slot} {g : File} (hg : g.Bounded)
    (hlive : t.live = Function.update s.live i (some g)) : t.Bounded := by
  intro j e he
  rcases filled_iff.mp (hlive ▸ he) with ⟨rfl, rfl⟩ | ⟨_, he⟩
  · exact hg
  · exact h j e he

theorem Fs.Bounded.effect {R : File → File → Prop} {makes removes : Option CString}
    (hR : ∀ f g, R f g → f.Bounded → g.Bounded) {s t : Fs} (h : s.Bounded)
    (he : FsEffect R makes removes s t) : t.Bounded := by
  cases he with
  | idle live | enter _ live => intro j e hj; exact h j e (live ▸ hj)
  | touch old change live => exact h.replace (hR _ _ change (h _ _ old)) live
  | insert _ _ _ _ new live => exact h.replace new.bounded live
  | remove _ _ _ _ _ _ live => intro j e hj; exact h j e (cleared_iff.mp (live ▸ hj)).2

theorem fsInit_bounded (s : Fs) : (fsInit s).Bounded := by
  intro i f hf
  obtain ⟨-, rfl⟩ := fsInit_only hf
  exact ⟨BitVec.le_refl _, BitVec.le_def.mpr (Nat.zero_le _), BitVec.le_refl _,
    fun h => Bool.noConfusion h⟩

/-! ## Properties of states and calls -/

/-- Every file satisfies `size <= allocated_size <= MAX_FILE_SIZE`. -/
def Fs.InBounds (s : Fs) : Prop :=
  ∀ i f, s.live i = some f → f.size ≤ f.allocatedSize ∧ f.allocatedSize ≤ maxFileSize

theorem Fs.Bounded.inBounds {s : Fs} (h : s.Bounded) : s.InBounds :=
  fun i f hf => ⟨(h i f hf).size, (h i f hf).allocated⟩

/-- The copies into and out of blocks that a call makes. -/
def FsCall.copies (s : Fs) : FsCall → List Memcpy
  | .read filename buffer size => (fsRead s filename buffer size).copies
  | .write filename buffer size heap => (fsWrite s filename buffer size heap).copies
  | _ => []

/-- The copy stays below the allocated size of its file. -/
def Memcpy.Inside (t : Fs) (m : Memcpy) : Prop :=
  ∃ f, t.live m.slot = some f ∧ m.offset.toNat + m.count.toNat ≤ f.allocatedSize.toNat

/-- Every copy of the call stays inside its file's block. -/
def CopiesInside (s : Fs) (c : FsCall) : Prop := ∀ m ∈ c.copies s, m.Inside (fsStep s c)

/-- A write that gets past its checks ends within the largest block, or needs to grow its block and
the heap refuses. -/
def WriteFits (s : Fs) : FsCall → Prop
  | .write filename (some _) size heap => ∀ i, WriteTarget s filename size i →
      (s.files i).position.toNat + size.toNat ≤ maxFileSize.toNat ∨
      (heap = none ∧ (s.files i).allocatedSize < clampSize ((s.files i).position + size))
  | _ => True

/-! ## One call -/

/-- What a write that copies does: to a file within its block, which it leaves there exactly when
the copy fits. -/
structure WriteCopies (s : Fs) (i : Slot) (size : SizeT) (heap : Heap) (r : FsTransfer) (g : File)
    (buffer : Buffer) (n : SizeT) (now : BitVec 64) : Prop where
  bounded : g.Bounded
  copies : r.copies = [⟨i, g.position, n⟩]
  live : r.after.live = Function.update s.live i (some (g.written buffer n now))
  fits : g.position.toNat + n.toNat ≤ g.allocatedSize.toNat ↔
    (s.files i).position.toNat + size.toNat ≤ maxFileSize.toNat ∨
      (heap = none ∧ (s.files i).allocatedSize < clampSize ((s.files i).position + size))

/-- A write with a target copies, or the heap refuses to grow its block and there is no room. -/
theorem WriteEnd.copies {s : Fs} {i : Slot} {buffer : Buffer} {size : SizeT} {heap : Heap}
    {r : FsTransfer} (h : WriteEnd s i buffer size heap r) (hfree : s.freeList i = false)
    (hf : (s.files i).Bounded) :
    (∃ g n now, WriteCopies s i size heap r g buffer n now) ∨
      (r = noTransfer s ∧ heap = none ∧
        (s.files i).allocatedSize < clampSize ((s.files i).position + size)) := by
  have bounds := hf.size
  have limit := hf.allocated
  cases h with
  | inPlace hle =>
    refine .inl ⟨_, _, _, hf, rfl, Fs.live_store rfl rfl hfree, ?_⟩
    have notGrow : ¬ (s.files i).allocatedSize < clampSize ((s.files i).position + size) := by
      have := clampSize_le_asked ((s.files i).position + size)
      bv_omega
    simp only [notGrow, and_false, or_false, maxFileSize_toNat]
    unfold maxFileSize at limit
    bv_omega
  | @resized g hgt hg =>
    refine .inl ⟨g, size, (fsGetTime s.tick).2, hg.bounded hf, ?_, ?_, ?_⟩
    · show [Memcpy.mk i (Function.update s.files i g i).position size] = _
      rw [Function.update_self]
    · rw [fsWriteCopy_after_resize]
      exact Fs.live_store rfl rfl hfree
    · cases hg with
      | fits now hle =>
        have notGrow : ¬ (s.files i).allocatedSize < clampSize ((s.files i).position + size) :=
          BitVec.not_lt.mpr hle
        simp only [notGrow, and_false, or_false]
        constructor
        · intro h
          exact h.trans (BitVec.le_def.mp limit)
        · intro h
          rw [← clampSize_add h]
          exact BitVec.le_def.mp hle
      | grown now hlt hblock =>
        obtain ⟨hge, hle⟩ := blockSize_bounds (clampSize_le ((s.files i).position + size))
        constructor
        · intro h
          exact .inl (h.trans (BitVec.le_def.mp hle))
        · intro h
          rcases h with h | ⟨rfl, -⟩
          · show (s.files i).position.toNat + size.toNat ≤ _
            rw [← clampSize_add h]
            exact BitVec.le_def.mp hge
          · exact absurd hblock.symm (Option.some_ne_none _)
  | cut hheap hlt hroom =>
    refine .inl ⟨_, _, _, hf, rfl, Fs.live_store rfl rfl hfree, ?_⟩
    refine iff_of_true ?_ (.inr ⟨hheap, hlt⟩)
    have := lesser_le size ((s.files i).allocatedSize - (s.files i).position)
    bv_omega
  | noRoom hheap hlt => exact .inr ⟨rfl, hheap, hlt⟩

/-- A read copies from inside the block. -/
theorem fsRead_inside {s : Fs} (h : s.Bounded) (filename : Option CString) (buffer : UIntPtr)
    (size : SizeT) : CopiesInside s (.read filename buffer size) := by
  intro m hm
  show m.Inside (fsRead s filename buffer size).after
  have hm : m ∈ (fsRead s filename buffer size).copies := hm
  rcases fsRead_spec s filename buffer size with hr | ⟨i, hfound, -, -, hcount, hr⟩
  · rw [hr] at hm
    exact absurd hm List.not_mem_nil
  · rw [hr] at hm ⊢
    obtain rfl := List.mem_singleton.mp hm
    have hfree := fsFindFile_live hfound
    have bounded := h i _ (Fs.live_of_used hfree)
    refine ⟨{ s.files i with position := (s.files i).position + readCount (s.files i) size }, ?_,
      (readCount_le hcount).trans (BitVec.le_def.mp bounded.size)⟩
    have live : (s.setFile i
        { s.files i with position := (s.files i).position + readCount (s.files i) size }).live =
      Function.update s.live i _ := Fs.live_store rfl rfl hfree
    exact (congrFun live i).trans (Function.update_self ..)

/-- Under the invariant, a call keeps its copies inside their blocks exactly when its write fits. -/
theorem Fs.Bounded.copiesInside_iff {s : Fs} (h : s.Bounded) (c : FsCall) :
    CopiesInside s c ↔ WriteFits s c := by
  cases c with
  | read filename buffer size => exact iff_of_true (fsRead_inside h filename buffer size) trivial
  | write filename buffer size heap =>
    cases buffer with
    | none => exact iff_of_true (fun m hm => absurd hm List.not_mem_nil) trivial
    | some buffer =>
      by_cases htarget : ∃ i, WriteTarget s filename size i
      · obtain ⟨i, target⟩ := htarget
        have only : WriteFits s (.write filename (some buffer) size heap) ↔
            (s.files i).position.toNat + size.toNat ≤ maxFileSize.toNat ∨
              (heap = none ∧
                (s.files i).allocatedSize < clampSize ((s.files i).position + size)) := by
          constructor
          · intro hw
            exact hw i target
          · intro hi j hj
            obtain rfl := Option.some.inj (target.found.symm.trans hj.found)
            exact hi
        have hfree := fsFindFile_live target.found
        rw [only]
        rcases (fsWrite_spec target buffer heap).copies hfree (h i _ (Fs.live_of_used hfree)) with
          ⟨g, n, now, hc⟩ | ⟨hnone, hgrow⟩
        · rw [← hc.fits]
          have inside : Memcpy.Inside (fsStep s (.write filename (some buffer) size heap))
              ⟨i, g.position, n⟩ ↔ g.position.toNat + n.toNat ≤ g.allocatedSize.toNat := by
            constructor
            · intro hin
              obtain ⟨e, he, hle⟩ := hin
              rw [fsStep, hc.live, Function.update_self] at he
              obtain rfl := Option.some.inj he
              exact hle
            · intro hle
              refine ⟨g.written buffer n now, ?_, hle⟩
              rw [fsStep, hc.live, Function.update_self]
          rw [← inside, CopiesInside, FsCall.copies, hc.copies]
          exact List.forall_mem_singleton
        · refine iff_of_true (fun m hm => ?_) (.inr hgrow)
          rw [FsCall.copies, hnone] at hm
          exact absurd hm List.not_mem_nil
      · refine iff_of_true (fun m hm => ?_) fun i hi => absurd ⟨i, hi⟩ htarget
        rw [FsCall.copies, fsWrite_no_target (not_exists.mp htarget)] at hm
        exact absurd hm List.not_mem_nil
  | _ => exact iff_of_true (fun m hm => absurd hm List.not_mem_nil) trivial

/-- A call whose write fits keeps every file within its block. -/
theorem Fs.Bounded.step {s : Fs} (h : s.Bounded) {c : FsCall} (hfits : WriteFits s c) :
    (fsStep s c).Bounded := by
  cases c with
  | resizeFile file newSize heap =>
    refine h.effect (fun f g hg hf => ?_) (fsResizeFile_effect s file newSize heap)
    obtain ⟨-, _, _, hg⟩ := hg
    exact hg.bounded hf
  | write filename buffer size heap =>
    cases buffer with
    | none => exact h
    | some buffer =>
      by_cases htarget : ∃ i, WriteTarget s filename size i
      · obtain ⟨i, target⟩ := htarget
        have hfree := fsFindFile_live target.found
        rcases (fsWrite_spec target buffer heap).copies hfree (h i _ (Fs.live_of_used hfree)) with
          ⟨g, n, now, hc⟩ | ⟨hnone, -⟩
        · exact h.replace (hc.bounded.written (hc.fits.mpr (hfits i target)) buffer now) hc.live
        · rw [fsStep, hnone]
          exact h
      · rw [fsStep, fsWrite_no_target (not_exists.mp htarget)]
        exact h
  | _ => exact h.effect (fun _ _ => FileMove.bounded) (fsStep_move s _ trivial)

/-! ## Runs -/

/-- In every run the bounds of files hold in every state and every copy stays inside its block,
exactly when every write fits. -/
theorem buffer_bounds_iff (s₀ : Fs) (calls : List FsCall) :
    EveryState fsStep Fs.InBounds (fsInit s₀) calls ∧
        EveryStep fsStep CopiesInside (fsInit s₀) calls ↔
      EveryStep fsStep WriteFits (fsInit s₀) calls := by
  have start := fsInit_bounded s₀
  have keep : ∀ s c, Fs.Bounded s → WriteFits s c → Fs.Bounded (fsStep s c) :=
    fun _ _ h hfits => h.step hfits
  have copies : EveryStep fsStep CopiesInside (fsInit s₀) calls ↔
      EveryStep fsStep WriteFits (fsInit s₀) calls :=
    everyStep_iff keep (fun _ c h => h.copiesInside_iff c) start
  constructor
  · intro h
    exact copies.mp h.2
  · intro h
    exact ⟨h.everyState keep (fun _ h => h.inBounds) start, copies.mpr h⟩

/-- A write of 9000 bytes to an empty file copies them into a block of 8192. -/
theorem buffer_bounds_fails :
    ¬ (EveryState fsStep Fs.InBounds (fsInit fsStart)
          [.create (some (.char 97)) (some fun _ => 0), .openFile (some (.char 97)),
            .write (some (.char 97)) (some fun _ => 0) 9000 (some fun _ => 0)] ∧
        EveryStep fsStep CopiesInside (fsInit fsStart)
          [.create (some (.char 97)) (some fun _ => 0), .openFile (some (.char 97)),
            .write (some (.char 97)) (some fun _ => 0) 9000 (some fun _ => 0)]) := by
  intro h
  have copies := everyStep_iff_prefix.mp h.2 [.create _ _, .openFile _] _ [] rfl
  obtain ⟨f, hf, hle⟩ := copies ⟨1, 0, 9000⟩ (by decide +kernel)
  obtain ⟨-, rfl⟩ := Fs.live_eq_some.mp hf
  revert hle
  decide +kernel

end Unics
