import Unics.Laws.Fs.Calls

/-!
# Calls that fail

A call of the driver fails with a negative code, or with a count of 0 where it moves bytes. Each
function leaves early at several places, one of them after it has claimed a slot and stored in it.
Every way out is one of two: the call succeeded, or the table is the one it found.
-/

namespace Unics

/-- What a call returns: a code, or a number of bytes. -/
inductive FsResult where
  | code (c : FsCode)
  | count (n : SizeT)
  deriving DecidableEq, Repr

/-- What the call answers its caller. -/
def fsResult (s : Fs) : FsCall → FsResult
  | .create filename heap => .code (fsCreate s filename heap).2
  | .createWithPerms filename permissions heap =>
    .code (fsCreateWithPerms s filename permissions heap).2
  | .mkdir dirname => .code (fsMkdir s dirname).2
  | .delete filename => .code (fsDelete s filename).2
  | .chdir dirname => .code (fsChdir s dirname).2
  | .openFile filename => .code (fsOpen s filename).2
  | .close filename => .code (fsClose s filename).2
  | .read filename buffer size => .count (fsRead s filename buffer size).count
  | .write filename buffer size heap => .count (fsWrite s filename buffer size heap).count
  | .seek filename offset => .code (fsSeek s filename offset).2
  | .resizeFile file newSize heap => .code (fsResizeFile s file newSize heap).2

/-- The answer of a call that failed. -/
def FsResult.Failed : FsResult → Prop
  | .code c => c.toInt < 0
  | .count n => n = 0

instance : DecidablePred FsResult.Failed
  | .code c => inferInstanceAs (Decidable (c.toInt < 0))
  | .count n => inferInstanceAs (Decidable (n = 0))

theorem FsCode.toInt_neg_iff (c : FsCode) : c.toInt < 0 ↔ c ≠ .success := by
  cases c <;> decide

/-- The driver's state as it was, apart from the clock and what lies in free slots. -/
structure SameTable (s t : Fs) : Prop where
  live : t.live = s.live
  freeList : t.freeList = s.freeList
  rest : SameGlobals s t

theorem SameTable.refl (s : Fs) : SameTable s s := ⟨rfl, rfl, .refl s⟩

/-! ## The ways out of each function -/

/-- A create that gets no block has stored in the slot it claimed, and gives the slot back. -/
theorem fsCreateWithPerms_exits (s : Fs) (filename : Option CString) (permissions : UInt8)
    (heap : Heap) :
    (fsCreateWithPerms s filename permissions heap).2 = .success ∨
      SameTable s (fsCreateWithPerms s filename permissions heap).1 := by
  unfold fsCreateWithPerms
  split
  · split
    · exact .inr (.refl s)
    · split
      · exact .inr (.refl s)
      · next slot hslot =>
        have hfree : s.freeList slot = true := (Fin.find?_eq_some_iff.mp hslot).1
        dsimp only
        split
        · exact .inr ⟨Fs.live_store_free rfl rfl hfree, rfl, ⟨rfl, rfl, rfl⟩⟩
        · exact .inl rfl
  · exact .inr (.refl s)

theorem fsMkdir_exits (s : Fs) (dirname : Option CString) :
    (fsMkdir s dirname).2 = .success ∨ SameTable s (fsMkdir s dirname).1 := by
  unfold fsMkdir
  split
  · split
    · exact .inr (.refl s)
    · split
      · exact .inr (.refl s)
      · exact .inl rfl
  · exact .inr (.refl s)

theorem fsDelete_exits (s : Fs) (filename : Option CString) :
    (fsDelete s filename).2 = .success ∨ SameTable s (fsDelete s filename).1 := by
  unfold fsDelete
  split
  · exact .inr (.refl s)
  · dsimp only
    split
    · exact .inr (.refl s)
    · split
      · exact .inr (.refl s)
      · split
        · exact .inr (.refl s)
        · exact .inl rfl

theorem fsOpen_exits (s : Fs) (filename : Option CString) :
    (fsOpen s filename).2 = .success ∨ SameTable s (fsOpen s filename).1 := by
  unfold fsOpen
  split
  · exact .inr (.refl s)
  · dsimp only
    split
    · exact .inr (.refl s)
    · split
      · exact .inr (.refl s)
      · exact .inl rfl

theorem fsClose_exits (s : Fs) (filename : Option CString) :
    (fsClose s filename).2 = .success ∨ SameTable s (fsClose s filename).1 := by
  unfold fsClose
  split
  · exact .inr (.refl s)
  · dsimp only
    split
    · exact .inr (.refl s)
    · exact .inl rfl

theorem fsSeek_exits (s : Fs) (filename : Option CString) (offset : SizeT) :
    (fsSeek s filename offset).2 = .success ∨ SameTable s (fsSeek s filename offset).1 := by
  unfold fsSeek
  split
  · exact .inr (.refl s)
  · dsimp only
    split
    · exact .inr (.refl s)
    · split
      · exact .inr (.refl s)
      · exact .inl rfl

theorem fsChdir_exits (s : Fs) (dirname : CString) :
    (fsChdir s dirname).2 = .success ∨ SameTable s (fsChdir s dirname).1 := by
  unfold fsChdir
  split
  · split
    · exact .inl rfl
    · exact .inr (.refl s)
  · split
    · exact .inr (.refl s)
    · split
      · exact .inr (.refl s)
      · exact .inl rfl

theorem fsResizeFile_exits (s : Fs) (file : Option Slot) (newSize : SizeT) (heap : Heap) :
    (fsResizeFile s file newSize heap).2 = .success ∨
      SameTable s (fsResizeFile s file newSize heap).1 := by
  cases file with
  | none => exact .inr (.refl s)
  | some i =>
    cases hdir : (s.files i).isDir with
    | true =>
      simp only [fsResizeFile, hdir, if_true]
      exact .inr (.refl s)
    | false =>
      rcases fsResizeFile_spec hdir newSize heap with ⟨g, -, h⟩ | ⟨-, -, h⟩
      · rw [h]
        exact .inl rfl
      · rw [h]
        exact .inr (.refl s)

theorem fsRead_exits (s : Fs) (filename : Option CString) (buffer : UIntPtr) (size : SizeT) :
    (fsRead s filename buffer size).count ≠ 0 ∨
      SameTable s (fsRead s filename buffer size).after := by
  rcases fsRead_spec s filename buffer size with h | ⟨i, -, -, -, hcount, h⟩
  · rw [h]
    exact .inr (.refl s)
  · rw [h]
    refine .inl fun hzero => ?_
    have : readCount (s.files i) size = 0 := hzero
    bv_omega

/-- A write that is cut down to the block's room still moves a byte. -/
theorem WriteEnd.exits {s : Fs} {i : Slot} {buffer : Buffer} {size : SizeT} {heap : Heap}
    {r : FsTransfer} (h : WriteEnd s i buffer size heap r) (hsize : size ≠ 0) :
    r.count ≠ 0 ∨ SameTable s r.after := by
  cases h with
  | inPlace => exact .inl hsize
  | resized => exact .inl hsize
  | cut _ _ hroom =>
    refine .inl ?_
    show (if size < (s.files i).allocatedSize - (s.files i).position then size
      else (s.files i).allocatedSize - (s.files i).position) ≠ 0
    split
    · exact hsize
    · bv_omega
  | noRoom => exact .inr (.refl s)

theorem fsWrite_exits (s : Fs) (filename : Option CString) (buffer : Option Buffer) (size : SizeT)
    (heap : Heap) :
    (fsWrite s filename buffer size heap).count ≠ 0 ∨
      SameTable s (fsWrite s filename buffer size heap).after := by
  cases buffer with
  | none => exact .inr (.refl s)
  | some buffer =>
    by_cases h : ∃ i, WriteTarget s filename size i
    · obtain ⟨i, h⟩ := h
      exact (fsWrite_spec h buffer heap).exits h.size
    · rw [fsWrite_no_target (not_exists.mp h)]
      exact .inr (.refl s)

/-! ## Every call -/

/-- A call that moves the table says that it succeeded. -/
theorem fsStep_exits (s : Fs) (c : FsCall) :
    ¬ (fsResult s c).Failed ∨ SameTable s (fsStep s c) := by
  have code {r : Fs × FsCode} (h : r.2 = .success ∨ SameTable s r.1) :
      ¬ (FsResult.code r.2).Failed ∨ SameTable s r.1 :=
    h.imp_left fun hr hneg => (FsCode.toInt_neg_iff r.2).mp hneg hr
  cases c with
  | create filename heap => exact code (fsCreateWithPerms_exits s filename fsPermDefault heap)
  | createWithPerms filename permissions heap =>
    exact code (fsCreateWithPerms_exits s filename permissions heap)
  | mkdir dirname => exact code (fsMkdir_exits s dirname)
  | delete filename => exact code (fsDelete_exits s filename)
  | chdir dirname => exact code (fsChdir_exits s dirname)
  | openFile filename => exact code (fsOpen_exits s filename)
  | close filename => exact code (fsClose_exits s filename)
  | read filename buffer size => exact fsRead_exits s filename buffer size
  | write filename buffer size heap => exact fsWrite_exits s filename buffer size heap
  | seek filename offset => exact code (fsSeek_exits s filename offset)
  | resizeFile file newSize heap => exact code (fsResizeFile_exits s file newSize heap)

/-- A call that fails leaves every live entry, the free list, the counters and the current
directory as they were, in whatever state it is made and whatever the heap answers. -/
theorem fsStep_failed (s : Fs) (c : FsCall) (h : (fsResult s c).Failed) :
    SameTable s (fsStep s c) :=
  (fsStep_exits s c).resolve_left fun hsuccess => hsuccess h

/-- The block of a create in a directory does not come: the slot it stored in is free again. -/
theorem fsStep_failed_create :
    SameTable (fsStep (fsStep (fsInit fsStart) (.mkdir (some (.char 97)))) (.chdir (.char 97)))
      (fsStep (fsStep (fsStep (fsInit fsStart) (.mkdir (some (.char 97)))) (.chdir (.char 97)))
        (.create (some (.char 98)) none)) :=
  fsStep_failed _ _ (by decide +kernel)

end Unics
