import Mathlib.Data.BitVec
import Unics.Laws.Fs.Calls
import Unics.Libc.Unistd

/-!
# The descriptor calls, exactly

One theorem for each call of `unistd.c` says everything it can do: what it has checked by then, the
state it leaves and what it answers. The laws about descriptors are derived from these and never
unfold a call.
-/

namespace Unics

open Unics.Lib

/-! ## Descriptors -/

/-- The number of a descriptor is in range. -/
theorem fdIndex_val (fd : Fd) : fdIndex fd.val = some fd := by
  have range : (0 : Int) ≤ fd.val ∧ (fd.val : Int) < maxFds := by
    have := fd.isLt
    omega
  rw [fdIndex, dif_pos range]
  rfl

theorem fdIndex_neg_one : fdIndex (-1) = none := rfl

theorem getFile_eq_some {u : Unistd} {fd : Int} {i : Slot} :
    getFile u fd = some i ↔ ∃ d, fdIndex fd = some d ∧ u.fdTable d = some i :=
  Option.bind_eq_some_iff

/-- `alloc_fd` takes an empty entry from 3 on, or there is none. -/
theorem allocFd_spec (u : Unistd) (file : Slot) :
    (allocFd u file = (u, none) ∧ ∀ fd : Fd, 3 ≤ fd.val → u.fdTable fd ≠ none) ∨
      ∃ fd, u.fdTable fd = none ∧ 3 ≤ fd.val ∧
        allocFd u file =
          ({ u.setFile file { u.fs.files file with isOpen := true, position := 0 } with
              fdTable := Function.update u.fdTable fd (some file) }, some fd) := by
  unfold allocFd
  split
  · next fd hfd =>
    have test := (Fin.find?_eq_some_iff.mp hfd).1
    simp only [Bool.and_eq_true, Option.isNone_iff_eq_none, decide_eq_true_eq] at test
    exact .inr ⟨fd, test.2, test.1, rfl⟩
  · next hnone =>
    refine .inl ⟨rfl, fun fd hfd hfree => ?_⟩
    have test := Fin.find?_eq_none_iff.mp hnone fd
    simp [hfd, hfree] at test

/-! ## Opening -/

/-- The files after a lookup that may create: those before, or those and a new closed one. -/
def Made (live mid : Slot → Option File) : Prop :=
  mid = live ∨ ∃ j f, live j = none ∧ f.isOpen = false ∧ mid = Function.update live j (some f)

theorem fsCreate_made (s : Fs) (filename : Option CString) (heap : Heap) :
    Made s.live (fsCreate s filename heap).1.live := by
  cases fsCreateWithPerms_effect (R := fun _ _ => False) s filename fsPermDefault heap with
  | idle live | enter _ live => exact .inl live
  | touch _ change => exact absurd change id
  | insert _ _ _ slot new live =>
    exact .inr ⟨_, _, Fs.live_eq_none.mpr (Fin.find?_eq_some_iff.mp slot).1, new.closed, live⟩
  | remove named => exact absurd named.symm (Option.some_ne_none _)

/-- A create stays in its directory and takes nothing away. -/
theorem fsCreate_globals (s : Fs) (filename : Option CString) (heap : Heap) :
    (fsCreate s filename heap).1.currentDir = s.currentDir ∧
      s.fileCount ≤ (fsCreate s filename heap).1.fileCount := by
  unfold fsCreate fsCreateWithPerms
  split
  · split
    · exact ⟨rfl, Nat.le_refl _⟩
    · split
      · exact ⟨rfl, Nat.le_refl _⟩
      · dsimp only
        split
        · exact ⟨rfl, Nat.le_refl _⟩
        · exact ⟨rfl, Nat.le_succ _⟩
  · exact ⟨rfl, Nat.le_refl _⟩

/-- What the first half of `open` comes to. -/
inductive Looked (s : Fs) (pathname : Option CString) : Fs × Option Slot → Prop
  | found {i : Slot} (found : fsFindFile s pathname = some i) : Looked s pathname (s, some i)
  | missing (absent : fsFindFile s pathname = none) : Looked s pathname (s, none)
  | created {t : Fs} {file : Option Slot} (absent : fsFindFile s pathname = none)
      (effect : ∀ R : File → File → Prop, ∃ makes, FsEffect R makes none s t)
      (made : Made s.live t.live) (currentDir : t.currentDir = s.currentDir)
      (fileCount : s.fileCount ≤ t.fileCount)
      (found : ∀ i, file = some i → fsFindFile t pathname = some i) :
      Looked s pathname (t, file)

theorem openLookup_spec (s : Fs) (pathname : Option CString) (flags : BitVec 32) (heap : Heap) :
    Looked s pathname (openLookup s pathname flags heap) := by
  have effect (R : File → File → Prop) :
      ∃ makes, FsEffect R makes none s (fsCreate s pathname heap).1 :=
    ⟨_, fsCreateWithPerms_effect s pathname fsPermDefault heap⟩
  have made := fsCreate_made s pathname heap
  have globals := fsCreate_globals s pathname heap
  unfold openLookup
  split
  · next i hfound => exact .found hfound
  · next habsent =>
    split
    · exact .missing habsent
    · split
      · next t hres =>
        rw [hres] at effect made globals
        exact .created habsent effect made globals.1 globals.2 fun i hi => hi
      · next t code _ hres =>
        rw [hres] at effect made globals
        exact .created habsent effect made globals.1 globals.2 fun i hi =>
          absurd hi.symm (Option.some_ne_none i)

section Looked

variable {s t : Fs} {pathname : Option CString} {file : Option Slot} {i : Slot}

theorem Looked.effect (h : Looked s pathname (t, file)) (R : File → File → Prop) :
    ∃ makes, FsEffect R makes none s t := by
  cases h with
  | found | missing => exact ⟨none, .refl s⟩
  | created _ effect => exact effect R

theorem Looked.made (h : Looked s pathname (t, file)) : Made s.live t.live := by
  cases h with
  | found | missing => exact .inl rfl
  | created _ _ made => exact made

/-- The file that comes out of the lookup is found in the state after it. -/
theorem Looked.here (h : Looked s pathname (t, some i)) : fsFindFile t pathname = some i := by
  cases h with
  | found found => exact found
  | created _ _ _ _ _ found => exact found i rfl

theorem Looked.fileCount (h : Looked s pathname (t, file)) : s.fileCount ≤ t.fileCount := by
  cases h with
  | found | missing => exact Nat.le_refl _
  | created _ _ _ _ fileCount => exact fileCount

/-- A live file stays as it is. -/
theorem Made.keeps {live mid : Slot → Option File} (h : Made live mid) {f : File}
    (hf : live i = some f) : mid i = some f := by
  rcases h with rfl | ⟨j, g, hj, -, rfl⟩
  · exact hf
  · exact filled_keeps hj hf

theorem Looked.currentDir (h : Looked s pathname (t, file)) : t.currentDir = s.currentDir := by
  cases h with
  | found | missing => rfl
  | created _ _ _ currentDir => exact currentDir

/-- The file that comes out of the lookup, if it was there before, was an entry of that name. -/
theorem Looked.entry (h : Looked s pathname (t, some i)) {f : File} (hf : s.live i = some f) :
    ∃ name dir, pathname = some name ∧ s.currentDir = some dir ∧ s.Entry dir name i := by
  obtain ⟨name, dir, hname, hdir, -, g, hg, hentry⟩ := fsFindFile_eq_some h.here
  obtain rfl := Option.some.inj ((h.made.keeps hf).symm.trans hg)
  exact ⟨name, dir, hname, h.currentDir.symm.trans hdir, f, hf, hentry⟩

/-- The file that comes out of the lookup was found at once, or the lookup could not see it. -/
theorem Looked.old (h : Looked s pathname (t, some i)) {f : File} (hf : s.live i = some f)
    (hseen : i.val < s.fileCount) : fsFindFile s pathname = some i := by
  obtain ⟨name, dir, rfl, hdir, hentry⟩ := h.entry hf
  cases h with
  | found found => exact found
  | created absent =>
    rw [fsFindFile, hdir, fsFindFileInDir_eq_none] at absent
    exact absurd hseen (Nat.not_lt.mpr (absent i hentry))

end Looked

/-- What `open` does to the file it opens. -/
inductive Opened (flags : BitVec 32) (f : File) : File → Prop
  | kept (flag : flags &&& oTrunc = 0 ∨ f.data = none) :
      Opened flags f { f with isOpen := true, position := 0 }
  | truncated {block : List UInt8} (flag : flags &&& oTrunc ≠ 0) (data : f.data = some block) :
      Opened flags f
        { f with
          isOpen := true
          data := some (copyIn block 0 f.allocatedSize fun _ => 0)
          size := 0
          position := 0 }

theorem Opened.isOpen {flags : BitVec 32} {f g : File} (h : Opened flags f g) :
    g.isOpen = true := by
  cases h <;> rfl

theorem Opened.position {flags : BitVec 32} {f g : File} (h : Opened flags f g) :
    g.position = 0 := by
  cases h <;> rfl

/-- What `open` comes to. -/
inductive OpenEnd (u : Unistd) (pathname : Option CString) : BitVec 32 → Unistd × Int → Prop
  | refused {s : Fs} {file : Option Slot} {flags : BitVec 32}
      (lookup : Looked u.fs pathname (s, file))
      (full : ∀ i, file = some i → ∀ fd : Fd, 3 ≤ fd.val → u.fdTable fd ≠ none) :
      OpenEnd u pathname flags ({ u with fs := s }, -1)
  | opened {s : Fs} {flags : BitVec 32} {v : Unistd} {i : Slot} {fd : Fd} {g : File}
      (lookup : Looked u.fs pathname (s, some i)) (free : u.fdTable fd = none)
      (user : 3 ≤ fd.val) (file : Opened flags (s.files i) g) (fs : v.fs = s.setFile i g)
      (table : v.fdTable = Function.update u.fdTable fd (some i)) :
      OpenEnd u pathname flags (v, fd.val)

theorem unistdOpen_spec (u : Unistd) (pathname : Option CString) (flags : BitVec 32)
    (heap : Heap) : OpenEnd u pathname flags (unistdOpen u pathname flags heap) := by
  have lookup := openLookup_spec u.fs pathname flags heap
  unfold unistdOpen
  split
  · next s hlookup =>
    rw [hlookup] at lookup
    exact .refused lookup fun i hi => absurd hi.symm (Option.some_ne_none i)
  · next s i hlookup =>
    rw [hlookup] at lookup
    rcases allocFd_spec { u with fs := s } i with ⟨h, full⟩ | ⟨fd, free, user, h⟩
    · rw [h]
      exact .refused lookup fun _ _ => full
    · have marked : (s.setFile i { s.files i with isOpen := true, position := 0 }).files i =
          { s.files i with isOpen := true, position := 0 } := Function.update_self ..
      have twice (f g : File) : (s.setFile i f).setFile i g = s.setFile i g := by
        simp only [Fs.setFile, Function.update_idem]
      rw [h]
      dsimp only [Unistd.setFile]
      rw [marked]
      split
      · next hflag => exact .opened lookup free user (.kept (.inl hflag)) rfl rfl
      · next hflag =>
        split
        · next hdata => exact .opened lookup free user (.kept (.inr hdata)) rfl rfl
        · next block hdata =>
          exact .opened lookup free user (.truncated hflag hdata) (twice _ _) rfl

/-! ## Closing -/

/-- A close gives up the descriptor and clears the file's flag, or there is nothing to close. -/
theorem unistdClose_spec (u : Unistd) (fd : Int) :
    (getFile u fd = none ∧ unistdClose u fd = (u, -1)) ∨
      ∃ d i, fdIndex fd = some d ∧ u.fdTable d = some i ∧
        unistdClose u fd =
          ({ u.setFile i { u.fs.files i with isOpen := false } with
              fdTable := Function.update u.fdTable d none }, 0) := by
  unfold unistdClose getFile
  split
  · next h => exact .inl ⟨by rw [h]; rfl, rfl⟩
  · next d hd =>
    split
    · next h => exact .inl ⟨by rw [hd]; exact h, rfl⟩
    · next i hi => exact .inr ⟨d, i, hd, hi, rfl⟩

/-! ## Transfers -/

/-- How many bytes a transfer copies. -/
def UnistdTransfer.moved (r : UnistdTransfer) : SizeT := (r.copies.map Memcpy.count).sum

theorem moved_singleton {after : Unistd} {ret : Int} {stored : List UInt8} {m : Memcpy} :
    UnistdTransfer.moved ⟨after, ret, stored, [m]⟩ = m.count := by
  simp [UnistdTransfer.moved]

theorem moved_noTransfer {u : Unistd} (ret : Int) : (noUnistdTransfer u ret).moved = 0#32 := rfl

/-! ## Reading -/

/-- The bytes that a read through a descriptor transfers from before the end of the file. -/
def unistdReadCount (f : File) (count : SizeT) : SizeT :=
  if f.position + count > f.size then f.size - f.position else count

/-- A read before the end of the file is of nothing when it is asked for nothing. -/
theorem unistdReadCount_ne_zero {f : File} {count : SizeT} (h : f.position < f.size) :
    unistdReadCount f count ≠ 0 ↔ count ≠ 0 := by
  unfold unistdReadCount
  split
  · next hlong =>
    constructor
    · rintro - rfl
      bv_omega
    · intro _
      bv_omega
  · exact Iff.rfl

/-- A read transfers nothing, or copies from the position on. -/
theorem unistdRead_spec (u : Unistd) (fd : Int) (count : SizeT) :
    (∃ ret, unistdRead u fd count = noUnistdTransfer u ret ∧
        ∀ i, getFile u fd = some i → (u.fs.files i).isOpen = true →
          (u.fs.files i).size ≤ (u.fs.files i).position ∧ ret = 0) ∨
      ∃ i, getFile u fd = some i ∧ (u.fs.files i).isOpen = true ∧
        (u.fs.files i).position < (u.fs.files i).size ∧
        unistdRead u fd count =
          { after := u.setFile i
              { u.fs.files i with
                position := (u.fs.files i).position + unistdReadCount (u.fs.files i) count }
            ret := (unistdReadCount (u.fs.files i) count).toInt
            stored := copyOut ((u.fs.files i).data.getD []) (u.fs.files i).position
              (unistdReadCount (u.fs.files i) count)
            copies := [⟨i, (u.fs.files i).position, unistdReadCount (u.fs.files i) count⟩] } := by
  unfold unistdRead
  split
  · next h => exact .inl ⟨_, rfl, fun i hi => absurd (h ▸ hi).symm (Option.some_ne_none i)⟩
  · next i hi =>
    dsimp only
    split
    · next hclosed =>
      refine .inl ⟨_, rfl, fun j hj hopen => ?_⟩
      obtain rfl := Option.some.inj (hi.symm.trans hj)
      simp [hopen] at hclosed
    · next hopen =>
      split
      · next hend =>
        refine .inl ⟨_, rfl, fun j hj _ => ?_⟩
        obtain rfl := Option.some.inj (hi.symm.trans hj)
        exact ⟨hend, rfl⟩
      · next hend => exact .inr ⟨i, hi, by simpa using hopen, BitVec.not_le.mp hend, rfl⟩

/-! ## Writing -/

/-- A write through a descriptor cannot make its block large enough. -/
def GrowthRefused (f : File) (count : SizeT) (heap : Heap) : Prop :=
  f.position + count > f.allocatedSize ∧
    (f.isDir = true ∨ (heap = none ∧ f.allocatedSize < clampSize (f.position + count)))

theorem not_growthRefused_of_fits {f : File} {count : SizeT} {heap : Heap}
    (h : f.position + count ≤ f.allocatedSize) : ¬ GrowthRefused f count heap :=
  fun refused => absurd refused.1 (BitVec.not_lt.mpr h)

theorem Resized.not_growthRefused {f g : File} {count : SizeT} {heap : Heap}
    (h : Resized f (f.position + count) heap g) (hdir : f.isDir = false) :
    ¬ GrowthRefused f count heap := by
  rintro ⟨-, hisDir | ⟨rfl, hlt⟩⟩
  · exact absurd (hdir.symm.trans hisDir) Bool.noConfusion
  · cases h with
    | fits _ hle => exact absurd hlt (BitVec.not_lt.mpr hle)
    | grown _ _ hblock => exact absurd hblock.symm (Option.some_ne_none _)

/-- How a write to an open file ends. -/
inductive UnistdWriteEnd (u : Unistd) (i : Slot) (buf : Buffer) (count : SizeT) (heap : Heap) :
    UnistdTransfer → Prop
  | inPlace (fits : (u.fs.files i).position + count ≤ (u.fs.files i).allocatedSize) :
      UnistdWriteEnd u i buf count heap (unistdWriteCopy u i buf count)
  | resized {g : File} (grows : (u.fs.files i).position + count > (u.fs.files i).allocatedSize)
      (notDir : (u.fs.files i).isDir = false)
      (file : Resized (u.fs.files i) ((u.fs.files i).position + count) heap g) :
      UnistdWriteEnd u i buf count heap
        (unistdWriteCopy { u with fs := u.fs.tick.setFile i g } i buf count)
  | refused (refused : GrowthRefused (u.fs.files i) count heap) :
      UnistdWriteEnd u i buf count heap (noUnistdTransfer u (-1))

theorem unistdWrite_spec {u : Unistd} {fd : Int} {i : Slot} (hfile : getFile u fd = some i)
    (hopen : (u.fs.files i).isOpen = true) (buf : Buffer) (count : SizeT) (heap : Heap) :
    UnistdWriteEnd u i buf count heap (unistdWrite u fd buf count heap) := by
  simp only [unistdWrite, hfile, hopen, Bool.not_true, Bool.false_eq_true, if_false]
  split
  · next hgrows =>
    cases hdir : (u.fs.files i).isDir with
    | true =>
      have refused (asked : SizeT) :
          fsResizeFile u.fs (some i) asked heap = (u.fs, .errInvalidPath) := if_pos hdir
      rw [refused]
      exact .refused ⟨hgrows, .inl hdir⟩
    | false =>
      rcases fsResizeFile_spec hdir ((u.fs.files i).position + count) heap with
        ⟨g, hg, hres⟩ | ⟨hheap, hlt, hres⟩
      · rw [hres]
        exact .resized hgrows hdir hg
      · rw [hres]
        exact .refused ⟨hgrows, .inr ⟨hheap, hlt⟩⟩
  · next hfits => exact .inPlace (BitVec.not_lt.mp hfits)

/-- A write that finds no open file transfers nothing. -/
theorem unistdWrite_no_file {u : Unistd} {fd : Int}
    (h : ∀ i, getFile u fd = some i → (u.fs.files i).isOpen = false) (buf : Buffer)
    (count : SizeT) (heap : Heap) :
    unistdWrite u fd buf count heap = noUnistdTransfer u (-1) := by
  unfold unistdWrite
  split
  · rfl
  · next i hi =>
    simp [h i hi]

/-- The file after the copy of a write. -/
def File.unistdWritten (f : File) (buf : Buffer) (count : SizeT) : File :=
  { f with
    data := f.data.map fun block => copyIn block f.position count buf
    position := f.position + count
    size := if f.position + count > f.size then f.position + count else f.size }

theorem unistdWriteCopy_after (u : Unistd) (i : Slot) (buf : Buffer) (count : SizeT) :
    (unistdWriteCopy u i buf count).after =
      u.setFile i ((u.fs.files i).unistdWritten buf count) := rfl

/-- The copy after a resize stores to the same slot again. -/
theorem unistdWriteCopy_after_resize (u : Unistd) (i : Slot) (g : File) (buf : Buffer)
    (count : SizeT) :
    (unistdWriteCopy { u with fs := u.fs.tick.setFile i g } i buf count).after =
      { u with fs := u.fs.tick.setFile i (g.unistdWritten buf count) } := by
  simp only [unistdWriteCopy_after, Unistd.setFile, Fs.setFile, Fs.tick_files,
    Function.update_self, Function.update_idem]

/-! ## Seeking -/

/-- The position that a seek stores, if it is not refused. -/
def seekPosition (f : File) (offset : BitVec 64) (whence : Int) : Option (BitVec 64) :=
  (seekTarget f offset whence).bind fun p =>
    if p.slt 0 || p.setWidth 32 > f.size then none else some p

/-- A seek stores a position within the file, or is refused. -/
theorem unistdLseek_spec {u : Unistd} {fd : Int} {i : Slot} (hfile : getFile u fd = some i)
    (hopen : (u.fs.files i).isOpen = true) (offset : BitVec 64) (whence : Int) :
    unistdLseek u fd offset whence =
      match seekPosition (u.fs.files i) offset whence with
      | none => (u, -1)
      | some p => (u.setFile i { u.fs.files i with position := p.setWidth 32 }, p.toInt) := by
  have guard : ¬ (!(u.fs.files i).isOpen) = true := by
    rw [hopen]
    exact Bool.noConfusion
  unfold unistdLseek seekPosition
  rw [hfile]
  dsimp only
  rw [if_neg guard]
  cases seekTarget (u.fs.files i) offset whence with
  | none => rfl
  | some p =>
    rw [Option.bind_some]
    dsimp only
    split <;> rfl

theorem seekPosition_eq_some {f : File} {offset : BitVec 64} {whence : Int} {p : BitVec 64} :
    seekPosition f offset whence = some p ↔
      seekTarget f offset whence = some p ∧ 0 ≤ p.toInt ∧ p.setWidth 32 ≤ f.size := by
  have test (q : BitVec 64) : (q.slt 0 || decide (q.setWidth 32 > f.size)) = false ↔
      0 ≤ q.toInt ∧ q.setWidth 32 ≤ f.size := by
    rw [Bool.or_eq_false_iff, BitVec.slt_eq_decide, decide_eq_false_iff_not,
      decide_eq_false_iff_not, Int.not_lt]
    exact and_congr Iff.rfl BitVec.not_lt
  rw [seekPosition, Option.bind_eq_some_iff]
  constructor
  · intro h
    obtain ⟨q, hq, h⟩ := h
    split at h
    · exact absurd h.symm (Option.some_ne_none p)
    · next hok =>
      obtain rfl := Option.some.inj h
      exact ⟨hq, (test q).mp (Bool.not_eq_true _ ▸ hok)⟩
  · intro h
    refine ⟨p, h.1, if_neg ?_⟩
    rw [Bool.not_eq_true]
    exact (test p).mpr h.2

/-- A seek that finds no open file is refused. -/
theorem unistdLseek_no_file {u : Unistd} {fd : Int}
    (h : ∀ i, getFile u fd = some i → (u.fs.files i).isOpen = false) (offset : BitVec 64)
    (whence : Int) : unistdLseek u fd offset whence = (u, -1) := by
  unfold unistdLseek
  split
  · rfl
  · next i hi => simp [h i hi]

/-- The letter `b` is not the terminator. -/
theorem b_ne_zero : (98 : UInt8) ≠ 0 := by decide

end Unics
