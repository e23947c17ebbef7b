import Unics.Drivers.Fs
import Unics.Lib.Forest

/-!
# What a call does to the table

The table, as its callers know it, is `Fs.live`: the file in each slot that is not free. A call
leaves it, replaces one file, fills the lowest free slot, clears one slot, or moves the current
directory. `FsEffect R makes removes` says so once, with everything the call has checked by then:
`R` is what it may do to the file it replaces, `makes` and `removes` are the names it may add and
take away. Each function has one theorem that gives its effect, and the invariants are derived from
effects alone.
-/

namespace Unics

open Unics.Lib

/-- The file in a slot, unless the slot is free. -/
def Fs.live (s : Fs) (i : Slot) : Option File :=
  if s.freeList i then none else some (s.files i)

/-! ## The table under stores -/

theorem Fs.setFile_self (s : Fs) (i : Slot) (f : File) : (s.setFile i f).files i = f :=
  Function.update_self ..

theorem Fs.setFile_of_ne {s : Fs} {i j : Slot} (hj : j ≠ i) (f : File) :
    (s.setFile i f).files j = s.files j :=
  Function.update_of_ne hj ..

section Live

variable {s t : Fs} {i j : Slot} {f : File}

theorem Fs.live_eq_some : s.live i = some f ↔ s.freeList i = false ∧ s.files i = f := by
  unfold Fs.live
  split
  · next h => simp only [reduceCtorEq, h, Bool.true_eq_false, false_and]
  · next h =>
    have : s.freeList i = false := by simpa using h
    simp only [Option.some.injEq, this, true_and]

theorem Fs.live_eq_none : s.live i = none ↔ s.freeList i = true := by
  unfold Fs.live
  split
  · next h => simp only [h]
  · next h => simpa using h

theorem Fs.live_of_used (h : s.freeList i = false) : s.live i = some (s.files i) :=
  Fs.live_eq_some.mpr ⟨h, rfl⟩

/-- A store to the file of a used slot. -/
theorem Fs.live_store (hfiles : t.files = Function.update s.files i f)
    (hfree : t.freeList = s.freeList) (h : s.freeList i = false) :
    t.live = Function.update s.live i (some f) := by
  funext j
  rw [Fs.live, hfiles, hfree]
  by_cases hj : j = i
  · subst hj
    rw [h, Function.update_self, Function.update_self]
    rfl
  · rw [Function.update_of_ne hj, Function.update_of_ne hj]
    rfl

/-- The other slots, when a file is stored. -/
theorem Fs.live_setFile_of_ne (hj : j ≠ i) (f : File) : (s.setFile i f).live j = s.live j := by
  rw [Fs.live, Fs.live, Fs.setFile_of_ne hj]
  rfl

/-- A store to the file of a free slot. -/
theorem Fs.live_store_free (hfiles : t.files = Function.update s.files i f)
    (hfree : t.freeList = s.freeList) (h : s.freeList i = true) : t.live = s.live := by
  funext j
  rw [Fs.live, Fs.live, hfiles, hfree]
  by_cases hj : j = i
  · subst hj
    rw [h]
    rfl
  · rw [Function.update_of_ne hj]

/-- A slot and its mark are replaced. -/
theorem Fs.live_update (hfiles : t.files = Function.update s.files i f) {free : Bool}
    (hfree : t.freeList = Function.update s.freeList i free) :
    t.live = Function.update s.live i (if free then none else some f) := by
  funext j
  rw [Fs.live, hfiles, hfree]
  by_cases hj : j = i
  · subst hj
    rw [Function.update_self, Function.update_self, Function.update_self]
  · rw [Function.update_of_ne hj, Function.update_of_ne hj, Function.update_of_ne hj]
    rfl

/-- A slot is filled. -/
theorem Fs.live_fill (hfiles : t.files = Function.update s.files i f)
    (hfree : t.freeList = Function.update s.freeList i false) :
    t.live = Function.update s.live i (some f) :=
  Fs.live_update hfiles hfree

/-- A slot is cleared. -/
theorem Fs.live_clear (hfiles : t.files = Function.update s.files i f)
    (hfree : t.freeList = Function.update s.freeList i true) :
    t.live = Function.update s.live i none :=
  Fs.live_update hfiles hfree

end Live

/-! ## Lookup -/

/-- Slot `i` holds a live file of that name and parent. -/
def Fs.Entry (s : Fs) (dir : Slot) (name : CString) (i : Slot) : Prop :=
  ∃ f, s.live i = some f ∧ f.parent = some dir ∧ f.name = name

theorem Fs.entry_iff {s : Fs} {dir i : Slot} {name : CString} :
    s.Entry dir name i ↔
      s.freeList i = false ∧ (s.files i).parent = some dir ∧ (s.files i).name = name := by
  constructor
  · intro h
    obtain ⟨f, hf, hpar, hname⟩ := h
    obtain ⟨hfree, rfl⟩ := Fs.live_eq_some.mp hf
    exact ⟨hfree, hpar, hname⟩
  · intro h
    exact ⟨s.files i, Fs.live_of_used h.1, h.2⟩

/-- The test of the lookup's loop. -/
theorem fsFindFileInDir_test {s : Fs} {dir i : Slot} {name : CString} :
    (decide (i.val < s.fileCount) && !s.freeList i && (s.files i).parent == some dir &&
      (s.files i).name == name) = true ↔ i.val < s.fileCount ∧ s.Entry dir name i := by
  simp only [Bool.and_eq_true, decide_eq_true_eq, Bool.not_eq_true', beq_iff_eq, Fs.entry_iff,
    and_assoc]

theorem fsFindFileInDir_eq_some {s : Fs} {dir i : Slot} {name : CString}
    (h : fsFindFileInDir s (some name) (some dir) = some i) :
    i.val < s.fileCount ∧ s.Entry dir name i :=
  fsFindFileInDir_test.mp (Fin.find?_eq_some_iff.mp h).1

theorem fsFindFileInDir_eq_none {s : Fs} {dir : Slot} {name : CString} :
    fsFindFileInDir s (some name) (some dir) = none ↔
      ∀ i, s.Entry dir name i → s.fileCount ≤ i.val := by
  rw [fsFindFileInDir, Fin.find?_eq_none_iff]
  refine forall_congr' fun i => ?_
  rw [← Bool.not_eq_true, fsFindFileInDir_test, ← Nat.not_lt]
  exact ⟨fun h he hlt => h ⟨hlt, he⟩, fun h hboth => h hboth.2 hboth.1⟩

/-- What a lookup that finds a file has seen. -/
theorem fsFindFile_eq_some {s : Fs} {filename : Option CString} {i : Slot}
    (h : fsFindFile s filename = some i) :
    ∃ name dir, filename = some name ∧ s.currentDir = some dir ∧ i.val < s.fileCount ∧
      s.Entry dir name i := by
  unfold fsFindFile at h
  cases filename with
  | none => exact absurd h.symm (Option.some_ne_none i)
  | some name =>
    cases hdir : s.currentDir with
    | none =>
      rw [hdir] at h
      exact absurd h.symm (Option.some_ne_none i)
    | some dir =>
      rw [hdir] at h
      exact ⟨name, dir, rfl, rfl, fsFindFileInDir_eq_some h⟩

/-- Slot `i` holds a live entry of the current directory with that name. -/
def Fs.Here (s : Fs) (name : CString) (i : Slot) : Prop :=
  ∃ dir, s.currentDir = some dir ∧ s.Entry dir name i

theorem Fs.Here.live {s : Fs} {name : CString} {i : Slot} (h : s.Here name i) :
    s.freeList i = false ∧ (s.files i).name = name := by
  obtain ⟨dir, -, hentry⟩ := h
  obtain ⟨hfree, -, hname⟩ := Fs.entry_iff.mp hentry
  exact ⟨hfree, hname⟩

theorem fsFindFile_here {s : Fs} {name : CString} {i : Slot}
    (h : fsFindFile s (some name) = some i) : i.val < s.fileCount ∧ s.Here name i := by
  obtain ⟨n, dir, hn, hdir, hlt, hentry⟩ := fsFindFile_eq_some h
  obtain rfl := Option.some.inj hn
  exact ⟨hlt, dir, hdir, hentry⟩

/-- A lookup finds the lowest entry below the count. -/
theorem fsFindFile_eq_some_iff {s : Fs} {name : CString} {i : Slot} :
    fsFindFile s (some name) = some i ↔
      i.val < s.fileCount ∧ s.Here name i ∧ ∀ j < i, ¬ s.Here name j := by
  constructor
  · intro h
    obtain ⟨hlt, hhere⟩ := fsFindFile_here h
    refine ⟨hlt, hhere, fun j hj hother => ?_⟩
    obtain ⟨dir, hdir, hentry⟩ := hother
    rw [fsFindFile, hdir] at h
    have passed := (Fin.find?_eq_some_iff.mp h).2 j hj
    rw [fsFindFileInDir_test.mpr ⟨Nat.lt_trans hj hlt, hentry⟩] at passed
    cases passed
  · rintro ⟨hlt, ⟨dir, hdir, hentry⟩, hleast⟩
    rw [fsFindFile, hdir]
    refine Fin.find?_eq_some_iff.mpr ⟨fsFindFileInDir_test.mpr ⟨hlt, hentry⟩, fun j hj => ?_⟩
    rw [← Bool.not_eq_true, fsFindFileInDir_test]
    exact fun hother => hleast j hj ⟨dir, hdir, hother.2⟩

/-- A lookup misses the entries that lie at the count or behind it. -/
theorem fsFindFile_eq_none {s : Fs} {name : CString} :
    fsFindFile s (some name) = none ↔ ∀ i, s.Here name i → s.fileCount ≤ i.val := by
  rw [fsFindFile]
  cases hdir : s.currentDir with
  | none =>
    refine iff_of_true rfl fun i hi => ?_
    obtain ⟨dir, hd, -⟩ := hi
    exact absurd (hdir.symm.trans hd).symm (Option.some_ne_none dir)
  | some dir =>
    rw [fsFindFileInDir_eq_none]
    refine forall_congr' fun i => ⟨fun h hi => ?_, fun h hi => h ⟨dir, hdir, hi⟩⟩
    obtain ⟨d, hd, hentry⟩ := hi
    obtain rfl := Option.some.inj (hdir.symm.trans hd)
    exact h hentry

/-- The other entries, when a file is stored. -/
theorem Fs.here_setFile_of_ne {s : Fs} {name : CString} {i j : Slot} (hj : j ≠ i) (f : File) :
    (s.setFile i f).Here name j ↔ s.Here name j := by
  refine exists_congr fun dir => and_congr_right fun _ => ?_
  rw [Fs.entry_iff, Fs.entry_iff, Fs.setFile_of_ne hj]
  rfl

/-- The file that a lookup finds is live. -/
theorem fsFindFile_live {s : Fs} {filename : Option CString} {i : Slot}
    (h : fsFindFile s filename = some i) : s.freeList i = false := by
  obtain ⟨_, _, _, _, _, hentry⟩ := fsFindFile_eq_some h
  exact (Fs.entry_iff.mp hentry).1

/-- `fs_list` shows the live entries of the current directory, whatever slots they are in. -/
theorem mem_fsListed {s : Fs} {i : Slot} :
    i ∈ fsListed s ↔ ∃ f, s.live i = some f ∧ f.parent = s.currentDir := by
  rw [fsListed, List.mem_filter, and_iff_right (List.mem_finRange i), Bool.and_eq_true,
    Bool.not_eq_true', beq_iff_eq]
  constructor
  · intro h
    exact ⟨_, Fs.live_of_used h.1, h.2⟩
  · intro h
    obtain ⟨f, hf, hpar⟩ := h
    obtain ⟨hfree, rfl⟩ := Fs.live_eq_some.mp hf
    exact ⟨hfree, hpar⟩

/-! ## Changes to one file -/

/-- The size that a resize aims at. -/
def clampSize (asked : SizeT) : SizeT := if asked > maxFileSize then maxFileSize else asked

/-- The size of the block that holds `n` bytes. -/
def blockSize (n : SizeT) : SizeT := (n + fsBlockSize - 1) / fsBlockSize * fsBlockSize

/-- The file after a resize that succeeds. -/
inductive Resized (f : File) (asked : SizeT) (heap : Heap) : File → Prop
  | fits (now : BitVec 64) : clampSize asked ≤ f.allocatedSize →
      Resized f asked heap { f with size := clampSize asked, modifiedTime := now }
  | grown (now : BitVec 64) {block : List UInt8} : f.allocatedSize < clampSize asked →
      reallocBlock heap f.data (blockSize (clampSize asked)) = some block →
      Resized f asked heap
        { f with
          data := some block
          allocatedSize := blockSize (clampSize asked)
          size := clampSize asked
          modifiedTime := now }

/-- The file after `n` bytes are written at its position. -/
def File.written (f : File) (buffer : Buffer) (n : SizeT) (now : BitVec 64) : File :=
  { f with
    data := f.data.map fun block => copyIn block f.position n buffer
    position := f.position + n
    size := if f.position + n > f.size then f.position + n else f.size
    modifiedTime := now }

/-- What opening, closing, reading and seeking do to a file. -/
inductive FileMove (f : File) : File → Prop
  | opened : f.isDir = false → f.isOpen = false →
      FileMove f { f with isOpen := true, position := 0 }
  | closed : f.isOpen = true → FileMove f { f with isOpen := false }
  | moved {p : SizeT} : f.isOpen = true → p ≤ f.size → FileMove f { f with position := p }

/-- What the calls of the interface do to a file. -/
inductive FileUse (f : File) : File → Prop
  | move {g : File} (h : FileMove f g) : FileUse f g
  | written {g : File} {buffer : Buffer} {n : SizeT} {now : BitVec 64} : f.isDir = false →
      f.isOpen = true → g = f ∨ (∃ asked heap, Resized f asked heap g) →
      FileUse f (g.written buffer n now)

/-- What a resize does to a file. -/
def FileResize (f g : File) : Prop := f.isDir = false ∧ ∃ asked heap, Resized f asked heap g

/-- What a call can do to a file that keeps its slot. -/
inductive FileChange (f g : File) : Prop
  | use (h : FileUse f g)
  | resize (h : FileResize f g)

/-- Two files that are the same node of the tree. -/
structure SameNode (f g : File) : Prop where
  name : g.name = f.name
  isDir : g.isDir = f.isDir
  parent : g.parent = f.parent
  inode : g.inode = f.inode
  permissions : g.permissions = f.permissions

theorem Resized.sameNode {f g : File} {asked : SizeT} {heap : Heap} (h : Resized f asked heap g) :
    SameNode f g := by
  cases h <;> exact ⟨rfl, rfl, rfl, rfl, rfl⟩

/-- A resize does not move the position. -/
theorem Resized.position {f g : File} {asked : SizeT} {heap : Heap} (h : Resized f asked heap g) :
    g.position = f.position := by
  cases h <;> rfl

theorem FileUse.sameNode {f g : File} (h : FileUse f g) : SameNode f g := by
  cases h with
  | move h => cases h <;> exact ⟨rfl, rfl, rfl, rfl, rfl⟩
  | written _ _ h =>
    rcases h with rfl | ⟨_, _, h⟩
    · exact ⟨rfl, rfl, rfl, rfl, rfl⟩
    · exact ⟨h.sameNode.name, h.sameNode.isDir, h.sameNode.parent, h.sameNode.inode,
        h.sameNode.permissions⟩

theorem FileChange.sameNode {f g : File} (h : FileChange f g) : SameNode f g := by
  cases h with
  | use h => exact h.sameNode
  | resize h =>
    obtain ⟨-, _, _, h⟩ := h
    exact h.sameNode

/-! ## Effects -/

/-- The driver's other globals, apart from the clock. -/
structure SameGlobals (s t : Fs) : Prop where
  fileCount : t.fileCount = s.fileCount
  nextInode : t.nextInode = s.nextInode
  currentDir : t.currentDir = s.currentDir

theorem SameGlobals.refl (s : Fs) : SameGlobals s s := ⟨rfl, rfl, rfl⟩

/-- A file as a create or a mkdir makes it. -/
structure NewFile (s : Fs) (name : CString) (f : File) : Prop where
  name : f.name = name
  parent : f.parent = s.currentDir
  inode : f.inode = s.nextInode
  closed : f.isOpen = false
  size : f.size = 0
  position : f.position = 0
  dirEmpty : f.isDir = true → f.allocatedSize = 0 ∧ f.data = none
  fileBlock : f.isDir = false → f.allocatedSize = fsBlockSize ∧
    ∃ block, f.data = some block ∧ block.length = fsBlockSize.toNat

/-- What a call does to the table. -/
inductive FsEffect (R : File → File → Prop) (makes removes : Option CString) (s t : Fs) : Prop
  | idle (live : t.live = s.live) (rest : SameGlobals s t)
  | touch {i : Slot} {f g : File} (old : s.live i = some f) (change : R f g)
      (live : t.live = Function.update s.live i (some g)) (rest : SameGlobals s t)
  | insert {i : Slot} {name : CString} {f : File} (named : makes = some name)
      (valid : fsValidateFilename (some name) = .success)
      (fresh : fsFindFile s (some name) = none) (slot : fsFindFreeSlot s = some i)
      (new : NewFile s name f) (live : t.live = Function.update s.live i (some f))
      (fileCount : t.fileCount = s.fileCount + 1) (nextInode : t.nextInode = s.nextInode + 1)
      (currentDir : t.currentDir = s.currentDir)
  | remove {i : Slot} {name : CString} {f : File} (named : removes = some name)
      (found : fsFindFile s (some name) = some i) (old : s.live i = some f)
      (closed : f.isOpen = false) (top : i ≠ 0)
      (leaf : f.isDir = true → ∀ j g, s.live j = some g → g.parent ≠ some i)
      (live : t.live = Function.update s.live i none)
      (fileCount : t.fileCount = s.fileCount - 1) (nextInode : t.nextInode = s.nextInode)
      (currentDir : t.currentDir =
        if f.isDir = true ∧ s.currentDir = some i then f.parent else s.currentDir)
  | enter {d : Slot} (dir : (∃ c f, s.currentDir = some c ∧ s.files c = f ∧ f.parent = some d) ∨
        ∃ f, s.live d = some f ∧ f.isDir = true)
      (live : t.live = s.live) (fileCount : t.fileCount = s.fileCount)
      (nextInode : t.nextInode = s.nextInode) (currentDir : t.currentDir = some d)

section Effects

variable {R R' : File → File → Prop} {makes removes : Option CString}

theorem FsEffect.refl (s : Fs) : FsEffect R makes removes s s := .idle rfl (.refl s)

theorem FsEffect.mono (himp : ∀ f g, R f g → R' f g) {s t : Fs}
    (h : FsEffect R makes removes s t) : FsEffect R' makes removes s t := by
  cases h with
  | idle live rest => exact .idle live rest
  | touch old change live rest => exact .touch old (himp _ _ change) live rest
  | insert named valid fresh slot new live count inode dir =>
    exact .insert named valid fresh slot new live count inode dir
  | remove named found old closed top leaf live count inode dir =>
    exact .remove named found old closed top leaf live count inode dir
  | enter dir live count inode cur => exact .enter dir live count inode cur

end Effects

end Unics
