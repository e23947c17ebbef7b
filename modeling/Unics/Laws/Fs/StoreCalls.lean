import Unics.Laws.Fs.Store
import Unics.Laws.Fs.Names
import Unics.Laws.Fs.Creates
import Unics.Lib.PathMap

/-!
# Reading a store off the table

`Fs.store` is the file store that the driver's globals stand for: its map is the `pathMap` of the
live files, and its current directory is the path of the current slot. Under the invariant `FsSound`
the calls that make, change, delete and enter entries are the store's functions between these
readings, with the same codes.

The domain, `StoreCall`, leaves out three kinds of calls: a resize through a `File *`, a write past
the largest block, and a delete that leaves a hole in the table, after which a lookup misses files.
-/

namespace Unics

open Unics.Lib

/-! ## The reading -/

/-- A slot's file lies at a path. -/
abbrev Fs.Lies (s : Fs) : List CString → Slot → Prop :=
  Lib.Lies File.parent File.name 0 s.live

/-- What a file is to its users. -/
def File.view (f : File) : FsNode :=
  if f.isDir then .directory
  else .file ⟨f.content, f.position.toNat, f.isOpen, f.permissions⟩

theorem File.view_dir {f : File} (h : f.isDir = true) : f.view = .directory := if_pos h

theorem File.view_file {f : File} (h : f.isDir = false) :
    f.view = .file ⟨f.content, f.position.toNat, f.isOpen, f.permissions⟩ := by
  rw [File.view, h, if_neg Bool.false_ne_true]

/-- The file store that the driver's globals stand for. -/
noncomputable def Fs.store (s : Fs) : FileStore where
  node := pathMap File.parent File.name 0 File.view s.live
  here := s.currentDir.elim [] (pathOf File.parent File.name 0 s.live)
  room := maxFiles - s.fileCount

/-- The answer of a call. -/
def fsAnswer (s : Fs) (c : FsCall) : FsAnswer where
  result := fsResult s c
  stored :=
    match c with
    | .read filename buffer size => (fsRead s filename buffer size).stored
    | _ => []

/-! ## The domain and the invariant -/

/-- A write that gets past its checks ends within the largest block. -/
def WriteInside (s : Fs) : FsCall → Prop
  | .write filename (some _) size _ => ∀ i, WriteTarget s filename size i →
      (s.files i).position.toNat + size.toNat ≤ maxFileSize.toNat
  | _ => True

theorem WriteInside.fits {s : Fs} {c : FsCall} (h : WriteInside s c) : WriteFits s c := by
  cases c with
  | write filename buffer size heap =>
    cases buffer with
    | none => exact trivial
    | some buffer => exact fun i hi => .inl (h i hi)
  | _ => exact trivial

/-- A call of the interface that neither leaves a hole in the table nor writes past a block. -/
structure StoreCall (s : Fs) (c : FsCall) : Prop where
  interface : c.NoResize
  last : DeletesLast s c
  inside : WriteInside s c

/-- The invariant that the reading needs. -/
structure FsSound (s : Fs) : Prop where
  named : FsNamed s
  compact : Compact (occupied s.live)
  bounded : s.Bounded
  held : s.Held
  positions : s.PositionsInside

theorem fsSound_init (s : Fs) : FsSound (fsInit s) where
  named := fsNamed_init s
  compact := fsInit_compact s
  bounded := fsInit_bounded s
  held := fsInit_held s
  positions i f hf _ := by
    obtain ⟨-, rfl⟩ := fsInit_only hf
    exact BitVec.le_refl _

theorem FsSound.step {s : Fs} (h : FsSound s) {c : FsCall} (hc : StoreCall s c) :
    FsSound (fsStep s c) where
  named := h.named.step fun _ _ _ _ _ hi => h.named.entry_lt h.compact hi
  compact := compact_step h.compact hc.last
  bounded := h.bounded.step hc.inside.fits
  held := h.held.step c
  positions := h.positions.effect (fsStep_use s c hc.interface)

/-! ## What the reading shows -/

section Reading

variable {s t : Fs} {filename : Option CString} {name : CString} {i d : Slot} {f g : File}

theorem FsSound.siblings (h : FsSound s) : Siblings File.parent File.name s.live :=
  h.named.unique

theorem FsSound.tree (h : FsSound s) : s.IsTree := h.named.tree.tree

/-- The current directory lies at the current path. -/
theorem FsSound.here (h : FsSound s) :
    ∃ d, s.currentDir = some d ∧ s.Lies s.store.here d := by
  obtain ⟨d, f, hd, hf, -⟩ := h.named.tree.current
  obtain ⟨path, hpath⟩ := h.tree.exists_lies File.name hf
  refine ⟨d, hd, ?_⟩
  have : s.store.here = path := by
    rw [Fs.store, hd]
    exact hpath.pathOf_eq h.tree
  rwa [this]

theorem FsTree.here_eq (h : FsTree s) (hd : s.currentDir = some d) {path : List CString}
    (hpath : s.Lies path d) : s.store.here = path := by
  rw [Fs.store, hd]
  exact hpath.pathOf_eq h.tree

/-- The lookup is the store's. -/
theorem FsSound.find_some (h : FsSound s) (hfound : fsFindFile s filename = some i) :
    ∃ name, filename = some name ∧ s.Lies (s.store.here ++ [name]) i ∧
      s.live i = some (s.files i) ∧ (s.files i).name = name ∧
      s.store.find filename = some (s.files i).view := by
  obtain ⟨name, dir, rfl, hdir, -, f, hf, hpar, rfl⟩ := fsFindFile_eq_some hfound
  obtain ⟨d, hd, hhere⟩ := h.here
  obtain rfl := Option.some.inj (hdir.symm.trans hd)
  obtain ⟨-, rfl⟩ := Fs.live_eq_some.mp hf
  have lies := hhere.into hf hpar
  exact ⟨_, rfl, lies, hf, rfl, lies.pathMap_eq h.siblings hf⟩

theorem FsSound.find_none (h : FsSound s) (hfound : fsFindFile s filename = none) :
    s.store.find filename = none := by
  cases filename with
  | none => rfl
  | some name =>
    obtain ⟨d, hd, hhere⟩ := h.here
    refine Option.eq_none_iff_forall_ne_some.mpr fun x hx => ?_
    obtain ⟨k, f, hf, hpar, hname, -⟩ := (hhere.pathMap_child_iff h.siblings).mp hx
    have entry : s.Entry d name k := ⟨f, hf, hpar, hname⟩
    have lt := h.named.entry_lt h.compact entry
    exact absurd (fsFindFile_eq_none.mp hfound k ⟨d, hd, entry⟩) (Nat.not_le.mpr lt)

/-- Only the live files, the count and the current directory are read. -/
theorem store_congr (hlive : t.live = s.live) (hrest : SameGlobals s t) : t.store = s.store := by
  rw [Fs.store, Fs.store, hlive, hrest.currentDir, hrest.fileCount]

/-- The table is full exactly when the store has no room. -/
theorem FsTree.room_eq_zero (h : FsTree s) : s.store.room = 0 ↔ fsFindFreeSlot s = none := by
  show maxFiles - s.fileCount = 0 ↔ _
  constructor
  · intro hroom
    cases hslot : fsFindFreeSlot s with
    | none => rfl
    | some i =>
      have free := (Fin.find?_eq_some_iff.mp hslot).1
      have few : (Finset.univ.filter fun k => s.freeList k = false).card < Fintype.card Slot :=
        Finset.card_lt_univ_of_notMem (x := i) fun hi =>
          Bool.false_ne_true ((Finset.mem_filter.mp hi).2.symm.trans free)
      rw [← h.count_free, Fintype.card_fin] at few
      omega
  · intro hslot
    by_contra hroom
    obtain ⟨i, hi⟩ := h.exists_freeSlot (Nat.lt_of_sub_ne_zero hroom)
    exact absurd (hslot.symm.trans hi) (Option.some_ne_none i).symm

/-- A file that stays where it is changes one point of the store. -/
theorem FsSound.store_replace (h : FsSound s) (ht : FsTree t)
    (hlies : s.Lies (s.store.here ++ [name]) i) (hf : s.live i = some f)
    (hpar : g.parent = f.parent) (hname : g.name = f.name)
    (hlive : t.live = Function.update s.live i (some g)) (hrest : SameGlobals s t) :
    t.store = s.store.put name (some g.view) := by
  obtain ⟨d, hd, hhere⟩ := h.here
  have here : t.store.here = s.store.here := by
    refine ht.here_eq (hrest.currentDir.trans hd) ?_
    rw [Fs.Lies, hlive]
    exact (lies_replace_iff hf hpar hname).mpr hhere
  have node : t.store.node = Function.update s.store.node (s.store.here ++ [name])
      (some g.view) := by
    show pathMap File.parent File.name 0 File.view t.live = _
    rw [hlive]
    exact pathMap_replace h.tree h.siblings hlies hf hpar hname
  have room : t.store.room = s.store.room := by
    show maxFiles - t.fileCount = maxFiles - s.fileCount
    rw [hrest.fileCount]
  rw [FileStore.put, ← node, ← here, ← room]

/-- A new file is a new point. -/
theorem FsSound.store_insert (h : FsSound s) (ht : FsNamed t) (hslot : fsFindFreeSlot s = some i)
    (hpar : f.parent = s.currentDir) (hname : f.name = name)
    (hlive : t.live = Function.update s.live i (some f)) (hcount : t.fileCount = s.fileCount + 1)
    (hcurrent : t.currentDir = s.currentDir) :
    t.store = { s.store.put name (some f.view) with room := s.store.room - 1 } := by
  obtain ⟨d, hd, hhere⟩ := h.here
  have free : s.live i = none := Fs.live_eq_none.mpr (Fin.find?_eq_some_iff.mp hslot).1
  have here : t.store.here = s.store.here := by
    refine ht.tree.here_eq (hcurrent.trans hd) ?_
    rw [Fs.Lies, hlive]
    exact (lies_insert_iff h.tree free (hpar.trans hd) hhere).mpr (.inr hhere)
  have node : t.store.node = Function.update s.store.node (s.store.here ++ [name])
      (some f.view) := by
    have names : Siblings File.parent File.name (Function.update s.live i (some f)) :=
      hlive ▸ ht.unique
    show pathMap File.parent File.name 0 File.view t.live = _
    rw [hlive, ← hname]
    exact pathMap_insert h.tree h.siblings names free (hpar.trans hd) hhere
  have room : t.store.room = s.store.room - 1 := by
    show maxFiles - t.fileCount = maxFiles - s.fileCount - 1
    omega
  rw [FileStore.put, ← node, ← here, ← room]

/-- A file that goes clears its point. -/
theorem FsSound.store_remove (h : FsSound s) (ht : FsTree t)
    (hlies : s.Lies (s.store.here ++ [name]) i) (hf : s.live i = some f) (htop : i ≠ 0)
    (hleaf : ∀ j g, s.live j = some g → g.parent ≠ some i)
    (hlive : t.live = Function.update s.live i none) (hcount : t.fileCount = s.fileCount - 1)
    (hcurrent : t.currentDir = s.currentDir) : t.store = s.store.drop name := by
  obtain ⟨d, hd, hhere⟩ := h.here
  -- the current directory has a child, so it stays
  have stays : d ≠ i := by
    rintro rfl
    obtain ⟨e, b, he, hb, hpar, -⟩ := lies_concat_iff.mp hlies
    obtain rfl := he.index_unique h.siblings hhere
    exact hleaf _ _ hb hpar
  have here : t.store.here = s.store.here := by
    refine ht.here_eq (hcurrent.trans hd) ?_
    rw [Fs.Lies, hlive]
    exact (lies_remove_iff htop hleaf).mpr ⟨hhere, stays⟩
  have node : t.store.node = Function.update s.store.node (s.store.here ++ [name]) none := by
    show pathMap File.parent File.name 0 File.view t.live = _
    rw [hlive]
    exact pathMap_remove h.tree h.siblings hlies htop hleaf
  have room : t.store.room = s.store.room + 1 := by
    show maxFiles - t.fileCount = maxFiles - s.fileCount + 1
    have some : 0 < s.fileCount := by
      rw [h.named.tree.count]
      exact Finset.card_pos.mpr ⟨i, mem_occupied.mpr (by rw [hf]; rfl)⟩
    have fits : s.fileCount ≤ maxFiles := by
      rw [h.named.tree.count]
      exact card_finset_fin_le _
    omega
  rw [FileStore.drop, FileStore.put, ← node, ← here, ← room]

end Reading

/-! ## Calls that make an entry -/

/-- What `fs_create_with_perms` and `fs_mkdir` do, in the order of their checks. -/
structure Makes (s : Fs) (filename : Option CString) (x : FsNode) (memory : Bool)
    (r : Fs × FsCode) : Prop where
  invalid : fsValidateFilename filename ≠ .success → r = (s, fsValidateFilename filename)
  taken : fsValidateFilename filename = .success → ∀ i, fsFindFile s filename = some i →
    r = (s, .errExists)
  full : fsValidateFilename filename = .success → fsFindFile s filename = none →
    fsFindFreeSlot s = none → r = (s, .errFull)
  refused : fsValidateFilename filename = .success → fsFindFile s filename = none →
    ∀ i, fsFindFreeSlot s = some i → memory = false →
    r.2 = .errNoMemory ∧ r.1.live = s.live ∧ SameGlobals s r.1
  made : fsValidateFilename filename = .success → fsFindFile s filename = none →
    ∀ i, fsFindFreeSlot s = some i → memory = true →
    r.2 = .success ∧ ∃ f, f.parent = s.currentDir ∧ some f.name = filename ∧ f.view = x ∧
      r.1.live = Function.update s.live i (some f) ∧ r.1.fileCount = s.fileCount + 1 ∧
      r.1.currentDir = s.currentDir

theorem fsCreateWithPerms_makes (s : Fs) (filename : Option CString) (permissions : UInt8)
    (heap : Heap) :
    Makes s filename (.file (.new permissions)) heap.isSome
      (fsCreateWithPerms s filename permissions heap) := by
  cases filename with
  | none =>
    have no : fsValidateFilename none ≠ .success := FsCode.noConfusion
    exact ⟨fun _ => rfl, fun h => absurd h no, fun h => absurd h no, fun h => absurd h no,
      fun h => absurd h no⟩
  | some name =>
    constructor
    case invalid =>
      intro hvalid
      unfold fsCreateWithPerms
      split
      · next h => exact absurd h hvalid
      · rfl
    case taken =>
      intro hvalid i hi
      unfold fsCreateWithPerms
      rw [hvalid, hi]
      rfl
    case full =>
      intro hvalid hfresh hslot
      unfold fsCreateWithPerms
      rw [hvalid, hfresh, hslot]
      rfl
    case refused =>
      intro hvalid hfresh i hslot hheap
      obtain rfl := Option.not_isSome_iff_eq_none.mp (Bool.eq_false_iff.mp hheap)
      unfold fsCreateWithPerms
      rw [hvalid, hfresh, hslot]
      exact ⟨rfl, Fs.live_store_free rfl rfl (Fin.find?_eq_some_iff.mp hslot).1, rfl, rfl, rfl⟩
    case made =>
      intro hvalid hfresh i hslot hheap
      have ready : CreateReady s name heap i :=
        ⟨hvalid, hfresh, hslot, Option.isSome_iff_ne_none.mp hheap⟩
      obtain ⟨hcode, f, made⟩ := fsCreateWithPerms_ready ready permissions
      refine ⟨hcode, f, made.file.parent, congrArg some made.file.name, ?_, made.live,
        made.fileCount, made.currentDir⟩
      rw [File.view_file made.notDir, File.content, made.file.size, made.file.position,
        made.file.closed, made.permissions]
      rfl

theorem fsMkdir_makes (s : Fs) (dirname : Option CString) :
    Makes s dirname .directory true (fsMkdir s dirname) := by
  cases dirname with
  | none =>
    have no : fsValidateFilename none ≠ .success := FsCode.noConfusion
    exact ⟨fun _ => rfl, fun h => absurd h no, fun h => absurd h no, fun h => absurd h no,
      fun h => absurd h no⟩
  | some name =>
    constructor
    case invalid =>
      intro hvalid
      unfold fsMkdir
      split
      · next h => exact absurd h hvalid
      · rfl
    case taken =>
      intro hvalid i hi
      unfold fsMkdir
      rw [hvalid, hi]
      rfl
    case full =>
      intro hvalid hfresh hslot
      unfold fsMkdir
      rw [hvalid, hfresh, hslot]
      rfl
    case refused => exact fun _ _ _ _ hmemory => Bool.noConfusion hmemory
    case made =>
      intro hvalid hfresh i hslot _
      unfold fsMkdir
      rw [hvalid, hfresh, hslot]
      exact ⟨rfl, _, rfl, congrArg some (strncpy_of_valid hvalid), rfl, Fs.live_fill rfl rfl, rfl,
        rfl⟩

section Calls

variable {s : Fs} {filename : Option CString}

theorem Makes.refines (h : FsSound s) {x : FsNode} {memory : Bool} {r : Fs × FsCode}
    (hr : Makes s filename x memory r) (hnamed : FsNamed r.1) :
    s.store.make filename x memory = (r.1.store, r.2) := by
  by_cases hvalid : fsValidateFilename filename = .success
  · obtain ⟨name, rfl⟩ : ∃ name, filename = some name := by
      cases filename with
      | none => cases hvalid
      | some name => exact ⟨name, rfl⟩
    unfold FileStore.make
    rw [hvalid]
    dsimp only
    cases hfound : fsFindFile s (some name) with
    | some i =>
      obtain ⟨-, -, -, -, -, hview⟩ := h.find_some hfound
      rw [hview, hr.taken hvalid i hfound]
      rfl
    | none =>
      rw [h.find_none hfound, if_neg (by exact Bool.false_ne_true)]
      cases hslot : fsFindFreeSlot s with
      | none => rw [if_pos (h.named.tree.room_eq_zero.mpr hslot), hr.full hvalid hfound hslot]
      | some i =>
        have room : s.store.room ≠ 0 := fun hzero =>
          absurd ((h.named.tree.room_eq_zero.mp hzero).symm.trans hslot)
            (Option.some_ne_none i).symm
        rw [if_neg room]
        cases memory with
        | false =>
          obtain ⟨hcode, hlive, hrest⟩ := hr.refused hvalid hfound i hslot rfl
          rw [if_neg Bool.false_ne_true, hcode, store_congr hlive hrest]
        | true =>
          obtain ⟨hcode, f, hpar, hname, rfl, hlive, hcount, hcurrent⟩ :=
            hr.made hvalid hfound i hslot rfl
          rw [if_pos rfl, hcode, h.store_insert hnamed hslot hpar (Option.some.inj hname) hlive
            hcount hcurrent]
  · unfold FileStore.make
    split
    · next hsuccess => exact absurd hsuccess hvalid
    · rw [hr.invalid hvalid]

/-! ## Calls on an entry -/

/-- The table after a file is replaced by one that is the same node. -/
theorem FsSound.setFile_store (h : FsSound s) {i : Slot} {name : CString} {g : File}
    (hlies : s.Lies (s.store.here ++ [name]) i) (hf : s.live i = some (s.files i))
    (hsame : SameNode (s.files i) g) : (s.setFile i g).store = s.store.put name (some g.view) := by
  have hlive : (s.setFile i g).live = Function.update s.live i (some g) :=
    Fs.live_store rfl rfl (Fs.live_eq_some.mp hf).1
  have effect : FsEffect SameNode none none s (s.setFile i g) :=
    .touch hf hsame hlive ⟨rfl, rfl, rfl⟩
  exact h.store_replace (h.named.tree.effect (fun _ _ => id) effect) hlies hf hsame.parent
    hsame.name hlive ⟨rfl, rfl, rfl⟩

/-- What a call does to the file that it finds. -/
def Changes (s : Fs) (i : Slot) (r : Fs × FsCode) : Except FsCode FsNode → Prop
  | .ok y => ∃ g, SameNode (s.files i) g ∧ g.view = y ∧ r = (s.setFile i g, .success)
  | .error code => r = (s, code)

theorem FsSound.change (h : FsSound s) {f : FsNode → Except FsCode FsNode} {r : Fs × FsCode}
    (hnone : fsFindFile s filename = none → r = (s, .errNotFound))
    (hfound : ∀ i, fsFindFile s filename = some i → Changes s i r (f (s.files i).view)) :
    s.store.change filename f = (r.1.store, r.2) := by
  unfold FileStore.change
  cases hfind : fsFindFile s filename with
  | none =>
    rw [h.find_none hfind, hnone hfind]
    cases filename <;> rfl
  | some i =>
    obtain ⟨name, rfl, hlies, hf, -, hview⟩ := h.find_some hfind
    have changes := hfound i hfind
    rw [hview]
    dsimp only
    cases hres : f (s.files i).view with
    | error code =>
      rw [hres] at changes
      have eq : r = (s, code) := changes
      rw [eq]
    | ok y =>
      rw [hres] at changes
      obtain ⟨g, hsame, rfl, eq⟩ := changes
      rw [eq, h.setFile_store hlies hf hsame]

/-- A file that is open is no directory. -/
theorem FsSound.notDir_of_open (h : FsSound s) {i : Slot} (hf : s.live i = some (s.files i))
    (hopen : (s.files i).isOpen = true) : (s.files i).isDir = false := by
  by_contra hdir
  have closed := (h.held i _ hf).closed (Bool.eq_true_of_not_eq_false hdir)
  exact absurd (hopen.symm.trans closed) Bool.noConfusion

theorem FsSound.openFile (h : FsSound s) (filename : Option CString) :
    s.store.change filename FileStore.openNode = ((fsOpen s filename).1.store,
      (fsOpen s filename).2) := by
  refine h.change (fun hnone => ?_) fun i hi => ?_
  · unfold fsOpen
    rw [hnone]
  · cases hdir : (s.files i).isDir with
    | true =>
      rw [File.view_dir hdir]
      show fsOpen s filename = (s, .errInvalidPath)
      unfold fsOpen
      rw [hi]
      dsimp only
      rw [if_pos hdir]
    | false =>
      rw [File.view_file hdir]
      cases hopen : (s.files i).isOpen with
      | true =>
        show fsOpen s filename = (s, .errFileOpen)
        unfold fsOpen
        rw [hi]
        dsimp only
        rw [hdir, if_neg Bool.false_ne_true, if_pos hopen]
      | false =>
        refine ⟨{ s.files i with isOpen := true, position := 0 }, ⟨rfl, rfl, rfl, rfl, rfl⟩, ?_,
          fsOpen_found hi hdir hopen⟩
        exact File.view_file hdir

theorem FsSound.close (h : FsSound s) (filename : Option CString) :
    s.store.change filename FileStore.closeNode = ((fsClose s filename).1.store,
      (fsClose s filename).2) := by
  have closed : ∀ i, fsFindFile s filename = some i → (s.files i).isOpen = false →
      fsClose s filename = (s, .errNotOpen) := by
    intro i hi hopen
    unfold fsClose
    rw [hi]
    dsimp only
    rw [hopen, if_pos (by exact rfl)]
  refine h.change (fun hnone => ?_) fun i hi => ?_
  · unfold fsClose
    rw [hnone]
  · obtain ⟨-, -, -, hf, -⟩ := h.find_some hi
    cases hopen : (s.files i).isOpen with
    | true =>
      have hdir := h.notDir_of_open hf hopen
      rw [File.view_file hdir, hopen]
      refine ⟨{ s.files i with isOpen := false }, ⟨rfl, rfl, rfl, rfl, rfl⟩, ?_,
        fsClose_found hi hopen⟩
      exact File.view_file hdir
    | false =>
      cases hdir : (s.files i).isDir with
      | true =>
        rw [File.view_dir hdir]
        exact closed i hi hopen
      | false =>
        rw [File.view_file hdir, hopen]
        exact closed i hi hopen

/-- The content of a file has the file's size. -/
theorem FsSound.length_content (h : FsSound s) {i : Slot} (hf : s.live i = some (s.files i))
    (hdir : (s.files i).isDir = false) :
    (s.files i).content.length = (s.files i).size.toNat := by
  have bounded := h.bounded i _ hf
  obtain ⟨block, hdata, hlength⟩ := bounded.block hdir
  rw [Unics.length_content hdata, hlength]
  exact Nat.min_eq_left (BitVec.le_def.mp bounded.size)

theorem FsSound.seek (h : FsSound s) (filename : Option CString) (offset : SizeT) :
    s.store.change filename (FileStore.seekNode offset) = ((fsSeek s filename offset).1.store,
      (fsSeek s filename offset).2) := by
  have closed : ∀ i, fsFindFile s filename = some i → (s.files i).isOpen = false →
      fsSeek s filename offset = (s, .errNotOpen) := by
    intro i hi hopen
    unfold fsSeek
    rw [hi]
    dsimp only
    rw [hopen, if_pos (by exact rfl)]
  refine h.change (fun hnone => ?_) fun i hi => ?_
  · unfold fsSeek
    rw [hnone]
  · obtain ⟨-, -, -, hf, -⟩ := h.find_some hi
    cases hopen : (s.files i).isOpen with
    | true =>
      have hdir := h.notDir_of_open hf hopen
      have length := h.length_content hf hdir
      rw [File.view_file hdir, hopen, FileStore.seekNode]
      dsimp only
      rw [if_neg (by exact fun hno => hno rfl), length]
      by_cases hoff : offset ≤ (s.files i).size
      · rw [if_neg (Nat.not_lt.mpr (BitVec.le_def.mp hoff))]
        refine ⟨{ s.files i with position := offset }, ⟨rfl, rfl, rfl, rfl, rfl⟩, ?_,
          fsSeek_found hi hopen hoff⟩
        rw [← hopen]
        exact File.view_file hdir
      · rw [if_pos (Nat.not_le.mp fun hle => hoff (BitVec.le_def.mpr hle))]
        show fsSeek s filename offset = (s, .errSeekBounds)
        unfold fsSeek
        rw [hi]
        dsimp only
        rw [hopen, if_neg (by exact Bool.false_ne_true), if_pos (BitVec.not_le.mp hoff)]
    | false =>
      cases hdir : (s.files i).isDir with
      | true =>
        rw [File.view_dir hdir]
        exact closed i hi hopen
      | false =>
        rw [File.view_file hdir, hopen]
        exact closed i hi hopen

/-! ## Deleting and moving -/

/-- A file that a lookup finds is not the root. -/
theorem FsSound.found_ne_root (h : FsSound s) {i : Slot} {name : CString}
    (hlies : s.Lies (s.store.here ++ [name]) i) : i ≠ 0 := by
  obtain ⟨d, f, -, hf, hpar, -⟩ := lies_concat_iff.mp hlies
  exact h.tree.ne_root hf hpar

/-- Something lies below a path exactly when something hangs under what is there. -/
theorem FsSound.hasChildren_iff (h : FsSound s) {path : List CString} {i : Slot}
    (hi : s.Lies path i) :
    s.store.HasChildren path ↔ ∃ j, s.freeList j = false ∧ (s.files j).parent = some i := by
  constructor
  · rintro ⟨name, hname⟩
    obtain ⟨x, hx⟩ := Option.ne_none_iff_exists'.mp hname
    obtain ⟨k, f, hf, hpar, -⟩ := (hi.pathMap_child_iff h.siblings).mp hx
    obtain ⟨hused, rfl⟩ := Fs.live_eq_some.mp hf
    exact ⟨k, hused, hpar⟩
  · rintro ⟨j, hused, hpar⟩
    refine ⟨(s.files j).name, Option.ne_none_iff_exists'.mpr ⟨(s.files j).view, ?_⟩⟩
    exact (hi.pathMap_child_iff h.siblings).mpr ⟨j, _, Fs.live_of_used hused, hpar, rfl, rfl⟩

/-- A delete that finds a closed file without children. -/
theorem fsDelete_found {i : Slot} (hfound : fsFindFile s filename = some i)
    (hopen : (s.files i).isOpen = false) (htop : i ≠ 0)
    (hleaf : ¬ ((s.files i).isDir = true ∧
      ∃ j, s.freeList j = false ∧ (s.files j).parent = some i))
    (hstays : s.currentDir ≠ some i) :
    fsDelete s filename = ({ (s.setFree i true).setFile i .zero with
      currentDir := s.currentDir
      fileCount := s.fileCount - 1 }, .success) := by
  have closed : ¬ (s.files i).isOpen = true := by
    rw [hopen]
    exact Bool.noConfusion
  unfold fsDelete
  rw [hfound]
  dsimp only
  rw [if_neg closed, if_neg htop, if_neg hleaf, if_neg fun hcur => hstays hcur.2]

theorem FsSound.delete_gone (h : FsSound s) {i : Slot} {name : CString}
    (hfound : fsFindFile s (some name) = some i)
    (hopen : (s.files i).isOpen = false)
    (hleaf : ∀ j g, s.live j = some g → g.parent ≠ some i) :
    (s.store.drop name, FsCode.success) =
      ((fsDelete s (some name)).1.store, (fsDelete s (some name)).2) := by
  obtain ⟨_, heq, hlies, hf, -⟩ := h.find_some hfound
  obtain rfl := Option.some.inj heq
  obtain ⟨d, e, -, he, hpar, -⟩ := lies_concat_iff.mp hlies
  have top := h.found_ne_root hlies
  have leaf : ¬ ((s.files i).isDir = true ∧
      ∃ j, s.freeList j = false ∧ (s.files j).parent = some i) := by
    rintro ⟨-, j, hused, hjpar⟩
    exact hleaf j _ (Fs.live_of_used hused) hjpar
  -- the file hangs under the current directory, which is another one
  have stays : s.currentDir ≠ some i := by
    intro hcur
    have := (fsFindFile_parent hfound hf).1
    rw [hcur] at this
    exact hleaf i _ hf this
  have tree : FsTree (fsDelete s (some name)).1 := h.named.tree.step (.delete (some name))
  have eq := fsDelete_found hfound hopen top leaf stays
  rw [eq] at tree ⊢
  rw [h.store_remove tree hlies hf top hleaf (Fs.live_clear rfl rfl) rfl rfl]

theorem FsSound.delete (h : FsSound s) (filename : Option CString) :
    s.store.delete filename = ((fsDelete s filename).1.store, (fsDelete s filename).2) := by
  unfold FileStore.delete
  cases hfound : fsFindFile s filename with
  | none =>
    rw [h.find_none hfound]
    unfold fsDelete
    rw [hfound]
    cases filename <;> rfl
  | some i =>
    obtain ⟨name, rfl, hlies, hf, -, hview⟩ := h.find_some hfound
    rw [hview]
    cases hdir : (s.files i).isDir with
    | false =>
      rw [File.view_file hdir]
      dsimp only
      cases hopen : (s.files i).isOpen with
      | true =>
        rw [if_pos rfl]
        unfold fsDelete
        rw [hfound]
        dsimp only
        rw [if_pos hopen]
      | false =>
        rw [if_neg Bool.false_ne_true]
        exact h.delete_gone hfound hopen (h.tree.leaf_of_file hf hdir)
    | true =>
      have hopen := (h.held i _ hf).closed hdir
      rw [File.view_dir hdir]
      dsimp only
      by_cases hchild : s.store.HasChildren (s.store.here ++ [name])
      · rw [if_pos hchild]
        unfold fsDelete
        rw [hfound]
        dsimp only
        rw [hopen, if_neg Bool.false_ne_true, if_neg (h.found_ne_root hlies),
          if_pos ⟨hdir, (h.hasChildren_iff hlies).mp hchild⟩]
      · rw [if_neg hchild]
        refine h.delete_gone hfound hopen fun j g hg hpar => hchild ?_
        obtain ⟨hused, rfl⟩ := Fs.live_eq_some.mp hg
        exact (h.hasChildren_iff hlies).mpr ⟨j, hused, hpar⟩

/-- Another current directory. -/
theorem FsSound.store_enter (h : FsSound s) {path : List CString} {d : Slot}
    (hd : s.Lies path d) :
    ({ s with currentDir := some d } : Fs).store = { s.store with here := path } := by
  have here : pathOf File.parent File.name 0 s.live d = path := hd.pathOf_eq h.tree
  show FileStore.mk _ (pathOf File.parent File.name 0 s.live d) _ = _
  rw [here]
  rfl

theorem FsSound.chdir (h : FsSound s) (dirname : CString) :
    s.store.chdir dirname = ((fsChdir s dirname).1.store, (fsChdir s dirname).2) := by
  unfold FileStore.chdir fsChdir
  split
  · -- up
    obtain ⟨d, hd, hhere⟩ := h.here
    rcases List.eq_nil_or_concat s.store.here with hnil | ⟨path, n, hpath⟩
    · rw [hnil] at hhere
      obtain rfl := hhere.eq_root
      obtain ⟨r, hr, -, hnone⟩ := h.tree.top
      obtain ⟨-, rfl⟩ := Fs.live_eq_some.mp hr
      rw [if_pos hnil, hd, Option.bind_some, hnone]
    · rw [List.concat_eq_append] at hpath
      have ne : s.store.here ≠ [] := by
        rw [hpath]
        exact List.append_ne_nil_of_right_ne_nil _ (List.cons_ne_nil _ _)
      rw [hpath] at hhere
      obtain ⟨e, a, he, ha, hpar, -⟩ := lies_concat_iff.mp hhere
      obtain ⟨-, rfl⟩ := Fs.live_eq_some.mp ha
      rw [if_neg ne, hd, Option.bind_some, hpar]
      dsimp only
      rw [hpath, List.dropLast_concat, h.store_enter he]
  · -- down
    cases hfound : fsFindFile s (some dirname) with
    | none => rw [h.find_none hfound]
    | some i =>
      obtain ⟨name, heq, hlies, -, -, hview⟩ := h.find_some hfound
      obtain rfl := Option.some.inj heq
      rw [hview]
      cases hdir : (s.files i).isDir with
      | true =>
        rw [File.view_dir hdir]
        dsimp only
        rw [hdir, if_neg (by exact Bool.false_ne_true), h.store_enter hlies]
      | false =>
        rw [File.view_file hdir]
        dsimp only
        rw [hdir, if_pos (by exact rfl)]

end Calls

end Unics
