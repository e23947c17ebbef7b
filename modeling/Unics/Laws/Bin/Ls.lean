import Unics.Bin.Files
import Unics.Laws.Fs.Names
import Unics.Laws.Fs.Paths

/-!
# What ls lists

`fs_list` goes over all 64 slots and skips the free ones. `ls` goes over the slots below
`file_count` and does not look whether they are free. A free slot has no parent, so `ls` shows none.
But where deletes have left holes, live entries lie at the count or behind it, and `ls` leaves them
out: `ls_agrees_iff`.
-/

namespace Unics

open Unics.Lib

/-- The entries of the current directory, each once and in the order of their slots. -/
structure Lists (s : Fs) (slots : List Slot) : Prop where
  exact : ∀ i, i ∈ slots ↔ ∃ f, s.live i = some f ∧ f.parent = s.currentDir
  order : slots.Pairwise (· < ·)

/-- What `fs_list` shows of a file. -/
def fsListRow (f : File) : FsListRow where
  name := f.name
  isDir := f.isDir
  size := f.size
  permissions := permText f.permissions
  modifiedTime := f.modifiedTime

/-- Both listings print the entries of the current directory, and `ls` ends the line. -/
def ListingsAgree (s : Fs) (color : UInt8) : Prop :=
  ∃ slots, Lists s slots ∧
    (fsList s).rows = slots.map (fun i => fsListRow (s.files i)) ∧
    (lsMain s color).printed = slots.map (fun i => lsPrint (s.files i)) ++ [⟨color, text "\n"⟩]

/-- Every entry of the current directory lies below the count. -/
def Fs.Counted (s : Fs) : Prop :=
  ∀ i f, s.live i = some f → f.parent = s.currentDir → i.val < s.fileCount

/-! ## Free slots -/

/-- No free slot has a parent. -/
def Fs.NoStrays (s : Fs) : Prop := ∀ i, s.freeList i = true → (s.files i).parent = none

theorem fsInit_noStrays (s : Fs) : (fsInit s).NoStrays := by
  intro i hfree
  by_cases hi : i = 0
  · subst hi
    exact Bool.noConfusion hfree
  · show (Function.update (fun _ => File.zero) 0 _ i : File).parent = none
    rw [Function.update_of_ne hi]
    rfl

section NoStrays

variable {s t : Fs} {i : Slot} {g : File}

/-- A store to one slot, which gives it no parent if it is free. -/
theorem Fs.NoStrays.store (h : s.NoStrays) (hfiles : t.files = Function.update s.files i g)
    (hfree : ∀ j, j ≠ i → t.freeList j = s.freeList j)
    (hi : t.freeList i = true → g.parent = none) : t.NoStrays := by
  intro j hj
  rw [hfiles]
  by_cases hji : j = i
  · subst hji
    rw [Function.update_self]
    exact hi hj
  · rw [Function.update_of_ne hji]
    exact h j (hfree j hji ▸ hj)

/-- A store that keeps the parent. -/
theorem Fs.NoStrays.poke (h : s.NoStrays) (hfiles : t.files = Function.update s.files i g)
    (hfree : t.freeList = s.freeList) (hparent : g.parent = (s.files i).parent) : t.NoStrays :=
  h.store hfiles (fun _ _ => congrFun hfree _) fun hi => hparent.trans (h i (hfree ▸ hi))

/-- A store that fills the slot. -/
theorem Fs.NoStrays.fill (h : s.NoStrays) (hfiles : t.files = Function.update s.files i g)
    (hfree : t.freeList = Function.update s.freeList i false) : t.NoStrays := by
  refine h.store hfiles (fun j hj => ?_) fun hi => ?_
  · rw [hfree, Function.update_of_ne hj]
  · rw [hfree, Function.update_self] at hi
    exact Bool.noConfusion hi

theorem Fs.NoStrays.create (h : s.NoStrays) (filename : Option CString) (permissions : UInt8)
    (heap : Heap) : (fsCreateWithPerms s filename permissions heap).1.NoStrays := by
  unfold fsCreateWithPerms
  split
  · split
    · exact h
    · split
      · exact h
      · dsimp only
        split
        · exact h.poke rfl rfl rfl
        · exact h.fill rfl rfl
  · exact h

theorem Fs.NoStrays.mkdir (h : s.NoStrays) (dirname : Option CString) :
    (fsMkdir s dirname).1.NoStrays := by
  unfold fsMkdir
  split
  · split
    · exact h
    · split
      · exact h
      · exact h.fill rfl rfl
  · exact h

theorem Fs.NoStrays.delete (h : s.NoStrays) (filename : Option CString) :
    (fsDelete s filename).1.NoStrays := by
  unfold fsDelete
  split
  · exact h
  · dsimp only
    split
    · exact h
    · split
      · exact h
      · split
        · exact h
        · -- the slot is zeroed
          exact h.store rfl (fun j hj => Function.update_of_ne hj ..) fun _ => rfl

theorem Fs.NoStrays.chdir (h : s.NoStrays) (dirname : CString) :
    (fsChdir s dirname).1.NoStrays := by
  unfold fsChdir
  split
  · split <;> exact h
  · split
    · exact h
    · split <;> exact h

theorem Fs.NoStrays.openFile (h : s.NoStrays) (filename : Option CString) :
    (fsOpen s filename).1.NoStrays := by
  unfold fsOpen
  split
  · exact h
  · dsimp only
    split
    · exact h
    · split
      · exact h
      · exact h.poke rfl rfl rfl

theorem Fs.NoStrays.close (h : s.NoStrays) (filename : Option CString) :
    (fsClose s filename).1.NoStrays := by
  unfold fsClose
  split
  · exact h
  · dsimp only
    split
    · exact h
    · exact h.poke rfl rfl rfl

theorem Fs.NoStrays.seek (h : s.NoStrays) (filename : Option CString) (offset : SizeT) :
    (fsSeek s filename offset).1.NoStrays := by
  unfold fsSeek
  split
  · exact h
  · dsimp only
    split
    · exact h
    · split
      · exact h
      · exact h.poke rfl rfl rfl

theorem Fs.NoStrays.read (h : s.NoStrays) (filename : Option CString) (buffer : UIntPtr)
    (size : SizeT) : (fsRead s filename buffer size).after.NoStrays := by
  rcases fsRead_spec s filename buffer size with hnone | ⟨i, -, -, -, -, hread⟩
  · rw [hnone]
    exact h
  · rw [hread]
    exact h.poke rfl rfl rfl

theorem Fs.NoStrays.write (h : s.NoStrays) (filename : Option CString) (buffer : Option Buffer)
    (size : SizeT) (heap : Heap) : (fsWrite s filename buffer size heap).after.NoStrays := by
  cases buffer with
  | none => exact h
  | some buffer =>
    by_cases htarget : ∃ i, WriteTarget s filename size i
    · obtain ⟨i, htarget⟩ := htarget
      have hend := fsWrite_spec htarget buffer heap
      generalize fsWrite s filename (some buffer) size heap = r at hend ⊢
      cases hend with
      | inPlace | cut => exact h.poke rfl rfl rfl
      | noRoom => exact h
      | resized _ hg =>
        rw [fsWriteCopy_after_resize]
        exact h.poke rfl rfl hg.sameNode.parent
    · rw [fsWrite_no_target (not_exists.mp htarget)]
      exact h

theorem Fs.NoStrays.resize (h : s.NoStrays) (file : Option Slot) (newSize : SizeT) (heap : Heap) :
    (fsResizeFile s file newSize heap).1.NoStrays := by
  cases file with
  | none => exact h
  | some i =>
    cases hdir : (s.files i).isDir with
    | true =>
      simp only [fsResizeFile, hdir, if_true]
      exact h
    | false =>
      rcases fsResizeFile_spec hdir newSize heap with ⟨g, hg, hres⟩ | ⟨-, -, hres⟩
      · rw [hres]
        exact h.poke rfl rfl hg.sameNode.parent
      · rw [hres]
        exact h

end NoStrays

/-- Every call keeps the free slots without a parent. -/
theorem Fs.NoStrays.step {s : Fs} (h : s.NoStrays) : ∀ c : FsCall, (fsStep s c).NoStrays
  | .create filename heap => h.create filename fsPermDefault heap
  | .createWithPerms filename permissions heap => h.create filename permissions heap
  | .mkdir dirname => h.mkdir dirname
  | .delete filename => h.delete filename
  | .chdir dirname => h.chdir dirname
  | .openFile filename => h.openFile filename
  | .close filename => h.close filename
  | .read filename buffer size => h.read filename buffer size
  | .write filename buffer size heap => h.write filename buffer size heap
  | .seek filename offset => h.seek filename offset
  | .resizeFile file newSize heap => h.resize file newSize heap

/-! ## The two listings -/

/-- `ls` puts the colour back. -/
theorem lsMain_color (s : Fs) (color : UInt8) : (lsMain s color).color = color := by
  have back : ∀ c : Fin 256, vgaEntryColor (UInt8.ofFin c &&& 0x0F).toUInt32
      (UInt8.ofFin c >>> 4 &&& 0x0F).toUInt32 = UInt8.ofFin c := by
    decide +kernel
  unfold lsMain
  split
  · rfl
  · exact back color.toFin

theorem mem_lsListed {s : Fs} {i : Slot} :
    i ∈ lsListed s ↔ i.val < s.fileCount ∧ (s.files i).parent = s.currentDir := by
  rw [lsListed, List.mem_filter, and_iff_right (List.mem_finRange i), Bool.and_eq_true,
    decide_eq_true_eq, beq_iff_eq]

/-- `fs_list` lists the entries of the current directory. -/
theorem lists_fsListed (s : Fs) : Lists s (fsListed s) where
  exact _ := mem_fsListed
  order := (List.pairwise_lt_finRange maxFiles).filter _

section Agree

variable {s : Fs}

/-- Without strays, `ls` shows no free slot. -/
theorem lsListed_live (tree : FsTree s) (strays : s.NoStrays) {i : Slot} (hi : i ∈ lsListed s) :
    ∃ f, s.live i = some f ∧ f.parent = s.currentDir := by
  obtain ⟨-, hpar⟩ := mem_lsListed.mp hi
  obtain ⟨d, _, hd, -⟩ := tree.current
  refine ⟨s.files i, Fs.live_of_used ?_, hpar⟩
  rw [← Bool.not_eq_true]
  intro hfree
  exact Option.some_ne_none d (hd.symm.trans (hpar.symm.trans (strays i hfree)))

/-- The root is counted. -/
theorem FsTree.count_ne_zero (tree : FsTree s) : s.fileCount ≠ 0 := by
  obtain ⟨f, hf, -⟩ := tree.tree.top
  rw [tree.count]
  exact Finset.card_ne_zero_of_mem (mem_occupied.mpr (by rw [hf]; rfl : (s.live 0).isSome = true))

theorem lsMain_printed (tree : FsTree s) (color : UInt8) :
    (lsMain s color).printed =
      (lsListed s).map (fun i => lsPrint (s.files i)) ++ [⟨color, text "\n"⟩] := by
  have back := lsMain_color s color
  unfold lsMain at back ⊢
  rw [if_neg tree.count_ne_zero] at back ⊢
  dsimp only at back ⊢
  rw [back]

/-- The listings agree in a state where every entry is counted, and in no other. -/
theorem listingsAgree_iff (tree : FsTree s) (strays : s.NoStrays) (color : UInt8) :
    ListingsAgree s color ↔ s.Counted := by
  constructor
  · intro h i f hf hpar
    obtain ⟨slots, hlists, -, hprinted⟩ := h
    rw [lsMain_printed tree] at hprinted
    have length : (lsListed s).length = slots.length := by
      simpa using congrArg List.length hprinted
    -- what `ls` shows is among the entries, and as many
    have nodup : (lsListed s).Nodup :=
      ((List.pairwise_lt_finRange maxFiles).filter _).imp ne_of_lt
    have within : lsListed s ⊆ slots := fun j hj =>
      (hlists.exact j).mpr (lsListed_live tree strays hj)
    have same : (lsListed s).Perm slots :=
      (nodup.subperm within).perm_of_length_le (Nat.le_of_eq length.symm)
    exact (mem_lsListed.mp (same.mem_iff.mpr ((hlists.exact i).mpr ⟨f, hf, hpar⟩))).1
  · intro h
    refine ⟨fsListed s, lists_fsListed s, rfl, ?_⟩
    have same : lsListed s = fsListed s := by
      refine List.filter_congr fun i _ => ?_
      have mem : i ∈ lsListed s ↔ i ∈ fsListed s := by
        refine ⟨fun hi => mem_fsListed.mpr (lsListed_live tree strays hi), fun hi => ?_⟩
        obtain ⟨f, hf, hpar⟩ := mem_fsListed.mp hi
        obtain ⟨-, rfl⟩ := Fs.live_eq_some.mp hf
        exact mem_lsListed.mpr ⟨h i _ hf hpar, hpar⟩
      rw [Bool.eq_iff_iff]
      simpa only [lsListed, fsListed, List.mem_filter, List.mem_finRange, true_and] using mem
    rw [lsMain_printed tree, same]

end Agree

/-! ## Runs -/

/-- After any calls the table is a tree whose free slots have no parent. -/
theorem fsRun_noStrays (s₀ : Fs) (calls : List FsCall) :
    (runFrom fsStep (fsInit s₀) calls).NoStrays :=
  (everyStep_true fsStep (fsInit s₀) calls).invariant (fun _ c h _ => h.step c) (fsInit_noStrays s₀)

/-- After any calls, and with any colour set, the two listings agree exactly when every entry of the
current directory is counted. -/
theorem ls_agrees_iff (s₀ : Fs) (calls : List FsCall) (color : UInt8) :
    ListingsAgree (runFrom fsStep (fsInit s₀) calls) color ↔
      (runFrom fsStep (fsInit s₀) calls).Counted :=
  listingsAgree_iff (fsRun_tree s₀ calls) (fsRun_noStrays s₀ calls) color

/-- Along a run whose deletes all take away the last live slot, the listings agree throughout. -/
theorem ls_agrees_of_deletesLast (s₀ : Fs) (calls : List FsCall) (color : UInt8)
    (h : EveryStep fsStep DeletesLast (fsInit s₀) calls) :
    EveryState fsStep (fun s => ListingsAgree s color) (fsInit s₀) calls := by
  refine h.everyState
    (I := fun s => (FsNamed s ∧ Compact (occupied s.live)) ∧ s.NoStrays) ?_ ?_ ?_
  · intro s c hs hlast
    have named : FsNamed (fsStep s c) :=
      hs.1.1.step fun name dir i _ _ hi => hs.1.1.entry_lt hs.1.2 hi
    exact ⟨⟨named, compact_step hs.1.2 hlast⟩, hs.2.step c⟩
  · intro s hs
    refine (listingsAgree_iff hs.1.1.tree hs.2 color).mpr fun i f hf hpar => ?_
    obtain ⟨d, _, hd, -⟩ := hs.1.1.tree.current
    have entry : s.Entry d f.name i := ⟨f, hf, hpar.trans hd, rfl⟩
    exact hs.1.1.entry_lt hs.1.2 entry
  · exact ⟨⟨fsNamed_init s₀, fsInit_compact s₀⟩, fsInit_noStrays s₀⟩

/-- Files `a` and `b`, and `a` deleted: `fs_list` shows `b`, and `ls` prints an empty line. -/
theorem ls_not_agrees :
    ¬ ListingsAgree (runFrom fsStep (fsInit fsStart)
      [.create (some (.char 97)) (some fun _ => 0), .create (some (.char 98)) (some fun _ => 0),
        .delete (some (.char 97))]) vgaColorDefault := by
  intro h
  obtain ⟨slots, -, hrows, hprinted⟩ := h
  have shown := congrArg List.length hrows
  have printed := congrArg List.length hprinted
  rw [List.length_map] at shown
  rw [List.length_append, List.length_map, ← shown] at printed
  revert printed
  decide +kernel

end Unics
