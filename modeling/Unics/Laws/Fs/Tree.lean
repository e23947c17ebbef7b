import Unics.Laws.Fs.Calls
import Unics.Lib.Run

/-!
# The directory tree

What every call keeps: the live files form a tree with slot 0 on top, the count is right, and the
current directory is a live directory. It follows from effects: a create hangs a new file under the
current directory, a delete takes a file that has no children, and nothing else touches a link.
-/

namespace Unics

open Unics.Lib

/-- The live files are a tree of directories. -/
abbrev Fs.IsTree (s : Fs) : Prop := Tree File.parent (fun f => f.isDir = true) s.live 0

/-- The invariant of the table. -/
structure FsTree (s : Fs) : Prop where
  tree : s.IsTree
  count : s.fileCount = (occupied s.live).card
  current : ∃ d f, s.currentDir = some d ∧ s.live d = some f ∧ f.isDir = true

/-- After `fs_init` only the root is live. -/
theorem fsInit_live (s : Fs) :
    (fsInit s).live = Function.update (fun _ => none) 0 (some ((fsInit s).files 0)) := by
  funext i
  by_cases hi : i = 0
  · subst hi
    rfl
  · rw [Function.update_of_ne hi]
    refine Fs.live_eq_none.mpr ?_
    show Function.update (fun _ => true) 0 false i = true
    rw [Function.update_of_ne hi]

theorem fsInit_only {s : Fs} {i : Slot} {f : File} (h : (fsInit s).live i = some f) :
    i = 0 ∧ f = (fsInit s).files 0 := by
  rw [fsInit_live] at h
  rcases filled_iff.mp h with ⟨rfl, rfl⟩ | ⟨_, h⟩
  · exact ⟨rfl, rfl⟩
  · exact absurd h.symm (Option.some_ne_none f)

theorem fsTree_init (s : Fs) : FsTree (fsInit s) := by
  have root : (fsInit s).live 0 = some ((fsInit s).files 0) := Fs.live_of_used rfl
  refine ⟨⟨⟨_, root, rfl, rfl⟩, fun i f hf hi => absurd (fsInit_only hf).1 hi, fun i f hf => ?_⟩,
    ?_, 0, _, rfl, root, rfl⟩
  · obtain ⟨rfl, -⟩ := fsInit_only hf
    exact ⟨_, .root root rfl⟩
  · rw [fsInit_live, occupied_update_some]
    rfl

/-- The count, by flags. -/
theorem FsTree.count_free {s : Fs} (h : FsTree s) :
    s.fileCount = (Finset.univ.filter fun i => s.freeList i = false).card := by
  rw [h.count]
  congr 1
  ext i
  rw [mem_occupied, Finset.mem_filter, Option.isSome_iff_exists]
  constructor
  · intro hf
    obtain ⟨f, hf⟩ := hf
    exact ⟨Finset.mem_univ i, (Fs.live_eq_some.mp hf).1⟩
  · intro hfree
    exact ⟨_, Fs.live_of_used hfree.2⟩

/-- A table that is not full has a free slot. -/
theorem FsTree.exists_freeSlot {s : Fs} (h : FsTree s) (hlt : s.fileCount < maxFiles) :
    ∃ i, fsFindFreeSlot s = some i := by
  by_contra hnone
  have used : ∀ k, s.freeList k = false :=
    Fin.find?_eq_none_iff.mp (Option.eq_none_iff_forall_ne_some.mpr (not_exists.mp hnone))
  rw [h.count_free, Finset.filter_true_of_mem fun k _ => used k, Finset.card_univ,
    Fintype.card_fin] at hlt
  exact Nat.lt_irrefl _ hlt

/-- An entry with a parent is not the root. -/
theorem Fs.IsTree.ne_root {s : Fs} (h : s.IsTree) {i p : Slot} {f : File}
    (hf : s.live i = some f) (hpar : f.parent = some p) : i ≠ 0 := by
  rintro rfl
  obtain ⟨r, hr, -, hnone⟩ := h.top
  obtain rfl := Option.some.inj (hr.symm.trans hf)
  exact absurd (hpar.symm.trans hnone) (Option.some_ne_none p)

/-- No file hangs under a file that is not a directory. -/
theorem Fs.IsTree.leaf_of_file {s : Fs} (h : s.IsTree) {i : Slot} {f : File}
    (hf : s.live i = some f) (hdir : f.isDir = false) :
    ∀ j g, s.live j = some g → g.parent ≠ some i := by
  intro j g hg hpar
  obtain ⟨p, d, hp, hd, hisdir⟩ := h.parents j g hg (h.ne_root hg hpar)
  obtain rfl := Option.some.inj (hp.symm.trans hpar)
  obtain rfl := Option.some.inj (hd.symm.trans hf)
  exact absurd (hisdir.symm.trans hdir) Bool.noConfusion

/-- What a delete finds: a child of the current directory. -/
theorem fsFindFile_parent {s : Fs} {name : CString} {i : Slot} {f : File}
    (hfound : fsFindFile s (some name) = some i) (hf : s.live i = some f) :
    f.parent = s.currentDir ∧ f.name = name := by
  obtain ⟨n, dir, hn, hdir, -, g, hg, hpar, hname⟩ := fsFindFile_eq_some hfound
  obtain rfl := Option.some.inj hn
  obtain rfl := Option.some.inj (hg.symm.trans hf)
  exact ⟨hpar.trans hdir.symm, hname⟩

/-- Every effect that keeps the nodes as they are keeps the tree. -/
theorem FsTree.effect {R : File → File → Prop} {makes removes : Option CString}
    (hR : ∀ f g, R f g → SameNode f g) {s t : Fs} (h : FsTree s)
    (he : FsEffect R makes removes s t) : FsTree t := by
  obtain ⟨d, e, hd, he', hedir⟩ := h.current
  cases he with
  | idle live rest =>
    refine ⟨by rw [Fs.IsTree, live]; exact h.tree, by rw [live, rest.fileCount, h.count], d, e, ?_⟩
    exact ⟨by rw [rest.currentDir, hd], by rw [live, he'], hedir⟩
  | @touch i f g old change live rest =>
    have same := hR f g change
    refine ⟨?_, ?_, ?_⟩
    · rw [Fs.IsTree, live]
      exact h.tree.replace old same.parent fun hdir => same.isDir.trans hdir
    · rw [live, occupied_replace old, rest.fileCount, h.count]
    · rw [rest.currentDir, live]
      by_cases hdi : d = i
      · subst hdi
        obtain rfl := Option.some.inj (old.symm.trans he')
        exact ⟨d, g, hd, Function.update_self .., same.isDir.trans hedir⟩
      · exact ⟨d, e, hd, by rw [Function.update_of_ne hdi, he'], hedir⟩
  | @insert i name f _ _ _ slot new live fileCount _ currentDir =>
    have free : s.live i = none := Fs.live_eq_none.mpr (Fin.find?_eq_some_iff.mp slot).1
    refine ⟨?_, ?_, d, e, by rw [currentDir, hd], ?_, hedir⟩
    · rw [Fs.IsTree, live]
      exact h.tree.insert free (new.parent.trans hd) he' hedir
    · rw [live, card_occupied_insert free, fileCount, h.count]
    · rw [live]
      exact filled_keeps free he'
  | @remove i name f _ found old _ top leaf live fileCount _ currentDir =>
    have noChild : ∀ j g, s.live j = some g → g.parent ≠ some i := by
      cases hdir : f.isDir with
      | true => exact leaf hdir
      | false => exact h.tree.leaf_of_file old hdir
    -- the current directory has the file as a child, so it is not the file
    have stays : d ≠ i := by
      intro heq
      have := (fsFindFile_parent found old).1
      rw [hd, heq] at this
      exact noChild i f old this
    refine ⟨?_, ?_, d, e, ?_, by rw [live]; exact cleared_iff.mpr ⟨stays, he'⟩, hedir⟩
    · rw [Fs.IsTree, live]
      exact h.tree.remove top noChild
    · rw [live, card_occupied_remove old, fileCount, h.count]
    · rw [currentDir, if_neg, hd]
      intro hcur
      exact stays (Option.some.inj (hd.symm.trans hcur.2))
  | @enter p dir live fileCount _ currentDir =>
    refine ⟨by rw [Fs.IsTree, live]; exact h.tree, by rw [live, fileCount, h.count], ?_⟩
    rw [currentDir, live]
    rcases dir with ⟨c, f, hc, hf, hpar⟩ | ⟨f, hf, hdir⟩
    · -- the parent of the current directory, which is not the root then
      obtain rfl := Option.some.inj (hd.symm.trans hc)
      obtain rfl := (Fs.live_eq_some.mp he').2.symm.trans hf
      obtain ⟨q, g, hq, hg, hdir⟩ := h.tree.parents d e he' (h.tree.ne_root he' hpar)
      obtain rfl := Option.some.inj (hq.symm.trans hpar)
      exact ⟨q, g, rfl, hg, hdir⟩
    · exact ⟨p, f, rfl, hf, hdir⟩

/-- Every call keeps the tree. -/
theorem FsTree.step {s : Fs} (h : FsTree s) (c : FsCall) : FsTree (fsStep s c) :=
  h.effect (fun _ _ => FileChange.sameNode) (fsStep_effect s c)

/-! ## Positions -/

/-- No position lies past the end of its file. -/
def Fs.PositionsInside (s : Fs) : Prop :=
  ∀ i f, s.live i = some f → f.isDir = false → f.position ≤ f.size

theorem FileUse.position_le {f g : File} (h : FileUse f g) (hf : f.position ≤ f.size) :
    g.position ≤ g.size := by
  cases h with
  | move h =>
    cases h with
    | opened => exact BitVec.le_def.mpr (Nat.zero_le _)
    | closed => exact hf
    | moved _ hp => exact hp
  | @written base _ n _ =>
    -- a write that passes the end moves the end along
    show base.position + n ≤ if base.position + n > base.size then base.position + n else base.size
    split
    · exact BitVec.le_refl _
    · next hle => exact BitVec.not_lt.mp hle

theorem Fs.PositionsInside.effect {makes removes : Option CString} {s t : Fs}
    (h : s.PositionsInside) (he : FsEffect FileUse makes removes s t) : t.PositionsInside := by
  intro j e hj hdir
  cases he with
  | idle live | enter _ live => exact h j e (live ▸ hj) hdir
  | touch old change live =>
    rcases filled_iff.mp (live ▸ hj) with ⟨rfl, rfl⟩ | ⟨_, hj⟩
    · exact change.position_le (h j _ old (change.sameNode.isDir.symm.trans hdir))
    · exact h j e hj hdir
  | insert _ _ _ _ new live =>
    rcases filled_iff.mp (live ▸ hj) with ⟨rfl, rfl⟩ | ⟨_, hj⟩
    · rw [new.position]
      exact BitVec.le_def.mpr (Nat.zero_le _)
    · exact h j e hj hdir
  | remove _ _ _ _ _ _ live => exact h j e (cleared_iff.mp (live ▸ hj)).2 hdir

/-! ## Reachable states -/

/-- A state after `fs_init`. -/
def FsFresh (s : Fs) : Prop := ∃ s₀, s = fsInit s₀

theorem fsFresh_init (s : Fs) : FsFresh (fsInit s) := ⟨s, rfl⟩

/-- What holds of the globals after any calls. -/
structure DirectoryTree (s : Fs) : Prop where
  count : s.fileCount = (Finset.univ.filter fun i => s.freeList i = false).card
  root : s.freeList 0 = false ∧ (s.files 0).isDir = true ∧ (s.files 0).parent = none
  parents : ∀ i, s.freeList i = false → i ≠ 0 → ∃ d, (s.files i).parent = some d ∧
    s.freeList d = false ∧ (s.files d).isDir = true
  climbs : ∀ i, s.freeList i = false →
    ∃ path, Climb File.parent s.live 0 i path ∧ path.Nodup
  current : ∃ d, s.currentDir = some d ∧ s.freeList d = false ∧ (s.files d).isDir = true
  positions : ∀ i, s.freeList i = false → (s.files i).isDir = false →
    (s.files i).position ≤ (s.files i).size

theorem FsTree.directoryTree {s : Fs} (h : FsTree s) (hpos : s.PositionsInside) :
    DirectoryTree s where
  count := h.count_free
  root := by
    obtain ⟨f, hf, hdir, hpar⟩ := h.tree.top
    obtain ⟨hfree, rfl⟩ := Fs.live_eq_some.mp hf
    exact ⟨hfree, hdir, hpar⟩
  parents i hfree hi := by
    obtain ⟨d, g, hd, hg, hdir⟩ := h.tree.parents i _ (Fs.live_of_used hfree) hi
    obtain ⟨hused, rfl⟩ := Fs.live_eq_some.mp hg
    exact ⟨d, hd, hused, hdir⟩
  climbs i hfree := by
    obtain ⟨path, hpath⟩ := h.tree.climbs i _ (Fs.live_of_used hfree)
    exact ⟨path, hpath, hpath.nodup⟩
  current := by
    obtain ⟨d, f, hd, hf, hdir⟩ := h.current
    obtain ⟨hfree, rfl⟩ := Fs.live_eq_some.mp hf
    exact ⟨d, hd, hfree, hdir⟩
  positions i hfree hdir := hpos i _ (Fs.live_of_used hfree) hdir

/-- The tree invariant, for every state that calls of the interface reach. -/
theorem directoryTree_of_reachable {s : Fs} (h : Reachable fsStep FsCall.NoResize FsFresh s) :
    DirectoryTree s := by
  have inv : FsTree s ∧ s.PositionsInside := by
    refine h.invariant (I := fun s => FsTree s ∧ s.PositionsInside) ?_ ?_
    · intro s hs
      obtain ⟨s₀, rfl⟩ := hs
      refine ⟨fsTree_init s₀, fun i f hf _ => ?_⟩
      obtain ⟨-, rfl⟩ := fsInit_only hf
      exact BitVec.le_refl _
    · intro s c hinv hc
      have effect := fsStep_use s c hc
      exact ⟨hinv.1.effect (fun _ _ => FileUse.sameNode) effect, hinv.2.effect effect⟩
  exact inv.1.directoryTree inv.2

/-- `mkdir d`, `cd d`, and a create that the heap refuses. -/
theorem directoryTree_of_reachable_nested :
    DirectoryTree (runFrom fsStep (fsInit fsStart)
      [.mkdir (some (.char 100)), .chdir (.char 100), .create (some (.char 102)) none]) :=
  directoryTree_of_reachable
    (reachable_iff_run.mpr ⟨_, _, fsFresh_init fsStart, by simp [FsCall.NoResize], rfl⟩)

end Unics
