import Unics.Laws.Fs.Tree

/-!
# Paths and fs_getcwd
-/

namespace Unics

open Unics.Lib

/-!
## Paths

A path is a list of names, and `Fs.Reaches` takes it from the root to a directory. In every state
that calls reach, each live directory has its path (`FsTree.reaches`), the names on the way are
valid (`fsRun_validNames`), and the loop of `fs_getcwd` up the tree collects the slots on the way
(`cwdDirs_of_climb`).
-/

/-- The directory that a path of names leads to from the root. -/
inductive Fs.Reaches (s : Fs) : List CString → Slot → Prop
  | root : Fs.Reaches s [] 0
  | into {path : List CString} {d i : Slot} {name : CString} : Fs.Reaches s path d →
      s.Entry d name i → (s.files i).isDir = true → Fs.Reaches s (path ++ [name]) i

/-- The text of a path, empty for the root. -/
def pathBytes (path : List CString) : List UInt8 := path.flatMap fun name => 47 :: name.bytes

/-- The text of an absolute path. -/
def absolutePath (path : List CString) : List UInt8 :=
  if path = [] then [47] else pathBytes path

theorem pathBytes_concat (path : List CString) (name : CString) :
    pathBytes (path ++ [name]) = pathBytes path ++ 47 :: name.bytes := by
  rw [pathBytes, pathBytes, List.flatMap_append, List.flatMap_singleton]

/-! ### Where a path leads -/

section Reaches

variable {s t : Fs} {path : List CString} {d i : Slot}

/-- A table that keeps its entries and their links keeps its paths. -/
theorem Fs.Reaches.mono (h : s.Reaches path d)
    (hkeep : ∀ i f, s.live i = some f → ∃ g, t.live i = some g ∧ SameNode f g) :
    t.Reaches path d := by
  induction h with
  | root => exact .root
  | @into path d i name _ hentry hdir ih =>
    obtain ⟨f, hf, hpar, hname⟩ := hentry
    obtain ⟨g, hg, same⟩ := hkeep i f hf
    refine ih.into ⟨g, hg, same.parent.trans hpar, same.name.trans hname⟩ ?_
    rw [(Fs.live_eq_some.mp hg).2, same.isDir, ← (Fs.live_eq_some.mp hf).2]
    exact hdir

/-- Above the end of a path that is not empty is the end of the path without its last name. -/
theorem Fs.Reaches.parent (h : s.Reaches path d) (hne : path ≠ []) :
    ∃ p, (s.files d).parent = some p ∧ s.Reaches path.dropLast p := by
  cases h with
  | root => exact absurd rfl hne
  | @into path p i name hp hentry _ =>
    obtain ⟨-, hpar, -⟩ := Fs.entry_iff.mp hentry
    rw [List.dropLast_concat]
    exact ⟨p, hpar, hp⟩

/-- The empty path leads to the root. -/
theorem Fs.Reaches.eq_root (h : s.Reaches [] d) : d = 0 := by
  generalize hnil : [] = path at h
  cases h with
  | root => rfl
  | into => exact absurd hnil.symm (List.append_ne_nil_of_right_ne_nil _ (List.cons_ne_nil _ _))

/-- Every live directory has a path. -/
theorem FsTree.reaches (hs : FsTree s) {f : File} (hf : s.live d = some f)
    (hdir : f.isDir = true) : ∃ path, s.Reaches path d := by
  obtain ⟨slots, hclimb⟩ := hs.tree.climbs d f hf
  induction hclimb generalizing f with
  | root => exact ⟨[], .root⟩
  | @up i j a _ ha hpar _ ih =>
    obtain rfl := Option.some.inj (ha.symm.trans hf)
    obtain ⟨k, g, hk, hg, hgdir⟩ := hs.tree.parents i a ha (hs.tree.ne_root ha hpar)
    obtain rfl := Option.some.inj (hk.symm.trans hpar)
    obtain ⟨path, hpath⟩ := ih hg hgdir
    obtain ⟨-, rfl⟩ := Fs.live_eq_some.mp ha
    exact ⟨path ++ [(s.files i).name], hpath.into ⟨s.files i, ha, hpar, rfl⟩ hdir⟩

end Reaches

/-! ### Names -/

/-- Every entry but the root has a valid name. -/
def Fs.ValidNames (s : Fs) : Prop :=
  ∀ i f, s.live i = some f → i ≠ 0 → fsValidateFilename (some f.name) = .success

theorem Fs.ValidNames.step {s : Fs} (h : s.ValidNames) (c : FsCall) :
    (fsStep s c).ValidNames := by
  intro k e he hk
  cases fsStep_effect s c with
  | idle live | enter _ live => exact h k e (live ▸ he) hk
  | touch old change live =>
    rcases filled_iff.mp (live ▸ he) with ⟨rfl, rfl⟩ | ⟨_, he⟩
    · rw [change.sameNode.name]
      exact h k _ old hk
    · exact h k e he hk
  | insert _ valid _ _ new live =>
    rcases filled_iff.mp (live ▸ he) with ⟨rfl, rfl⟩ | ⟨_, he⟩
    · rw [new.name]
      exact valid
    · exact h k e he hk
  | remove _ _ _ _ _ _ live => exact h k e (cleared_iff.mp (live ▸ he)).2 hk

/-- The tree invariant, for every run of calls. -/
theorem fsRun_tree (s₀ : Fs) (calls : List FsCall) : FsTree (runFrom fsStep (fsInit s₀) calls) :=
  (everyStep_true fsStep (fsInit s₀) calls).invariant
    (fun _ c h _ => h.step c) (fsTree_init s₀)

theorem fsRun_validNames (s₀ : Fs) (calls : List FsCall) :
    (runFrom fsStep (fsInit s₀) calls).ValidNames :=
  (everyStep_true fsStep (fsInit s₀) calls).invariant (fun _ c h _ => h.step c)
    fun _ _ hf hi => absurd (fsInit_only hf).1 hi

/-- An entry of the current directory that a lookup finds has a valid name. -/
theorem FsTree.found_valid {s : Fs} (htree : FsTree s) (hnames : s.ValidNames) {name : CString}
    {i : Slot} (hfound : fsFindFile s (some name) = some i) :
    fsValidateFilename (some name) = .success := by
  obtain ⟨-, dir, -, f, hf, hpar, rfl⟩ := fsFindFile_here hfound
  exact hnames i f hf (htree.tree.ne_root hf hpar)

/-! ### Up the tree -/

/-- The loop up the tree collects the slots on the way to the root. -/
theorem cwdDirs_of_climb {s : Fs} {d : Slot} {slots : List Slot}
    (h : Climb File.parent s.live 0 d slots) {n : Nat} (hn : slots.length ≤ n) :
    cwdDirs s.files n (some d) = slots := by
  induction h generalizing n with
  | root ha hnone =>
    obtain ⟨n, rfl⟩ : ∃ m, n = m + 1 := Nat.exists_eq_succ_of_ne_zero (by rintro rfl; cases hn)
    obtain ⟨-, rfl⟩ := Fs.live_eq_some.mp ha
    rw [cwdDirs, hnone]
    cases n <;> rfl
  | @up i j a slots ha hpar _ ih =>
    obtain ⟨n, rfl⟩ : ∃ m, n = m + 1 := Nat.exists_eq_succ_of_ne_zero (by rintro rfl; cases hn)
    obtain ⟨-, rfl⟩ := Fs.live_eq_some.mp ha
    rw [cwdDirs, hpar, ih (Nat.le_of_succ_le_succ hn)]

/-- The directories that `fs_getcwd` goes over, from the root down to the current directory. -/
theorem FsTree.cwdDirs_reverse {s : Fs} (h : FsTree s) :
    ∃ rest, (cwdDirs s.files maxFiles s.currentDir).reverse = 0 :: rest := by
  obtain ⟨d, f, hd, hf, -⟩ := h.current
  obtain ⟨slots, hclimb⟩ := h.tree.climbs d f hf
  have few : slots.length ≤ maxFiles := by
    have card := hclimb.nodup.length_le_card
    rwa [Fintype.card_fin] at card
  obtain ⟨below, rfl⟩ := hclimb.eq_concat
  rw [hd, cwdDirs_of_climb hclimb few, List.reverse_concat]
  exact ⟨below.reverse, rfl⟩

/-!
## fs_getcwd stops at the root

The second loop of `fs_getcwd` goes over the directories from the root down to the current one. The
root comes first, has no parent, and ends the loop. So the function returns `"/"` whatever the
current directory is, in two bytes whatever the size of the buffer is. `fsGetcwd_renders_iff` is the
exact condition under which that is right.
-/

/-- What `fs_getcwd` is for: the path of the current directory, in the buffer with its terminator
or not at all. -/
structure GetcwdRenders (s : Fs) (size : SizeT) (r : Getcwd) : Prop where
  path : ∃ path d, s.currentDir = some d ∧ s.Reaches path d ∧
    (r.returned = true ↔ (absolutePath path).length + 1 ≤ size.toNat) ∧
    (r.returned = true → r.stored = absolutePath path ++ [0])
  inside : r.stored.length ≤ size.toNat

/-- The root ends the loop. -/
theorem cwdLoop_root {files : Slot → File} {d : Slot} (h : (files d).parent = none) (size : SizeT)
    (dirs : List Slot) :
    cwdLoop files size (d :: dirs) [] = { stored := [47, 0], returned := true } := by
  rw [cwdLoop, h]
  rfl

/-- Whatever the current directory and the size are. -/
theorem FsTree.fsGetcwd_eq {s : Fs} (h : FsTree s) {buffer : UIntPtr} (hbuffer : buffer ≠ null)
    {size : SizeT} (hsize : size ≠ 0) :
    fsGetcwd s buffer size = { stored := [47, 0], returned := true } := by
  obtain ⟨rest, hrest⟩ := h.cwdDirs_reverse
  obtain ⟨r, hr, -, hnone⟩ := h.tree.top
  obtain ⟨-, rfl⟩ := Fs.live_eq_some.mp hr
  rw [fsGetcwd, if_neg (not_or.mpr ⟨hbuffer, hsize⟩), cwdBuild, hrest]
  exact cwdLoop_root hnone size rest

/-- A path of valid names has the text of the root only if it is empty. -/
theorem absolutePath_eq_slash {s : Fs} (hnames : s.ValidNames) (htree : FsTree s)
    {path : List CString} {d : Slot} (h : s.Reaches path d) (htext : absolutePath path = [47]) :
    path = [] := by
  cases h with
  | root => rfl
  | @into path p _ name _ hentry _ =>
    obtain ⟨f, hf, hpar, rfl⟩ := hentry
    have valid := hnames d f hf (htree.tree.ne_root hf hpar)
    -- the text is a slash and the last name at least
    rw [absolutePath, if_neg (List.append_ne_nil_of_right_ne_nil _ (List.cons_ne_nil _ _)),
      pathBytes_concat] at htext
    have len := congrArg List.length htext
    rw [List.length_append, List.length_cons, List.length_singleton] at len
    have empty : f.name.strlen = 0 := by
      show f.name.bytes.length = 0
      omega
    rw [fsValidateFilename, if_pos empty] at valid
    cases valid

/-- In every state that calls reach, `fs_getcwd` renders the path exactly when the current directory
is the root and the buffer has two bytes. -/
theorem fsGetcwd_renders_iff (s₀ : Fs) (calls : List FsCall) (buffer : UIntPtr)
    (hbuffer : buffer ≠ null) (size : SizeT) (hsize : size ≠ 0) :
    GetcwdRenders (runFrom fsStep (fsInit s₀) calls) size
        (fsGetcwd (runFrom fsStep (fsInit s₀) calls) buffer size) ↔
      (runFrom fsStep (fsInit s₀) calls).currentDir = some 0 ∧ 2 ≤ size.toNat := by
  have htree := fsRun_tree s₀ calls
  have hnames := fsRun_validNames s₀ calls
  generalize runFrom fsStep (fsInit s₀) calls = s at htree hnames ⊢
  rw [htree.fsGetcwd_eq hbuffer hsize]
  constructor
  · intro h
    obtain ⟨path, d, hd, hreach, -, hstored⟩ := h.path
    have text : [47] ++ [0] = absolutePath path ++ [0] := hstored rfl
    obtain rfl := absolutePath_eq_slash hnames htree hreach (List.append_cancel_right text).symm
    rw [hreach.eq_root] at hd
    exact ⟨hd, h.inside⟩
  · rintro ⟨hd, htwo⟩
    exact ⟨⟨[], 0, hd, .root, iff_of_true rfl htwo, fun _ => rfl⟩, htwo⟩

/-- At the root again, with the buffer that `fs_list` uses. -/
theorem fsGetcwd_renders_iff_back :
    GetcwdRenders (runFrom fsStep (fsInit fsStart)
        [.mkdir (some (.char 100)), .chdir (.char 100), .chdir .dotdot]) 256
      (fsGetcwd (runFrom fsStep (fsInit fsStart)
        [.mkdir (some (.char 100)), .chdir (.char 100), .chdir .dotdot]) 0x200000 256) :=
  (fsGetcwd_renders_iff fsStart _ 0x200000 (by decide) 256 (by decide)).mpr
    ⟨by decide +kernel, by decide⟩

/-- In `/d` the function returns `"/"`. -/
theorem fsGetcwd_not_renders :
    ¬ GetcwdRenders (runFrom fsStep (fsInit fsStart)
        [.mkdir (some (.char 100)), .chdir (.char 100)]) 256
      (fsGetcwd (runFrom fsStep (fsInit fsStart)
        [.mkdir (some (.char 100)), .chdir (.char 100)]) 0x200000 256) := by
  have htree := fsRun_tree fsStart [.mkdir (some (.char 100)), .chdir (.char 100)]
  have hnames := fsRun_validNames fsStart [.mkdir (some (.char 100)), .chdir (.char 100)]
  have current : (runFrom fsStep (fsInit fsStart)
      [.mkdir (some (.char 100)), .chdir (.char 100)]).currentDir = some 1 := by decide +kernel
  intro h
  rw [htree.fsGetcwd_eq (by decide) (by decide)] at h
  obtain ⟨path, d, hd, hreach, -, hstored⟩ := h.path
  have text : [47] ++ [0] = absolutePath path ++ [0] := hstored rfl
  obtain rfl := absolutePath_eq_slash hnames htree hreach (List.append_cancel_right text).symm
  rw [current, hreach.eq_root] at hd
  cases hd

end Unics
