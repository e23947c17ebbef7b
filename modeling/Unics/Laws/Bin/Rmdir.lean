import Unics.Bin.Files
import Unics.Laws.Fs.Tree

/-!
# What rmdir leaves behind

A removal of one directory is a statement about names: every entry other than the directory is still
there, under the same path and with the same content, and the current directory is still at its
path. `rmdir_main` counts the directory out and leaves its slot marked as used, so a call that
removes anything breaks the count: `rmdir_contract_iff`.
-/

namespace Unics

open Unics.Lib

/-- The names on the way from a live entry up to the root. -/
def Fs.NamePath (s : Fs) (i : Slot) (names : List CString) : Prop :=
  ∃ path, Climb File.parent s.live 0 i path ∧ names = path.map fun k => (s.files k).name

/-- A live entry other than `skip` with that path and content. -/
def Fs.Stored (s : Fs) (skip : Option Slot) (names : List CString) (isDir : Bool)
    (data : Option (List UInt8)) (size : SizeT) : Prop :=
  ∃ i f, s.live i = some f ∧ some i ≠ skip ∧ s.NamePath i names ∧ f.isDir = isDir ∧
    f.data = data ∧ f.size = size

/-- Between `s` and `t` exactly the entry in slot `i` is gone. -/
structure RemovesOnly (s t : Fs) (i : Slot) : Prop where
  entries : ∀ names isDir data size,
    t.Stored none names isDir data size ↔ s.Stored (some i) names isDir data size
  count : t.fileCount = (Finset.univ.filter fun j => t.freeList j = false).card
  current : ∃ d e, s.currentDir = some d ∧ t.currentDir = some e ∧
    ∀ names, t.NamePath e names ↔ s.NamePath d names

/-- An empty directory of that name in the current directory. -/
def EmptyDir (s : Fs) (dirname : CString) (i : Slot) : Prop :=
  ∃ dir, s.currentDir = some dir ∧ s.Entry dir dirname i ∧ (s.files i).isDir = true ∧
    ∀ j f, s.live j = some f → f.parent ≠ some i

/-- What `rmdir` is for: status 0 means that the directory is gone and nothing else has changed, any
other status that nothing has changed. -/
structure RmdirContract (s : Fs) (argv : List CString) : Prop where
  removed : (rmdirMain s argv).status = 0 → ∃ command dirname i, argv = [command, dirname] ∧
    EmptyDir s dirname i ∧ RemovesOnly s (rmdirMain s argv).after i
  unchanged : (rmdirMain s argv).status ≠ 0 → (rmdirMain s argv).after = s

/-- The command finds a directory that it will remove. -/
def RmdirTarget (s : Fs) (argv : List CString) : Prop :=
  ∃ command dirname i, argv = [command, dirname] ∧ rmdirFind s dirname = some i ∧
    (s.files i).isDir = true ∧ rmdirIsEmpty s i = true ∧ (s.files i).isOpen = false

/-- With a target the command counts one entry out. -/
theorem rmdirMain_of_target {s : Fs} {argv : List CString} (h : RmdirTarget s argv) :
    (rmdirMain s argv).status = 0 ∧ 0 < s.fileCount ∧
      (rmdirMain s argv).after.fileCount = s.fileCount - 1 ∧
      (rmdirMain s argv).after.freeList = s.freeList := by
  obtain ⟨command, dirname, i, rfl, hfound, hdir, hempty, hopen⟩ := h
  have used : 0 < s.fileCount := by
    have test := (Fin.find?_eq_some_iff.mp hfound).1
    simp only [Bool.and_eq_true, decide_eq_true_eq] at test
    exact Nat.zero_lt_of_lt test.1.1
  have dir : ¬ (!(s.files i).isDir) = true := by simp [hdir]
  have empty : ¬ (!rmdirIsEmpty s i) = true := by simp [hempty]
  have closed : ¬ (s.files i).isOpen = true := by simp [hopen]
  dsimp only [rmdirMain]
  rw [hfound]
  dsimp only
  rw [if_neg dir, if_neg empty, if_neg closed]
  exact ⟨rfl, used, rfl, rfl⟩

/-- Without a target the command changes nothing and says so. -/
theorem rmdirMain_no_target {s : Fs} {argv : List CString} (h : ¬ RmdirTarget s argv) :
    (rmdirMain s argv).status ≠ 0 ∧ (rmdirMain s argv).after = s := by
  unfold rmdirMain
  split
  · next command dirname =>
    split
    · exact ⟨(by decide : (5 : Int) ≠ 0), rfl⟩
    · next i hfound =>
      split
      · exact ⟨(by decide : (2 : Int) ≠ 0), rfl⟩
      · next hdir =>
        split
        · exact ⟨(by decide : (3 : Int) ≠ 0), rfl⟩
        · next hempty =>
          split
          · exact ⟨(by decide : (4 : Int) ≠ 0), rfl⟩
          · next hopen =>
            refine absurd ⟨command, dirname, i, rfl, hfound, ?_, ?_, ?_⟩ h
            · simpa using hdir
            · simpa using hempty
            · simpa using hopen
  · exact ⟨(by decide : (1 : Int) ≠ 0), rfl⟩

/-- In every reachable state, `rmdir` keeps its contract exactly when it has nothing to remove. -/
theorem rmdir_contract_iff {s : Fs} (h : Reachable fsStep (fun _ => True) FsFresh s)
    (argv : List CString) : RmdirContract s argv ↔ ¬ RmdirTarget s argv := by
  have tree : FsTree s :=
    h.invariant (fun s hs => hs.elim fun s₀ hs => hs ▸ fsTree_init s₀)
      fun _ c hs _ => hs.step c
  constructor
  · intro hcontract htarget
    obtain ⟨hstatus, hpos, hcount, hfree⟩ := rmdirMain_of_target htarget
    obtain ⟨_, _, i, -, -, honly⟩ := hcontract.removed hstatus
    -- the count went down and no flag changed
    have := honly.count
    rw [hcount, hfree, ← tree.count_free] at this
    omega
  · intro htarget
    obtain ⟨hstatus, hafter⟩ := rmdirMain_no_target htarget
    exact ⟨fun h0 => absurd h0 hstatus, fun _ => hafter⟩

/-- The directory `a` with a file `a` in it. -/
def fullDirectory : Fs :=
  runFrom fsStep (fsInit fsStart)
    [.mkdir (some (.char 97 CString.a_ne_zero)), .chdir (.char 97 CString.a_ne_zero),
      .create (some (.char 97 CString.a_ne_zero)) (some fun _ => 0), .chdir .dotdot]

/-- It is not removed, and the contract holds. -/
theorem rmdir_contract_full : RmdirContract fullDirectory [.empty, .char 97] := by
  refine (rmdir_contract_iff
    (reachable_iff_run.mpr ⟨_, _, fsFresh_init fsStart, fun _ _ => trivial, rfl⟩) _).mpr ?_
  rintro ⟨_, _, i, heq, hfound, -, hempty, -⟩
  obtain ⟨-, heq⟩ := List.cons.inj heq
  obtain ⟨rfl, -⟩ := List.cons.inj heq
  have found : rmdirFind fullDirectory (.char 97) = some 1 := by decide +kernel
  obtain rfl := Option.some.inj (found.symm.trans hfound)
  revert hempty
  decide +kernel

/-- `mkdir a` and `rmdir a`: two slots are in use and `file_count` is 1. -/
theorem rmdir_contract_fails :
    ¬ RmdirContract (runFrom fsStep (fsInit fsStart) [.mkdir (some (.char 97))])
      [.empty, .char 97] := by
  intro h
  obtain ⟨_, _, i, -, -, honly⟩ := h.removed (by decide +kernel)
  exact absurd honly.count (by decide +kernel)

end Unics
