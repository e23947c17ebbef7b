import Unics.Bin.Files
import Unics.Laws.Fs.Failures
import Unics.Laws.Fs.Paths

/-!
# What rm removes, and what it says

`rm` hands each name to `fs_delete`, and tells from the number it gets what went wrong. The two
numbers that it knows are none of those that `fs_delete` returns, so every failure is an unknown
error. And `fs_delete` takes empty directories away as well as files, and finds an entry only if it
lies below `file_count`, which goes down with each name. `rm_contract_iff` is the exact condition
under which none of this shows.
-/

namespace Unics

open Unics.Lib

/-- What a turn does to the table. -/
def rmStep (s : Fs) (name : CString) : Fs := (fsDelete s (some name)).1

/-- The turns of the loop: each name, with the table it meets. -/
def rmTurns : Fs → List CString → List (Fs × CString)
  | _, [] => []
  | s, name :: names => (s, name) :: rmTurns (rmStep s name) names

/-- The turn takes an entry of the name away. -/
def Removes (s : Fs) (name : CString) : Prop :=
  ∃ i, s.Here name i ∧ (rmStep s name).live i = none

/-- An entry of the name is open. -/
def NamesOpen (s : Fs) (name : CString) : Prop := ∃ i, s.Here name i ∧ (s.files i).isOpen = true

/-- No entry has the name. -/
def NamesNothing (s : Fs) (name : CString) : Prop := ∀ i, ¬ s.Here name i

/-- Slot `i` holds a closed regular file of the current directory, which one of the names is for. -/
structure RmNamed (s : Fs) (names : List CString) (i : Slot) : Prop where
  here : ∃ name ∈ names, s.Here name i
  closed : (s.files i).isOpen = false
  regular : (s.files i).isDir = false

/-- What `rm` is for. -/
structure RmContract (s : Fs) (names : List CString) (e : Exit) : Prop where
  removed : ∀ i, RmNamed s names i → e.after.live i = none
  kept : ∀ i, ¬ RmNamed s names i → e.after.live i = s.live i
  success : e.status = Rm.exitSuccess ↔ ∀ t ∈ rmTurns s names, Removes t.1 t.2
  inUse : (∃ t ∈ rmTurns s names, ¬ Removes t.1 t.2 ∧ NamesOpen t.1 t.2) →
    (∀ t ∈ rmTurns s names, ¬ Removes t.1 t.2 → NamesOpen t.1 t.2 ∨ NamesNothing t.1 t.2) →
    e.status = Rm.exitFileInUse
  notFound : (∃ t ∈ rmTurns s names, ¬ Removes t.1 t.2) →
    (∀ t ∈ rmTurns s names, ¬ Removes t.1 t.2 → NamesNothing t.1 t.2) → e.status = Rm.exitNotFound

/-- A delete of the name finds the entry in slot `i`, and nothing stands in its way. -/
structure DeleteTarget (s : Fs) (name : CString) (i : Slot) : Prop where
  found : fsFindFile s (some name) = some i
  closed : (s.files i).isOpen = false
  leaf : (s.files i).isDir = true → ∀ j, s.freeList j = false → (s.files j).parent ≠ some i

/-- The condition. No turn finds a closed directory without entries. Each file that is to go is what
the lookup finds at some turn. And if some turn finds nothing to delete, then at one such turn there
are entries of the name, and none of them is open. -/
structure RmFits (s : Fs) (names : List CString) : Prop where
  files : ∀ t ∈ rmTurns s names, ∀ i, DeleteTarget t.1 t.2 i → (t.1.files i).isDir = false
  found : ∀ i, RmNamed s names i → ∃ t ∈ rmTurns s names, fsFindFile t.1 (some t.2) = some i
  other : (∃ t ∈ rmTurns s names, ∀ i, ¬ DeleteTarget t.1 t.2 i) → ∃ t ∈ rmTurns s names,
    (∀ i, ¬ DeleteTarget t.1 t.2 i) ∧ ¬ NamesNothing t.1 t.2 ∧ ¬ NamesOpen t.1 t.2

/-! ## One turn -/

section Turn

variable {s : Fs} {name : CString} {i : Slot}

/-- A delete with a target clears its slot, and does nothing else to the entries. -/
theorem DeleteTarget.deletes (h : DeleteTarget s name i) (tree : FsTree s) :
    (fsDelete s (some name)).2 = .success ∧
      (rmStep s name).live = Function.update s.live i none ∧
      (rmStep s name).currentDir = s.currentDir := by
  have old : s.live i = some (s.files i) := Fs.live_of_used (fsFindFile_live h.found)
  obtain ⟨dir, d, hd, hlive, hdir⟩ := tree.current
  have parent : (s.files i).parent = some dir := (fsFindFile_parent h.found old).1.trans hd
  have top : i ≠ 0 := tree.tree.ne_root old parent
  have closed : ¬ (s.files i).isOpen = true := by
    rw [h.closed]
    exact Bool.noConfusion
  have leaf : ¬ ((s.files i).isDir = true ∧
      ∃ j, s.freeList j = false ∧ (s.files j).parent = some i) := by
    rintro ⟨hisdir, j, hused, hpar⟩
    exact h.leaf hisdir j hused hpar
  -- an entry of the current directory is in it, so it is another one
  have stays : ¬ ((s.files i).isDir = true ∧ s.currentDir = some i) := by
    rintro ⟨hisdir, hcur⟩
    exact leaf ⟨hisdir, i, fsFindFile_live h.found, parent.trans (hd.symm.trans hcur)⟩
  unfold rmStep fsDelete
  rw [h.found]
  dsimp only
  rw [if_neg closed, if_neg top, if_neg leaf]
  exact ⟨rfl, Fs.live_clear rfl rfl, if_neg stays⟩

/-- A delete without a target changes nothing and says so. -/
theorem fsDelete_no_target (h : ∀ i, ¬ DeleteTarget s name i) :
    rmStep s name = s ∧ (fsDelete s (some name)).2 ≠ .success := by
  unfold rmStep fsDelete
  split
  · exact ⟨rfl, FsCode.noConfusion⟩
  · next i hfound =>
    dsimp only
    split
    · exact ⟨rfl, FsCode.noConfusion⟩
    · next hopen =>
      split
      · exact ⟨rfl, FsCode.noConfusion⟩
      · split
        · exact ⟨rfl, FsCode.noConfusion⟩
        · next hleaf =>
          refine absurd ⟨hfound, Bool.eq_false_of_not_eq_true hopen, ?_⟩ (h i)
          intro hisdir j hused hpar
          exact hleaf ⟨hisdir, j, hused, hpar⟩

/-- The codes of `fs_delete`. -/
theorem fsDelete_codes (s : Fs) (filename : Option CString) :
    (fsDelete s filename).2 ∈
      [FsCode.success, .errNotFound, .errFileOpen, .errInvalidPath, .errNotEmpty] := by
  unfold fsDelete
  split
  · simp
  · dsimp only
    split
    · simp
    · split
      · simp
      · split <;> simp

/-- None of them is one of the two numbers that `rm` knows. -/
theorem fsDelete_unknown (s : Fs) (filename : Option CString) :
    (fsDelete s filename).2.toInt ≠ -1 ∧ (fsDelete s filename).2.toInt ≠ -2 := by
  have all : ∀ c ∈ [FsCode.success, .errNotFound, .errFileOpen, .errInvalidPath, .errNotEmpty],
      c.toInt ≠ -1 ∧ c.toInt ≠ -2 := by
    decide
  exact all _ (fsDelete_codes s filename)

theorem removes_iff (tree : FsTree s) : Removes s name ↔ ∃ i, DeleteTarget s name i := by
  constructor
  · rintro ⟨i, hhere, hgone⟩
    by_contra hno
    rw [(fsDelete_no_target (not_exists.mp hno)).1, Fs.live_of_used hhere.live.1] at hgone
    exact Option.some_ne_none _ hgone
  · rintro ⟨i, hi⟩
    refine ⟨i, (fsFindFile_here hi.found).2, ?_⟩
    rw [(hi.deletes tree).2.1, Function.update_self]

theorem rmTurn_after (verbose : Bool) (t : Rm) (name : CString) :
    (rmTurn verbose t name).after = rmStep t.after name := by
  unfold rmTurn
  dsimp only
  split
  · rfl
  · split
    · rfl
    · split <;> rfl

/-- The exit code after a turn: whatever goes wrong, it is that of a general error. -/
theorem rmTurn_exitCode (verbose : Bool) (t : Rm) (name : CString) (tree : FsTree t.after) :
    ((∃ i, DeleteTarget t.after name i) → (rmTurn verbose t name).exitCode = t.exitCode) ∧
      ((∀ i, ¬ DeleteTarget t.after name i) →
        (rmTurn verbose t name).exitCode = Rm.exitGeneralError) := by
  unfold rmTurn
  dsimp only
  constructor
  · rintro ⟨i, hi⟩
    have zero : (fsDelete t.after (some name)).2.toInt = 0 := by
      rw [(hi.deletes tree).1]
      rfl
    rw [if_pos zero]
  · intro hno
    obtain ⟨notInUse, notMissing⟩ := fsDelete_unknown t.after (some name)
    have failed : (fsDelete t.after (some name)).2.toInt ≠ 0 := by
      have neg := (FsCode.toInt_neg_iff _).mpr (fsDelete_no_target hno).2
      omega
    rw [if_neg failed, if_neg notInUse, if_neg notMissing]

end Turn

/-! ## All turns -/

/-- Entries go, and nothing else changes. -/
structure Shrinks (s t : Fs) : Prop where
  tree : FsTree t
  live : ∀ i f, t.live i = some f → s.live i = some f
  currentDir : t.currentDir = s.currentDir

theorem Shrinks.refl {s : Fs} (tree : FsTree s) : Shrinks s s := ⟨tree, fun _ _ hf => hf, rfl⟩

theorem Shrinks.trans {s t u : Fs} (h : Shrinks s t) (h' : Shrinks t u) : Shrinks s u where
  tree := h'.tree
  live i f hf := h.live i f (h'.live i f hf)
  currentDir := h'.currentDir.trans h.currentDir

theorem rmStep_shrinks {s : Fs} (tree : FsTree s) (name : CString) :
    Shrinks s (rmStep s name) := by
  by_cases h : ∃ i, DeleteTarget s name i
  · obtain ⟨i, hi⟩ := h
    obtain ⟨-, live, current⟩ := hi.deletes tree
    refine ⟨tree.step (.delete (some name)), fun j f hf => ?_, current⟩
    exact (cleared_iff.mp (live ▸ hf)).2
  · rw [(fsDelete_no_target (not_exists.mp h)).1]
    exact .refl tree

/-- An entry that is left is the one that was there. -/
theorem Shrinks.here {s t : Fs} (h : Shrinks s t) {name : CString} {i : Slot}
    (hhere : t.Here name i) : s.Here name i ∧ s.files i = t.files i := by
  obtain ⟨dir, hdir, f, hf, hpar, hname⟩ := hhere
  have old := h.live i f hf
  refine ⟨⟨dir, h.currentDir.symm.trans hdir, f, old, hpar, hname⟩, ?_⟩
  rw [(Fs.live_eq_some.mp old).2, (Fs.live_eq_some.mp hf).2]

section Turns

variable {s : Fs} {names : List CString} {i : Slot}

/-- Each turn meets a table that some turns have left. -/
theorem mem_rmTurns (tree : FsTree s) {t : Fs × CString} (ht : t ∈ rmTurns s names) :
    Shrinks s t.1 ∧ t.2 ∈ names := by
  induction names generalizing s with
  | nil => exact absurd ht List.not_mem_nil
  | cons name rest ih =>
    rcases List.mem_cons.mp ht with rfl | ht
    · exact ⟨.refl tree, List.mem_cons_self⟩
    · have first := rmStep_shrinks tree name
      obtain ⟨shrinks, hname⟩ := ih first.tree ht
      exact ⟨first.trans shrinks, List.mem_cons_of_mem name hname⟩

theorem foldl_rmTurn_after (verbose : Bool) (t : Rm) (names : List CString) :
    (names.foldl (rmTurn verbose) t).after = runFrom rmStep t.after names := by
  induction names generalizing t with
  | nil => rfl
  | cons name rest ih => rw [List.foldl_cons, ih, rmTurn_after, runFrom_cons]

theorem rmRun_shrinks (tree : FsTree s) (names : List CString) :
    Shrinks s (runFrom rmStep s names) := by
  induction names generalizing s with
  | nil => exact .refl tree
  | cons name rest ih =>
    have first := rmStep_shrinks tree name
    exact first.trans (ih first.tree)

/-- The entry that some turn finds to delete is gone in the end. -/
theorem rmRun_deletes (tree : FsTree s) {t : Fs × CString} (ht : t ∈ rmTurns s names)
    (hi : DeleteTarget t.1 t.2 i) : (runFrom rmStep s names).live i = none := by
  induction names generalizing s with
  | nil => exact absurd ht List.not_mem_nil
  | cons name rest ih =>
    have first := rmStep_shrinks tree name
    rw [runFrom_cons]
    rcases List.mem_cons.mp ht with rfl | ht
    · have gone : (rmStep s name).live i = none := by
        rw [(hi.deletes tree).2.1, Function.update_self]
      -- what is gone does not come back
      refine Option.eq_none_iff_forall_ne_some.mpr fun f hf => ?_
      rw [(rmRun_shrinks first.tree rest).live i f hf] at gone
      exact Option.some_ne_none f gone
    · exact ih first.tree ht

/-- The others are left. -/
theorem rmRun_keeps (tree : FsTree s) (h : ∀ t ∈ rmTurns s names, ¬ DeleteTarget t.1 t.2 i) :
    (runFrom rmStep s names).live i = s.live i := by
  induction names generalizing s with
  | nil => rfl
  | cons name rest ih =>
    have first := rmStep_shrinks tree name
    rw [runFrom_cons, ih first.tree fun t ht => h t (List.mem_cons_of_mem _ ht)]
    by_cases htarget : ∃ j, DeleteTarget s name j
    · obtain ⟨j, hj⟩ := htarget
      have other : i ≠ j := by
        rintro rfl
        exact h (s, name) List.mem_cons_self hj
      rw [(hj.deletes tree).2.1, Function.update_of_ne other]
    · rw [(fsDelete_no_target (not_exists.mp htarget)).1]

/-- The exit code is that of a general error if any turn finds nothing to delete. -/
theorem foldl_rmTurn_exitCode (verbose : Bool) (t : Rm) (tree : FsTree t.after)
    (names : List CString) :
    ((∀ u ∈ rmTurns t.after names, ∃ i, DeleteTarget u.1 u.2 i) →
        (names.foldl (rmTurn verbose) t).exitCode = t.exitCode) ∧
      ((∃ u ∈ rmTurns t.after names, ∀ i, ¬ DeleteTarget u.1 u.2 i) →
        (names.foldl (rmTurn verbose) t).exitCode = Rm.exitGeneralError) := by
  induction names generalizing t with
  | nil => exact ⟨fun _ => rfl, fun ⟨_, hu, _⟩ => absurd hu List.not_mem_nil⟩
  | cons name rest ih =>
    obtain ⟨deleted, failed⟩ := rmTurn_exitCode verbose t name tree
    have after := rmTurn_after verbose t name
    have first : FsTree (rmTurn verbose t name).after :=
      after ▸ (rmStep_shrinks tree name).tree
    obtain ⟨keeps, errs⟩ := ih (rmTurn verbose t name) first
    rw [after] at keeps errs
    rw [List.foldl_cons]
    constructor
    · intro hall
      rw [keeps fun u hu => hall u (List.mem_cons_of_mem _ hu)]
      exact deleted (hall _ List.mem_cons_self)
    · rintro ⟨u, hu, hno⟩
      by_cases hrest : ∀ v ∈ rmTurns (rmStep t.after name) rest,
          ∃ i, DeleteTarget v.1 v.2 i
      · rw [keeps hrest]
        rcases List.mem_cons.mp hu with rfl | hu
        · exact failed hno
        · obtain ⟨i, hi⟩ := hrest u hu
          exact absurd hi (hno i)
      · simp only [not_forall, not_exists] at hrest
        obtain ⟨v, hv, hnone⟩ := hrest
        exact errs ⟨v, hv, hnone⟩

end Turns

/-! ## The condition is exact -/

/-- A file that a delete finds to be deleted, and that is no directory, is one that is named. -/
theorem DeleteTarget.named {s : Fs} {names : List CString} {t : Fs × CString} {i : Slot}
    (h : DeleteTarget t.1 t.2 i) (hs : Shrinks s t.1) (hname : t.2 ∈ names)
    (hdir : (t.1.files i).isDir = false) : RmNamed s names i := by
  obtain ⟨hhere, same⟩ := hs.here (fsFindFile_here h.found).2
  exact ⟨⟨t.2, hname, hhere⟩, same ▸ h.closed, same ▸ hdir⟩

/-- A named file is deleted when it is found. -/
theorem RmNamed.target {s : Fs} {names : List CString} {t : Fs × CString} {i : Slot}
    (h : RmNamed s names i) (hs : Shrinks s t.1)
    (hfound : fsFindFile t.1 (some t.2) = some i) : DeleteTarget t.1 t.2 i := by
  obtain ⟨-, same⟩ := hs.here (fsFindFile_here hfound).2
  refine ⟨hfound, same ▸ h.closed, fun hdir => ?_⟩
  rw [← same, h.regular] at hdir
  exact Bool.noConfusion hdir

section Exact

variable {s : Fs} {names : List CString}

/-- What is gone in the end is what was to go, exactly if no turn deletes a directory and each file
that is named is found. -/
theorem rmRun_exact (tree : FsTree s) (names : List CString) :
    ((∀ i, RmNamed s names i → (runFrom rmStep s names).live i = none) ∧
        ∀ i, ¬ RmNamed s names i → (runFrom rmStep s names).live i = s.live i) ↔
      (∀ t ∈ rmTurns s names, ∀ i, DeleteTarget t.1 t.2 i → (t.1.files i).isDir = false) ∧
        ∀ i, RmNamed s names i → ∃ t ∈ rmTurns s names, fsFindFile t.1 (some t.2) = some i := by
  constructor
  · rintro ⟨removed, kept⟩
    refine ⟨fun t ht i hi => ?_, fun i hi => ?_⟩
    · by_contra hdir
      obtain ⟨hhere, same⟩ := (mem_rmTurns tree ht).1.here (fsFindFile_here hi.found).2
      -- a directory is not among the files that are to go, and it has gone
      have stays := kept i fun hnamed => hdir (same ▸ hnamed.regular)
      rw [rmRun_deletes tree ht hi, Fs.live_of_used hhere.live.1] at stays
      exact Option.some_ne_none _ stays.symm
    · by_contra hno
      have stays : (runFrom rmStep s names).live i = s.live i :=
        rmRun_keeps tree fun t ht hi => hno ⟨t, ht, hi.found⟩
      obtain ⟨_, _, hhere⟩ := hi.here
      rw [removed i hi, Fs.live_of_used hhere.live.1] at stays
      exact Option.some_ne_none _ stays.symm
  · rintro ⟨files, found⟩
    refine ⟨fun i hi => ?_, fun i hi => rmRun_keeps tree fun t ht htarget => hi ?_⟩
    · obtain ⟨t, ht, hfound⟩ := found i hi
      exact rmRun_deletes tree ht (hi.target (mem_rmTurns tree ht).1 hfound)
    · obtain ⟨shrinks, hname⟩ := mem_rmTurns tree ht
      exact htarget.named shrinks hname (files t ht i htarget)

/-- An exit code that says only whether anything has failed is the right one, exactly if it was
something else than a missing or an open file, or nothing. -/
theorem rmStatus_exact (tree : FsTree s) {status : Int}
    (succeeds : (∀ t ∈ rmTurns s names, ∃ i, DeleteTarget t.1 t.2 i) → status = Rm.exitSuccess)
    (fails : (∃ t ∈ rmTurns s names, ∀ i, ¬ DeleteTarget t.1 t.2 i) →
      status = Rm.exitGeneralError) :
    ((status = Rm.exitSuccess ↔ ∀ t ∈ rmTurns s names, Removes t.1 t.2) ∧
        ((∃ t ∈ rmTurns s names, ¬ Removes t.1 t.2 ∧ NamesOpen t.1 t.2) →
          (∀ t ∈ rmTurns s names,
            ¬ Removes t.1 t.2 → NamesOpen t.1 t.2 ∨ NamesNothing t.1 t.2) →
          status = Rm.exitFileInUse) ∧
        ((∃ t ∈ rmTurns s names, ¬ Removes t.1 t.2) →
          (∀ t ∈ rmTurns s names, ¬ Removes t.1 t.2 → NamesNothing t.1 t.2) →
          status = Rm.exitNotFound)) ↔
      ((∃ t ∈ rmTurns s names, ∀ i, ¬ DeleteTarget t.1 t.2 i) → ∃ t ∈ rmTurns s names,
        (∀ i, ¬ DeleteTarget t.1 t.2 i) ∧ ¬ NamesNothing t.1 t.2 ∧ ¬ NamesOpen t.1 t.2) := by
  have failing : ∀ t ∈ rmTurns s names,
      (¬ Removes t.1 t.2 ↔ ∀ i, ¬ DeleteTarget t.1 t.2 i) := by
    intro t ht
    rw [removes_iff (mem_rmTurns tree ht).1.tree, not_exists]
  constructor
  · rintro ⟨-, inUse, notFound⟩ hfail
    have general := fails hfail
    by_contra hno
    -- then every turn that fails has a missing or an open file, and a code of its own
    have kinds : ∀ t ∈ rmTurns s names,
        ¬ Removes t.1 t.2 → NamesOpen t.1 t.2 ∨ NamesNothing t.1 t.2 := by
      intro t ht hkept
      by_contra hother
      obtain ⟨notOpen, notNothing⟩ := not_or.mp hother
      exact hno ⟨t, ht, (failing t ht).mp hkept, notNothing, notOpen⟩
    obtain ⟨t, ht, hnone⟩ := hfail
    by_cases hopen : ∃ t ∈ rmTurns s names, ¬ Removes t.1 t.2 ∧ NamesOpen t.1 t.2
    · exact absurd (general.symm.trans (inUse hopen kinds)) (by decide)
    · have missing : ∀ t ∈ rmTurns s names, ¬ Removes t.1 t.2 → NamesNothing t.1 t.2 := by
        intro t ht hkept
        exact (kinds t ht hkept).resolve_left fun h => hopen ⟨t, ht, hkept, h⟩
      have absent := notFound ⟨t, ht, (failing t ht).mpr hnone⟩ missing
      exact absurd (general.symm.trans absent) (by decide)
  · intro other
    refine ⟨⟨fun hzero t ht => ?_, fun hall => ?_⟩, fun hopen kinds => ?_, fun hkept missing => ?_⟩
    · by_contra hkept
      have general := fails ⟨t, ht, (failing t ht).mp hkept⟩
      exact absurd (general.symm.trans hzero) (by decide)
    · exact succeeds fun t ht => (removes_iff (mem_rmTurns tree ht).1.tree).mp (hall t ht)
    · obtain ⟨t, ht, hkept, -⟩ := hopen
      obtain ⟨u, hu, hnone, notNothing, notOpen⟩ := other ⟨t, ht, (failing t ht).mp hkept⟩
      rcases kinds u hu ((failing u hu).mpr hnone) with h | h
      · exact absurd h notOpen
      · exact absurd h notNothing
    · obtain ⟨t, ht, hkept⟩ := hkept
      obtain ⟨u, hu, hnone, notNothing, -⟩ := other ⟨t, ht, (failing t ht).mp hkept⟩
      exact absurd (missing u hu ((failing u hu).mpr hnone)) notNothing

/-- The command is its turns. -/
theorem rmMain_turns (tree : FsTree s) {args : List CString} (hargs : args ≠ []) :
    (rmMain s args).after = runFrom rmStep s (rmNames args) ∧
      ((∀ t ∈ rmTurns s (rmNames args), ∃ i, DeleteTarget t.1 t.2 i) →
        (rmMain s args).status = Rm.exitSuccess) ∧
      ((∃ t ∈ rmTurns s (rmNames args), ∀ i, ¬ DeleteTarget t.1 t.2 i) →
        (rmMain s args).status = Rm.exitGeneralError) := by
  cases args with
  | nil => exact absurd rfl hargs
  | cons first rest =>
    exact ⟨foldl_rmTurn_after _ _ _, foldl_rmTurn_exitCode _ ⟨s, Rm.exitSuccess, []⟩ tree _⟩

end Exact

/-- After any calls, `rm` does what it is for exactly under the condition, and with an argument at
all: without one it prints its usage and fails. -/
theorem rm_contract_iff (s₀ : Fs) (calls : List FsCall) (args : List CString) :
    RmContract (runFrom fsStep (fsInit s₀) calls) (rmNames args)
        (rmMain (runFrom fsStep (fsInit s₀) calls) args) ↔
      args ≠ [] ∧ RmFits (runFrom fsStep (fsInit s₀) calls) (rmNames args) := by
  have tree := fsRun_tree s₀ calls
  generalize runFrom fsStep (fsInit s₀) calls = s at tree ⊢
  by_cases hargs : args = []
  · subst hargs
    refine iff_of_false (fun h => ?_) fun h => h.1 rfl
    have general : Rm.exitGeneralError = Rm.exitSuccess :=
      h.success.mpr fun t ht => absurd ht List.not_mem_nil
    exact absurd general (by decide)
  · obtain ⟨after, succeeds, fails⟩ := rmMain_turns tree hargs
    have table := rmRun_exact tree (rmNames args)
    have codes := rmStatus_exact tree succeeds fails
    rw [and_iff_right hargs]
    constructor
    · intro h
      obtain ⟨files, found⟩ := table.mp (after ▸ ⟨h.removed, h.kept⟩)
      exact ⟨files, found, codes.mp ⟨h.success, h.inUse, h.notFound⟩⟩
    · intro h
      obtain ⟨removed, kept⟩ := table.mpr ⟨h.files, h.found⟩
      obtain ⟨success, inUse, notFound⟩ := codes.mpr h.other
      exact ⟨after ▸ removed, after ▸ kept, success, inUse, notFound⟩

/-- In an empty root, `rm a` fails with the code of a general error. -/
theorem rm_contract_fails :
    ¬ RmContract (fsInit fsStart) (rmNames [.char 97]) (rmMain (fsInit fsStart) [.char 97]) := by
  intro h
  have turns : rmTurns (fsInit fsStart) (rmNames [.char 97]) =
      [(fsInit fsStart, .char 97)] := rfl
  have nothing : NamesNothing (fsInit fsStart) (.char 97) := by
    intro i hi
    have named := hi.live.2
    clear hi
    revert i
    decide +kernel
  have absent := h.notFound
  rw [turns] at absent
  have code := absent ⟨_, List.mem_singleton_self _, fun ⟨i, hi, _⟩ => nothing i hi⟩
    fun t ht _ => List.mem_singleton.mp ht ▸ nothing
  exact absurd code (by decide +kernel)

end Unics
