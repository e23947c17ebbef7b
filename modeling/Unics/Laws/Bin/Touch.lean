import Unics.Bin.Files
import Unics.Laws.Fs.Creates
import Unics.Laws.Fs.Paths

/-!
# What touch creates

`touch` is to see to it that the current directory has each name, so it looks for the name first. It
looks through the names in the slots below `file_count`: those of other directories, of the root and
of free slots are among them, and the entries that lie behind are not. The name that it takes as
new goes to a create, which finds what the directory has.

The turns do not meddle with each other: each adds one entry at most, under its own name. So what
becomes of a name is decided at its turn, and the whole call is right exactly when every turn is:
`touch_contract_iff`.
-/

namespace Unics

open Unics.Lib

/-- The slot was free in `s`, and holds an entry of the current directory in `t`. -/
def Adds (s t : Fs) (name : CString) (i : Slot) : Prop := s.live i = none ∧ t.Here name i

/-- Every entry stays as it is, and each new one has one of the names and is in the current
directory. -/
structure Grows (s t : Fs) (names : List CString) : Prop where
  currentDir : t.currentDir = s.currentDir
  kept : ∀ i f, s.live i = some f → t.live i = some f
  new : ∀ i f, s.live i = none → t.live i = some f → f.parent = s.currentDir ∧ f.name ∈ names

/-- What `touch` is for. Of the table before, only the entries of the current directory count. -/
structure TouchContract (s : Fs) (names : List CString) (e : Exit) : Prop where
  there : ∀ name ∈ names, ∃ i, e.after.Here name i
  created : ∀ name ∈ names, (∃ i, Adds s e.after name i) ↔ ∀ i, ¬ s.Here name i
  grows : Grows s e.after names
  status : e.status = 0 ↔ ∃ name i, Adds s e.after name i

/-- A slot below `file_count` stores the name. -/
def Fs.Scanned (s : Fs) (name : CString) : Prop :=
  ∃ j : Slot, j.val < s.fileCount ∧ (s.files j).name = name

/-- The condition on a turn: the current directory has the name exactly if a slot below `file_count`
stores it, or the heap is out of blocks. -/
def TouchSees (t : Touch) (arg : TouchArg) : Prop :=
  (∃ i, t.after.Here arg.filename i) ↔ t.after.Scanned arg.filename ∨ arg.heap = none

/-- What comes of the names does not depend on the entries of other directories. -/
theorem TouchContract.independent {s s' : Fs} {names : List CString} {e e' : Exit}
    (h : TouchContract s names e) (h' : TouchContract s' names e')
    (hsame : ∀ name ∈ names, (∃ i, s.Here name i) ↔ ∃ i, s'.Here name i) :
    ∀ name ∈ names, (∃ i, Adds s e.after name i) ↔ ∃ i, Adds s' e'.after name i := by
  intro name hname
  rw [h.created name hname, h'.created name hname, ← not_exists, ← not_exists, hsame name hname]

/-! ## Growth -/

section Grows

variable {s t u : Fs} {name : CString} {names more : List CString} {i : Slot}

theorem Fs.Here.live_some (h : s.Here name i) :
    ∃ f, s.live i = some f ∧ f.parent = s.currentDir ∧ f.name = name := by
  obtain ⟨dir, hdir, f, hf, hpar, hname⟩ := h
  exact ⟨f, hf, hpar.trans hdir.symm, hname⟩

theorem Grows.refl (s : Fs) : Grows s s names where
  currentDir := rfl
  kept _ _ hf := hf
  new _ f hfree hf := absurd (hfree.symm.trans hf).symm (Option.some_ne_none f)

theorem Grows.trans (h : Grows s t names) (h' : Grows t u more) : Grows s u (names ++ more) where
  currentDir := h'.currentDir.trans h.currentDir
  kept i f hf := h'.kept i f (h.kept i f hf)
  new i f hfree hf := by
    cases ht : t.live i with
    | none =>
      obtain ⟨hpar, hname⟩ := h'.new i f ht hf
      exact ⟨hpar.trans h.currentDir, List.mem_append_right names hname⟩
    | some g =>
      obtain rfl := Option.some.inj ((h'.kept i g ht).symm.trans hf)
      obtain ⟨hpar, hname⟩ := h.new i g hfree ht
      exact ⟨hpar, List.mem_append_left more hname⟩

/-- A name that is not among the added ones is there as before. -/
theorem Grows.here_iff (h : Grows s t names) (hname : name ∉ names) :
    t.Here name i ↔ s.Here name i := by
  constructor
  · rintro ⟨dir, hdir, f, hf, hpar, rfl⟩
    cases hs : s.live i with
    | none => exact absurd (h.new i f hs hf).2 hname
    | some g =>
      obtain rfl := Option.some.inj ((h.kept i g hs).symm.trans hf)
      exact ⟨dir, h.currentDir.symm.trans hdir, g, hs, hpar, rfl⟩
  · rintro ⟨dir, hdir, f, hf, hpar, hentry⟩
    exact ⟨dir, h.currentDir.trans hdir, f, h.kept i f hf, hpar, hentry⟩

/-- An entry of the name that is added from `s` to `u` is added in the middle part, if the name is
not among those of the others. -/
theorem Grows.adds_iff {v : Fs} {own after : List CString} (h : Grows s t names)
    (hown : Grows t u own) (h' : Grows u v after) (hname : name ∉ names) (hafter : name ∉ after) :
    Adds s v name i ↔ Adds t u name i := by
  unfold Adds
  rw [h'.here_iff hafter]
  refine and_congr_left fun hhere => ⟨fun hs => ?_, fun ht => ?_⟩
  · cases ht : t.live i with
    | none => rfl
    | some g =>
      obtain ⟨f, hf, -, hfname⟩ := hhere.live_some
      obtain rfl := Option.some.inj ((hown.kept i g ht).symm.trans hf)
      exact absurd (hfname ▸ (h.new i g hs ht).2) hname
  · cases hs : s.live i with
    | none => rfl
    | some g => exact (h.kept i g hs).symm.trans ht

end Grows

/-! ## One turn -/

/-- How a turn ends. -/
inductive TouchEnd (t : Touch) (arg : TouchArg) (u : Touch) : Prop
  | found (stored : t.after.Scanned arg.filename) (after : u.after = t.after)
      (count : u.successCount = t.successCount)
  | refused (unstored : ¬ t.after.Scanned arg.filename) (heap : arg.heap = none)
      (table : SameTable t.after u.after) (count : u.successCount = t.successCount)
  | created {i : Slot} {f : File} (unstored : ¬ t.after.Scanned arg.filename)
      (ready : CreateReady t.after arg.filename arg.heap i)
      (new : Created t.after u.after arg.filename fsPermDefault i f)
      (count : u.successCount = t.successCount + 1)

theorem touchExists_iff {s : Fs} {name : CString} :
    touchExists s name = true ↔ s.Scanned name := decide_eq_true_iff

/-- The lookup finds only what the scan sees. -/
theorem Fs.Scanned.of_find {s : Fs} {name : CString} {i : Slot}
    (h : fsFindFile s (some name) = some i) : s.Scanned name :=
  ⟨i, (fsFindFile_here h).1, (fsFindFile_here h).2.live.2⟩

theorem FsCode.toInt_eq_zero_iff (c : FsCode) : c.toInt = 0 ↔ c = .success := by
  cases c <;> decide

theorem touchTurn_end {t : Touch} {arg : TouchArg}
    (hvalid : fsValidateFilename (some arg.filename) = .success)
    (hroom : ∃ i, fsFindFreeSlot t.after = some i) : TouchEnd t arg (touchTurn t arg) := by
  obtain ⟨i, hslot⟩ := hroom
  unfold touchTurn
  by_cases hstored : t.after.Scanned arg.filename
  · rw [if_pos (touchExists_iff.mpr hstored)]
    exact .found hstored rfl rfl
  · rw [if_neg fun h => hstored (touchExists_iff.mp h)]
    dsimp only
    have hfresh : fsFindFile t.after (some arg.filename) = none := by
      cases hres : fsFindFile t.after (some arg.filename) with
      | none => rfl
      | some j => exact absurd (Fs.Scanned.of_find hres) hstored
    cases hheap : arg.heap with
    | none =>
      have failed : (fsCreate t.after (some arg.filename) none).2 ≠ .success := by
        intro h
        obtain ⟨_, hready⟩ := fsCreateWithPerms_success h
        exact hready.heap rfl
      rw [if_neg fun h => failed ((FsCode.toInt_eq_zero_iff _).mp h)]
      refine .refused hstored hheap ?_ rfl
      exact (fsCreateWithPerms_exits _ _ _ _).resolve_left failed
    | some junk =>
      have hready : CreateReady t.after arg.filename (some junk) i :=
        ⟨hvalid, hfresh, hslot, Option.some_ne_none junk⟩
      obtain ⟨success, f, hnew⟩ := fsCreateWithPerms_ready hready fsPermDefault
      rw [fsCreate, if_pos ((FsCode.toInt_eq_zero_iff _).mpr success)]
      exact .created hstored (hheap ▸ hready) hnew rfl

/-- Between tables with the same live slots, nothing is added. -/
theorem not_adds_of_live {s t : Fs} {name : CString} {i : Slot} (h : t.live = s.live) :
    ¬ Adds s t name i := by
  intro hadds
  obtain ⟨f, hf, -⟩ := hadds.2.live_some
  rw [h, hadds.1] at hf
  exact Option.some_ne_none f hf.symm

theorem SameTable.here_iff {s t : Fs} (h : SameTable s t) {name : CString} {i : Slot} :
    t.Here name i ↔ s.Here name i := by
  unfold Fs.Here Fs.Entry
  rw [h.live, h.rest.currentDir]

/-- A turn is right exactly under its condition: the name is there afterwards, and an entry of it is
added if and only if there was none. -/
theorem TouchEnd.right_iff {t u : Touch} {arg : TouchArg} (h : TouchEnd t arg u)
    (tree : FsTree t.after) :
    (∃ i, u.after.Here arg.filename i) ∧
        ((∃ i, Adds t.after u.after arg.filename i) ↔ ∀ i, ¬ t.after.Here arg.filename i) ↔
      TouchSees t arg := by
  have nothing : SameTable t.after u.after → ((∃ i, u.after.Here arg.filename i) ∧
      ((∃ i, Adds t.after u.after arg.filename i) ↔ ∀ i, ¬ t.after.Here arg.filename i) ↔
        ∃ i, t.after.Here arg.filename i) := by
    intro same
    have none : ¬ ∃ i, Adds t.after u.after arg.filename i := fun ⟨_, hadds⟩ =>
      not_adds_of_live same.live hadds
    simp only [same.here_iff, iff_false_left none, not_forall, not_not, and_self_iff]
  unfold TouchSees
  cases h with
  | found stored after _ =>
    have settled : t.after.Scanned arg.filename ∨ arg.heap = none := .inl stored
    rw [nothing (after ▸ .refl t.after), iff_true_right settled]
  | refused _ heap table _ =>
    have settled : t.after.Scanned arg.filename ∨ arg.heap = none := .inr heap
    rw [nothing table, iff_true_right settled]
  | @created i f unstored ready new _ =>
    obtain ⟨d, _, hd, -⟩ := tree.current
    have here : u.after.Here arg.filename i := by
      rw [new.here_iff hd, if_pos rfl]
    have free : t.after.live i = none :=
      Fs.live_eq_none.mpr (Fin.find?_eq_some_iff.mp ready.slot).1
    have added : ∃ k, Adds t.after u.after arg.filename k := ⟨i, free, here⟩
    rw [iff_false_right (not_or.mpr ⟨unstored, ready.heap⟩), not_exists,
      and_iff_right ⟨i, here⟩, iff_true_left added]

/-! ## All turns -/

/-- What some turns do together. -/
structure TouchRan (t u : Touch) (names : List CString) : Prop where
  tree : FsTree u.after
  grows : Grows t.after u.after names
  count : u.after.fileCount + t.successCount = t.after.fileCount + u.successCount
  bound : u.after.fileCount ≤ t.after.fileCount + names.length

theorem TouchRan.refl {t : Touch} (tree : FsTree t.after) : TouchRan t t [] where
  tree := tree
  grows := .refl t.after
  count := rfl
  bound := Nat.le_refl _

theorem TouchRan.trans {t u v : Touch} {names more : List CString} (h : TouchRan t u names)
    (h' : TouchRan u v more) : TouchRan t v (names ++ more) where
  tree := h'.tree
  grows := h.grows.trans h'.grows
  count := by
    have := h.count
    have := h'.count
    omega
  bound := by
    have := h.bound
    have := h'.bound
    rw [List.length_append]
    omega

theorem touchTurn_tree {t : Touch} (tree : FsTree t.after) (arg : TouchArg) :
    FsTree (touchTurn t arg).after := by
  have step : FsTree (fsCreate t.after (some arg.filename) arg.heap).1 :=
    tree.step (.create (some arg.filename) arg.heap)
  unfold touchTurn
  split
  · exact tree
  · dsimp only
    split <;> exact step

theorem touchTurn_ran {t : Touch} {arg : TouchArg} (tree : FsTree t.after)
    (hvalid : fsValidateFilename (some arg.filename) = .success)
    (hroom : t.after.fileCount < maxFiles) : TouchRan t (touchTurn t arg) [arg.filename] := by
  have htree := touchTurn_tree tree arg
  have hend := touchTurn_end hvalid (tree.exists_freeSlot hroom)
  generalize touchTurn t arg = u at htree hend ⊢
  have same : SameTable t.after u.after → u.successCount = t.successCount →
      TouchRan t u [arg.filename] := by
    intro table count
    refine ⟨htree, ⟨table.rest.currentDir, fun i f hf => ?_, fun i f hfree hf => ?_⟩, ?_, ?_⟩
    · rw [table.live]
      exact hf
    · rw [table.live, hfree] at hf
      exact absurd hf.symm (Option.some_ne_none f)
    · rw [table.rest.fileCount, count]
    · rw [table.rest.fileCount]
      exact Nat.le_add_right _ _
  cases hend with
  | found _ after count => exact same (after ▸ .refl t.after) count
  | refused _ _ table count => exact same table count
  | @created i f _ ready new count =>
    have free : t.after.live i = none :=
      Fs.live_eq_none.mpr (Fin.find?_eq_some_iff.mp ready.slot).1
    refine ⟨htree, ⟨new.currentDir, fun j g hg => ?_, fun j g hfree hg => ?_⟩, ?_, ?_⟩
    · rw [new.live]
      exact filled_keeps free hg
    · rcases filled_iff.mp (new.live ▸ hg) with ⟨rfl, rfl⟩ | ⟨-, hg⟩
      · exact ⟨new.file.parent, List.mem_singleton.mpr new.file.name⟩
      · exact absurd (hfree.symm.trans hg).symm (Option.some_ne_none g)
    · rw [new.fileCount, count]
      omega
    · exact Nat.le_of_eq new.fileCount

theorem touchRun_ran {t : Touch} {args : List TouchArg} (tree : FsTree t.after)
    (hvalid : ∀ arg ∈ args, fsValidateFilename (some arg.filename) = .success)
    (hroom : t.after.fileCount + args.length ≤ maxFiles) :
    TouchRan t (runFrom touchTurn t args) (args.map TouchArg.filename) := by
  induction args generalizing t with
  | nil => exact .refl tree
  | cons arg rest ih =>
    rw [List.length_cons] at hroom
    have first : TouchRan t (touchTurn t arg) [arg.filename] :=
      touchTurn_ran tree (hvalid arg List.mem_cons_self) (by omega)
    refine first.trans (ih first.tree (fun a ha => hvalid a (List.mem_cons_of_mem arg ha)) ?_)
    have bound : (touchTurn t arg).after.fileCount ≤ t.after.fileCount + 1 := first.bound
    omega

/-- Something was counted exactly if something was added. -/
theorem TouchRan.counted_iff {s : Fs} {printed : List UInt8} {u : Touch} {names : List CString}
    (tree : FsTree s) (h : TouchRan ⟨s, 0, printed⟩ u names) :
    u.successCount > 0 ↔ ∃ name i, Adds s u.after name i := by
  have count : u.after.fileCount = s.fileCount + u.successCount := h.count
  have kept : occupied s.live ⊆ occupied u.after.live := by
    intro i hi
    obtain ⟨f, hf⟩ := Option.isSome_iff_exists.mp (mem_occupied.mp hi)
    rw [mem_occupied, h.grows.kept i f hf]
    rfl
  constructor
  · intro hpos
    have less : (occupied s.live).card < (occupied u.after.live).card := by
      rw [← tree.count, ← h.tree.count]
      omega
    obtain ⟨i, hi, hnew⟩ := Finset.exists_mem_notMem_of_card_lt_card less
    obtain ⟨f, hf⟩ := Option.isSome_iff_exists.mp (mem_occupied.mp hi)
    rw [mem_occupied, Option.not_isSome_iff_eq_none] at hnew
    obtain ⟨d, _, hd, -⟩ := tree.current
    have parent := (h.grows.new i f hnew hf).1
    exact ⟨f.name, i, hnew, d, h.grows.currentDir.trans hd, f, hf, parent.trans hd, rfl⟩
  · intro hadds
    obtain ⟨name, i, hfree, hhere⟩ := hadds
    obtain ⟨f, hf, -⟩ := hhere.live_some
    have more : occupied s.live ⊂ occupied u.after.live := by
      refine Finset.ssubset_iff_of_subset kept |>.mpr ⟨i, mem_occupied.mpr (by rw [hf]; rfl), ?_⟩
      rw [mem_occupied, hfree]
      exact Bool.noConfusion
    have less := Finset.card_lt_card more
    rw [← tree.count, ← h.tree.count] at less
    omega

/-! ## The whole call -/

/-- What becomes of a name is decided at its turn. -/
theorem touch_fate {s : Fs} {args : List TouchArg} (tree : FsTree s)
    (hvalid : ∀ arg ∈ args, fsValidateFilename (some arg.filename) = .success)
    (hdistinct : (args.map TouchArg.filename).Nodup)
    (hroom : s.fileCount + args.length ≤ maxFiles) {before after : List TouchArg} {arg : TouchArg}
    (hargs : args = before ++ arg :: after) :
    (∃ i, (runFrom touchTurn ⟨s, 0, []⟩ args).after.Here arg.filename i) ∧
        ((∃ i, Adds s (runFrom touchTurn ⟨s, 0, []⟩ args).after arg.filename i) ↔
          ∀ i, ¬ s.Here arg.filename i) ↔
      TouchSees (runFrom touchTurn ⟨s, 0, []⟩ before) arg := by
  subst hargs
  rw [List.length_append, List.length_cons] at hroom
  rw [List.map_append, List.map_cons, List.nodup_middle, List.nodup_cons, List.mem_append,
    not_or] at hdistinct
  obtain ⟨⟨hbefore, hafter⟩, -⟩ := hdistinct
  have ran : TouchRan ⟨s, 0, []⟩ (runFrom touchTurn ⟨s, 0, []⟩ before) _ :=
    touchRun_ran tree (fun a ha => hvalid a (List.mem_append_left _ ha)) (by
      show s.fileCount + before.length ≤ maxFiles
      omega)
  rw [runFrom_append, runFrom_cons]
  generalize runFrom touchTurn ⟨s, 0, []⟩ before = t at ran ⊢
  have bound : t.after.fileCount ≤ s.fileCount + before.length := by
    simpa using ran.bound
  have own : TouchRan t (touchTurn t arg) [arg.filename] :=
    touchTurn_ran ran.tree (hvalid arg (List.mem_append_right _ List.mem_cons_self)) (by omega)
  have hend := touchTurn_end (hvalid arg (List.mem_append_right _ List.mem_cons_self))
    (ran.tree.exists_freeSlot (by omega))
  have ownBound : (touchTurn t arg).after.fileCount ≤ t.after.fileCount + 1 := own.bound
  have rest : TouchRan (touchTurn t arg) (runFrom touchTurn (touchTurn t arg) after) _ :=
    touchRun_ran own.tree
      (fun a ha => hvalid a (List.mem_append_right _ (List.mem_cons_of_mem arg ha))) (by omega)
  have same : ∀ i, s.Here arg.filename i ↔ t.after.Here arg.filename i :=
    fun i => (ran.grows.here_iff hbefore).symm
  rw [← hend.right_iff ran.tree]
  simp only [rest.grows.here_iff hafter, ran.grows.adds_iff own.grows rest.grows hbefore hafter,
    same]

/-- The command is its turns, and a status from the count. -/
theorem touchMain_turns (s : Fs) (args : List TouchArg) :
    (touchMain s args).after = (runFrom touchTurn ⟨s, 0, []⟩ args).after ∧
      ((touchMain s args).status = 0 ↔ (runFrom touchTurn ⟨s, 0, []⟩ args).successCount > 0) := by
  unfold touchMain
  split
  · next h =>
    subst h
    exact ⟨rfl, iff_of_false (by decide : (1 : Int) ≠ 0) (Nat.lt_irrefl 0)⟩
  · refine ⟨rfl, ?_⟩
    show (if (runFrom touchTurn ⟨s, 0, []⟩ args).successCount > 0 then (0 : Int) else 2) = 0 ↔ _
    split
    · next h => exact iff_of_true rfl h
    · next h => exact iff_of_false (by decide) h

/-- A table has room for as many files as it has free slots. -/
theorem FsTree.room {s : Fs} (h : FsTree s) {k : Nat}
    (hfree : k ≤ (Finset.univ.filter fun i => s.freeList i = true).card) :
    s.fileCount + k ≤ maxFiles := by
  have all := Finset.card_filter_add_card_filter_not (s := Finset.univ)
    (fun i : Slot => s.freeList i = true)
  rw [Finset.card_univ, Fintype.card_fin] at all
  have used : s.fileCount = (Finset.univ.filter fun i : Slot => ¬ s.freeList i = true).card := by
    rw [h.count_free]
    simp only [Bool.not_eq_true]
  omega

/-- After any calls, and for distinct valid names that the table has room for, `touch` does what it
is for exactly if every turn meets the condition. -/
theorem touch_contract_iff (s₀ : Fs) (calls : List FsCall) (args : List TouchArg)
    (hvalid : ∀ arg ∈ args, fsValidateFilename (some arg.filename) = .success)
    (hdistinct : (args.map TouchArg.filename).Nodup)
    (hroom : args.length ≤
      (Finset.univ.filter fun i => (runFrom fsStep (fsInit s₀) calls).freeList i = true).card) :
    TouchContract (runFrom fsStep (fsInit s₀) calls) (args.map TouchArg.filename)
        (touchMain (runFrom fsStep (fsInit s₀) calls) args) ↔
      EveryStep touchTurn TouchSees ⟨runFrom fsStep (fsInit s₀) calls, 0, []⟩ args := by
  have tree := fsRun_tree s₀ calls
  have room := tree.room hroom
  generalize runFrom fsStep (fsInit s₀) calls = s at tree room ⊢
  have ran : TouchRan ⟨s, 0, []⟩ (runFrom touchTurn ⟨s, 0, []⟩ args) _ :=
    touchRun_ran tree hvalid room
  obtain ⟨after, status⟩ := touchMain_turns s args
  rw [ everyStep_iff_prefix]
  constructor
  · intro h before arg rest hargs
    have listed : arg.filename ∈ args.map TouchArg.filename := by
      refine List.mem_map_of_mem ?_
      rw [hargs]
      exact List.mem_append_right before List.mem_cons_self
    rw [← touch_fate tree hvalid hdistinct room hargs, ← after]
    exact ⟨h.there _ listed, h.created _ listed⟩
  · intro h
    have fate : ∀ name ∈ args.map TouchArg.filename,
        (∃ i, (touchMain s args).after.Here name i) ∧
          ((∃ i, Adds s (touchMain s args).after name i) ↔ ∀ i, ¬ s.Here name i) := by
      intro name hname
      obtain ⟨arg, harg, rfl⟩ := List.mem_map.mp hname
      obtain ⟨before, rest, hargs⟩ := List.append_of_mem harg
      rw [after]
      exact (touch_fate tree hvalid hdistinct room hargs).mpr (h before arg rest hargs)
    refine ⟨fun name hname => (fate name hname).1, fun name hname => (fate name hname).2, ?_, ?_⟩
    · rw [after]
      exact ran.grows
    · rw [status, after]
      exact ran.counted_iff tree

/-- `touch a b` where `a` is there: both are there then, and only `b` has been created. -/
theorem touch_contract_iff_two :
    TouchContract (runFrom fsStep (fsInit fsStart) [.create (some (.char 97)) (some fun _ => 0)])
      [.char 97, .char 98]
      (touchMain (runFrom fsStep (fsInit fsStart) [.create (some (.char 97)) (some fun _ => 0)])
        [⟨.char 97, some fun _ => 0⟩, ⟨.char 98, some fun _ => 0⟩]) := by
  refine (touch_contract_iff fsStart [.create (some (.char 97)) (some fun _ => 0)]
    [⟨.char 97, some fun _ => 0⟩, ⟨.char 98, some fun _ => 0⟩] (by decide) (by decide)
    (by decide +kernel)).mpr ⟨?_, ?_, trivial⟩
  · refine iff_of_true ⟨1, 0, by decide +kernel, ?_⟩ (.inl ?_)
    · exact Fs.entry_iff.mpr (by decide +kernel)
    · exact touchExists_iff.mp (by decide +kernel)
  · refine iff_of_false ?_ ?_
    · intro h
      obtain ⟨i, hi⟩ := h
      have named := hi.live.2
      clear hi
      revert i
      decide +kernel
    · intro h
      rcases h with hstored | hheap
      · exact absurd (touchExists_iff.mpr hstored) (by decide +kernel)
      · exact absurd hheap (Option.some_ne_none _)

/-- In `/d`, `touch x` takes the file `x` of the root for its own and creates nothing. -/
theorem touch_contract_fails :
    ¬ TouchContract (runFrom fsStep (fsInit fsStart)
        [.create (some (.char 120)) (some fun _ => 0), .mkdir (some (.char 100)),
          .chdir (.char 100)]) [.char 120]
      (touchMain (runFrom fsStep (fsInit fsStart)
        [.create (some (.char 120)) (some fun _ => 0), .mkdir (some (.char 100)),
          .chdir (.char 100)]) [⟨.char 120, some fun _ => 0⟩]) := by
  intro h
  obtain ⟨i, dir, hdir, hentry⟩ := h.there (.char 120) List.mem_cons_self
  have current : (touchMain (runFrom fsStep (fsInit fsStart)
      [.create (some (.char 120)) (some fun _ => 0), .mkdir (some (.char 100)),
        .chdir (.char 100)]) [⟨.char 120, some fun _ => 0⟩]).after.currentDir = some 2 := by
    decide +kernel
  obtain rfl := Option.some.inj (current.symm.trans hdir)
  -- no slot holds an entry of `/d`
  rw [Fs.entry_iff] at hentry
  clear h
  revert i
  decide +kernel

end Unics
