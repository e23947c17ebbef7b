import Unics.Laws.Fs.Failures
import Unics.Laws.Fs.Tree

/-!
# Inode numbers

A new entry takes the next number of a counter of 32 bits, and slots are used again while the
counter only goes up. So two live entries have different numbers as long as the counter has not come
round to a number that is still in use, and the root's, which is the first, always is.

`inodes_distinct_iff` is the exact condition over whole runs.
-/

namespace Unics

open Unics.Lib

/-! ## Runs -/

/-- How many entries the call makes. -/
def entriesMade (s : Fs) (c : FsCall) : Nat :=
  if c.makes.isSome ∧ fsResult s c = .code .success then 1 else 0

/-- The file system, and how many entries the run has made in it. -/
structure InodeRun where
  fs : Fs
  made : Nat

def inodeStep (t : InodeRun) (c : FsCall) : InodeRun where
  fs := fsStep t.fs c
  made := t.made + entriesMade t.fs c

def inodeRunStart (s₀ : Fs) : InodeRun := { fs := fsInit s₀, made := 0 }

/-- The numbers of the live entries are pairwise distinct. -/
def InodesDistinct (t : InodeRun) : Prop :=
  ∀ i j f g, t.fs.live i = some f → t.fs.live j = some g → f.inode = g.inode → i = j

/-- The numbers from 2 on, before the counter comes to the root's. -/
def inodeSupply : Nat := 2 ^ 32 - 1

/-- The call makes an entry only while there is a number left. -/
def InodesLeft (t : InodeRun) (c : FsCall) : Prop :=
  entriesMade t.fs c = 1 → t.made < inodeSupply

/-! ## The counter -/

/-- A create that succeeds had a name and a block, and takes a number. -/
theorem fsCreateWithPerms_counts {s : Fs} {filename : Option CString} {permissions : UInt8}
    {heap : Heap} (h : (fsCreateWithPerms s filename permissions heap).2 = .success) :
    (heap.bind fun _ => filename).isSome ∧
      (fsCreateWithPerms s filename permissions heap).1.nextInode = s.nextInode + 1 := by
  cases filename with
  | none => cases h
  | some name =>
    revert h
    unfold fsCreateWithPerms
    split
    · split
      · exact nofun
      · split
        · exact nofun
        · cases heap with
          | none => exact nofun
          | some junk => exact fun _ => ⟨rfl, rfl⟩
    · next hother =>
      intro hcode
      exact absurd hcode (hother _ rfl)

theorem fsMkdir_counts {s : Fs} {dirname : Option CString}
    (h : (fsMkdir s dirname).2 = .success) :
    dirname.isSome ∧ (fsMkdir s dirname).1.nextInode = s.nextInode + 1 := by
  cases dirname with
  | none => cases h
  | some name =>
    revert h
    unfold fsMkdir
    split
    · split
      · exact nofun
      · split
        · exact nofun
        · exact fun _ => ⟨rfl, rfl⟩
    · next hother =>
      intro hcode
      exact absurd hcode (hother _ rfl)

theorem entriesMade_le (s : Fs) (c : FsCall) : entriesMade s c ≤ 1 := by
  unfold entriesMade
  split
  · exact Nat.le_refl 1
  · exact Nat.zero_le 1

/-- A call that may make an entry answers a code. -/
theorem fsResult_of_makes (s : Fs) {c : FsCall} {name : CString} (h : c.makes = some name) :
    ∃ code, fsResult s c = .code code := by
  cases c with
  | create | createWithPerms | mkdir => exact ⟨_, rfl⟩
  | _ => cases h

/-- The counter goes up by what the call makes. -/
theorem fsStep_nextInode (s : Fs) (c : FsCall) :
    (fsStep s c).nextInode = s.nextInode + BitVec.ofNat 32 (entriesMade s c) := by
  unfold entriesMade
  by_cases hmade : c.makes.isSome ∧ fsResult s c = .code .success
  · rw [if_pos hmade]
    obtain ⟨hmakes, hcode⟩ := hmade
    cases c with
    | create filename heap => exact (fsCreateWithPerms_counts (FsResult.code.inj hcode)).2
    | createWithPerms filename permissions heap =>
      exact (fsCreateWithPerms_counts (FsResult.code.inj hcode)).2
    | mkdir dirname => exact (fsMkdir_counts (FsResult.code.inj hcode)).2
    | _ => cases hmakes
  · rw [if_neg hmade, BitVec.add_zero]
    cases fsStep_effect s c with
    | idle _ rest | touch _ _ _ rest => exact rest.nextInode
    | remove _ _ _ _ _ _ _ _ nextInode => exact nextInode
    | enter _ _ _ nextInode => exact nextInode
    | insert named =>
      -- the name is there, so the call has failed, and a call that failed has changed nothing
      obtain ⟨code, hresult⟩ := fsResult_of_makes s named
      rcases fsStep_exits s c with hsuccess | hsame
      · rw [named, hresult, FsResult.code.injEq] at hmade
        rw [hresult] at hsuccess
        exact absurd ((FsCode.toInt_neg_iff code).mpr fun heq => hmade ⟨rfl, heq⟩) hsuccess
      · exact hsame.rest.nextInode

theorem entriesMade_eq_zero {s : Fs} {c : FsCall} (h : (fsStep s c).nextInode = s.nextInode) :
    entriesMade s c = 0 := by
  have le := entriesMade_le s c
  have counter := fsStep_nextInode s c
  bv_omega

theorem entriesMade_eq_one {s : Fs} {c : FsCall} (h : (fsStep s c).nextInode = s.nextInode + 1) :
    entriesMade s c = 1 := by
  have le := entriesMade_le s c
  have counter := fsStep_nextInode s c
  bv_omega

/-! ## The invariant -/

/-- The counter is where the entries made have brought it. The live entries have distinct numbers,
the root's is the first, and the others' are earlier values of the counter. -/
structure InodesOrdered (t : InodeRun) : Prop where
  supply : t.made ≤ inodeSupply
  next : t.fs.nextInode.toNat = (2 + t.made) % 2 ^ 32
  root : ∃ r, t.fs.live 0 = some r ∧ r.inode = 1
  issued : ∀ i f, i ≠ 0 → t.fs.live i = some f →
    ∃ k < t.made, f.inode.toNat = (2 + k) % 2 ^ 32
  distinct : InodesDistinct t

theorem inodesOrdered_start (s₀ : Fs) : InodesOrdered (inodeRunStart s₀) where
  supply := Nat.zero_le _
  next := rfl
  root := ⟨_, Fs.live_of_used rfl, rfl⟩
  issued _ _ hi hf := absurd (fsInit_only hf).1 hi
  distinct _ _ _ _ hf hg _ := (fsInit_only hf).1.trans (fsInit_only hg).1.symm

section Step

variable {t : InodeRun} {c : FsCall}

/-- Every live entry was there before with the same number, and the root still is. -/
theorem InodesOrdered.of_kept (h : InodesOrdered t)
    (hnext : (fsStep t.fs c).nextInode = t.fs.nextInode)
    (hroot : ((fsStep t.fs c).live 0).isSome)
    (hkept : ∀ i g, (fsStep t.fs c).live i = some g →
      ∃ f, t.fs.live i = some f ∧ g.inode = f.inode) : InodesOrdered (inodeStep t c) := by
  have made : (inodeStep t c).made = t.made := by
    show t.made + entriesMade t.fs c = t.made
    rw [entriesMade_eq_zero hnext, Nat.add_zero]
  refine ⟨made ▸ h.supply, ?_, ?_, fun i g hi hg => ?_, fun i j f g hf hg heq => ?_⟩
  · rw [made]
    show (fsStep t.fs c).nextInode.toNat = _
    rw [hnext]
    exact h.next
  · obtain ⟨g, hg⟩ := Option.isSome_iff_exists.mp hroot
    obtain ⟨f, hf, hinode⟩ := hkept 0 g hg
    obtain ⟨r, hr, hone⟩ := h.root
    obtain rfl := Option.some.inj (hf.symm.trans hr)
    exact ⟨g, hg, hinode.trans hone⟩
  · obtain ⟨f, hf, hinode⟩ := hkept i g hg
    rw [made, hinode]
    exact h.issued i f hi hf
  · obtain ⟨f', hf', hfi⟩ := hkept i f hf
    obtain ⟨g', hg', hgi⟩ := hkept j g hg
    exact h.distinct i j f' g' hf' hg' (hfi.symm.trans (heq.trans hgi))

/-- A number that the counter has given out is not the next one, as long as numbers are left. -/
theorem InodesOrdered.next_fresh (h : InodesOrdered t) (hleft : t.made < inodeSupply) {i : Slot}
    {f : File} (hf : t.fs.live i = some f) : f.inode ≠ t.fs.nextInode := by
  intro heq
  have next := h.next
  unfold inodeSupply at hleft
  by_cases hi : i = 0
  · subst hi
    obtain ⟨r, hr, hone⟩ := h.root
    obtain rfl := Option.some.inj (hf.symm.trans hr)
    rw [← heq, hone] at next
    have next : 1 = (2 + t.made) % 2 ^ 32 := next
    omega
  · obtain ⟨k, hk, hinode⟩ := h.issued i f hi hf
    rw [heq, next] at hinode
    omega

/-- What a new entry does to the run. -/
theorem InodesOrdered.insert (h : InodesOrdered t) {i : Slot} {f : File}
    (hfree : t.fs.live i = none) (hinode : f.inode = t.fs.nextInode)
    (hlive : (fsStep t.fs c).live = Function.update t.fs.live i (some f))
    (hnext : (fsStep t.fs c).nextInode = t.fs.nextInode + 1) (hleft : t.made < inodeSupply) :
    InodesOrdered (inodeStep t c) := by
  have made : (inodeStep t c).made = t.made + 1 := by
    show t.made + entriesMade t.fs c = t.made + 1
    rw [entriesMade_eq_one hnext]
  have old : ∀ j g, (fsStep t.fs c).live j = some g →
      (j = i ∧ f = g) ∨ (j ≠ i ∧ t.fs.live j = some g) := by
    intro j g hg
    rw [hlive] at hg
    exact filled_iff.mp hg
  refine ⟨made ▸ hleft, ?_, ?_, fun j g hj hg => ?_, fun j k g g' hg hg' heq => ?_⟩
  · rw [made]
    show (fsStep t.fs c).nextInode.toNat = _
    have next := h.next
    rw [hnext, BitVec.toNat_add, next]
    show ((2 + t.made) % 2 ^ 32 + 1) % 2 ^ 32 = _
    omega
  · obtain ⟨r, hr, hone⟩ := h.root
    refine ⟨r, ?_, hone⟩
    show (fsStep t.fs c).live 0 = _
    rw [hlive]
    exact filled_keeps hfree hr
  · rw [made]
    rcases old j g hg with ⟨_, rfl⟩ | ⟨_, hg⟩
    · refine ⟨t.made, Nat.lt_succ_self _, ?_⟩
      rw [hinode]
      exact h.next
    · obtain ⟨k, hk, hissued⟩ := h.issued j g hj hg
      exact ⟨k, Nat.lt_succ_of_lt hk, hissued⟩
  · rcases old j g hg with ⟨rfl, rfl⟩ | ⟨_, hg⟩
    · rcases old k g' hg' with ⟨rfl, rfl⟩ | ⟨_, hg'⟩
      · rfl
      · exact absurd (heq.symm.trans hinode) (h.next_fresh hleft hg')
    · rcases old k g' hg' with ⟨rfl, rfl⟩ | ⟨_, hg'⟩
      · exact absurd (heq.trans hinode) (h.next_fresh hleft hg)
      · exact h.distinct j k g g' hg hg' heq

theorem InodesOrdered.step (h : InodesOrdered t) (hleft : InodesLeft t c) :
    InodesOrdered (inodeStep t c) := by
  obtain ⟨r, hr, -⟩ := h.root
  cases fsStep_effect t.fs c with
  | idle live rest =>
    refine h.of_kept rest.nextInode ?_ fun i g hg => ⟨g, live ▸ hg, rfl⟩
    rw [live, hr]
    rfl
  | enter _ live _ nextInode =>
    refine h.of_kept nextInode ?_ fun i g hg => ⟨g, live ▸ hg, rfl⟩
    rw [live, hr]
    rfl
  | @touch i f f' old change live rest =>
    refine h.of_kept rest.nextInode ?_ fun j g hg => ?_
    · rw [live]
      by_cases hi : 0 = i
      · rw [hi, Function.update_self]
        rfl
      · rw [Function.update_of_ne hi, hr]
        rfl
    · rcases filled_iff.mp (live ▸ hg) with ⟨rfl, rfl⟩ | ⟨_, hg⟩
      · exact ⟨f, old, change.sameNode.inode⟩
      · exact ⟨g, hg, rfl⟩
  | @remove i _ _ _ _ _ _ top _ live _ nextInode =>
    refine h.of_kept nextInode ?_ fun j g hg => ⟨g, (cleared_iff.mp (live ▸ hg)).2, rfl⟩
    rw [live, Function.update_of_ne (Ne.symm top), hr]
    rfl
  | insert _ _ _ slot new live _ nextInode =>
    refine h.insert (Fs.live_eq_none.mpr (Fin.find?_eq_some_iff.mp slot).1) new.inode live nextInode
      (hleft (entriesMade_eq_one nextInode))

/-- When the numbers have run out, the next entry gets the root's. -/
theorem InodesOrdered.not_distinct (h : InodesOrdered t) (hout : ¬ InodesLeft t c) :
    ¬ InodesDistinct (inodeStep t c) := by
  intro hdistinct
  unfold InodesLeft at hout
  rw [Classical.not_imp] at hout
  obtain ⟨hmade, hout⟩ := hout
  have supply := h.supply
  have next := h.next
  have stays (hsame : (fsStep t.fs c).nextInode = t.fs.nextInode) : False := by
    rw [entriesMade_eq_zero hsame] at hmade
    exact absurd hmade (by decide)
  cases fsStep_effect t.fs c with
  | idle _ rest | touch _ _ _ rest => exact stays rest.nextInode
  | remove _ _ _ _ _ _ _ _ nextInode => exact stays nextInode
  | enter _ _ _ nextInode => exact stays nextInode
  | @insert i _ f _ _ _ slot new live =>
    have free : t.fs.live i = none := Fs.live_eq_none.mpr (Fin.find?_eq_some_iff.mp slot).1
    obtain ⟨r, hr, hone⟩ := h.root
    have root : (inodeStep t c).fs.live 0 = some r := by
      show (fsStep t.fs c).live 0 = _
      rw [live]
      exact filled_keeps free hr
    have here : (inodeStep t c).fs.live i = some f := by
      show (fsStep t.fs c).live i = _
      rw [live, Function.update_self]
    have again : f.inode = r.inode := by
      rw [new.inode, hone]
      apply BitVec.eq_of_toNat_eq
      rw [next]
      unfold inodeSupply at hout supply
      show (2 + t.made) % 2 ^ 32 = 1
      omega
    obtain rfl := hdistinct i 0 f r here root again
    exact absurd (hr.symm.trans free) (Option.some_ne_none r)

end Step

/-! ## Runs -/

/-- The entries a run has made only become more. -/
theorem made_le_runFrom (t : InodeRun) (calls : List FsCall) :
    t.made ≤ (runFrom inodeStep t calls).made := by
  induction calls generalizing t with
  | nil => exact Nat.le_refl _
  | cons c calls ih => exact Nat.le_trans (Nat.le_add_right _ _) (ih (inodeStep t c))

/-- Numbers are left at every step exactly when the whole run makes no more entries than there are
numbers. -/
theorem everyStep_left_iff {t : InodeRun} (h : t.made ≤ inodeSupply) (calls : List FsCall) :
    EveryStep inodeStep InodesLeft t calls ↔ (runFrom inodeStep t calls).made ≤ inodeSupply := by
  induction calls generalizing t with
  | nil => exact iff_of_true trivial h
  | cons c calls ih =>
    have le := entriesMade_le t.fs c
    rw [everyStep_cons, runFrom_cons]
    constructor
    · rintro ⟨hleft, hrest⟩
      refine (ih ?_).mp hrest
      show t.made + entriesMade t.fs c ≤ inodeSupply
      by_cases hmade : entriesMade t.fs c = 1
      · rw [hmade]
        exact hleft hmade
      · omega
    · intro hend
      have here := Nat.le_trans (made_le_runFrom (inodeStep t c) calls) hend
      refine ⟨fun hmade => ?_, (ih here).mpr hend⟩
      have here : t.made + entriesMade t.fs c ≤ inodeSupply := here
      omega

/-- In every run from `fs_init`: the live entries have distinct numbers in every state exactly when
fewer than 2 ^ 32 entries are made. -/
theorem inodes_distinct_iff (s₀ : Fs) (calls : List FsCall) :
    EveryState inodeStep InodesDistinct (inodeRunStart s₀) calls ↔
      (runFrom inodeStep (inodeRunStart s₀) calls).made < 2 ^ 32 := by
  have left := everyStep_left_iff (t := inodeRunStart s₀) (Nat.zero_le _) calls
  have last : (runFrom inodeStep (inodeRunStart s₀) calls).made ≤ inodeSupply ↔
      (runFrom inodeStep (inodeRunStart s₀) calls).made < 2 ^ 32 := by
    unfold inodeSupply
    omega
  rw [← last, ← left]
  exact everyState_iff (fun _ _ h hc => h.step hc) (fun _ h => h.distinct)
    (fun _ _ h hc => h.not_distinct hc) (inodesOrdered_start s₀)

/-! ## Running out of numbers -/

/-- The file system after `fs_init`, with a later counter and clock. -/
def bareFs (n : BitVec 32) (time : BitVec 64) : Fs :=
  { fsInit fsStart with
    nextInode := n
    currentTime := time }

/-- The file `a` is made. -/
def createA : FsCall := .create (some (.char 97 CString.a_ne_zero)) (some fun _ => 0)

/-- It is deleted again. -/
def deleteA : FsCall := .delete (some (.char 97 CString.a_ne_zero))

/-- The file `a`, as a create over a bare file system leaves it. -/
def fileA (n : BitVec 32) (time : BitVec 64) : File :=
  { File.zero with
    name := .char 97 CString.a_ne_zero
    data := mallocBlock (some fun _ => 0) fsBlockSize
    allocatedSize := fsBlockSize
    permissions := fsPermDefault
    inode := n
    parent := some 0
    createdTime := time + 1
    modifiedTime := time + 1 }

section Bare

variable (n : BitVec 32) (time : BitVec 64)

/-- The root is not found by any name: it has no parent. -/
theorem bareFs_find (name : CString) : fsFindFile (bareFs n time) (some name) = none := by
  refine fsFindFileInDir_eq_none.mpr fun i hentry => ?_
  obtain ⟨-, hpar, -⟩ := Fs.entry_iff.mp hentry
  by_cases hi : i = 0
  · subst hi
    exact absurd hpar (Option.some_ne_none _).symm
  · exact Nat.one_le_iff_ne_zero.mpr fun hzero => hi (Fin.ext hzero)

/-- A bare file system in which `a` was made. -/
def withA : Fs :=
  { bareFs (n + 1) (time + 1) with
    files := Function.update (bareFs n time).files 1 (fileA n time)
    fileCount := 2
    freeList := Function.update (bareFs n time).freeList 1 false }

theorem bareFs_create : fsStep (bareFs n time) createA = withA n time := by
  show (fsCreateWithPerms _ (some (.char 97)) fsPermDefault _).1 = _
  have valid : fsValidateFilename (some (.char 97)) = .success := by decide
  have slot : fsFindFreeSlot (bareFs n time) = some 1 := rfl
  unfold fsCreateWithPerms
  rw [valid, bareFs_find, slot]
  rfl

theorem withA_find : fsFindFile (withA n time) (some (.char 97)) = some 1 := by
  show fsFindFileInDir (withA n time) (some (.char 97)) (some 0) = some 1
  refine Fin.find?_eq_some_iff.mpr ⟨?_, fun j hj => ?_⟩
  · exact fsFindFileInDir_test.mpr ⟨Nat.lt_succ_self 1, Fs.entry_iff.mpr ⟨rfl, rfl, rfl⟩⟩
  · obtain rfl : j = 0 := Fin.ext (Nat.lt_one_iff.mp hj)
    rfl

/-- Making the file and deleting it takes a number and leaves nothing else behind. -/
theorem bareFs_cycle :
    fsStep (fsStep (bareFs n time) createA) deleteA = bareFs (n + 1) (time + 1) := by
  have leaf : ¬ (((withA n time).files 1).isDir = true ∧
      ∃ j, (withA n time).freeList j = false ∧ ((withA n time).files j).parent = some 1) :=
    fun h => absurd h.1 Bool.false_ne_true
  have files : Function.update (withA n time).files 1 .zero = (bareFs n time).files :=
    (Function.update_idem ..).trans (Function.update_eq_self 1 (bareFs n time).files)
  have free : Function.update (withA n time).freeList 1 true = (bareFs n time).freeList :=
    (Function.update_idem ..).trans (Function.update_eq_self 1 (bareFs n time).freeList)
  rw [bareFs_create]
  show (fsDelete (withA n time) (some (.char 97))).1 = _
  unfold fsDelete
  rw [withA_find]
  dsimp only
  rw [if_neg (by exact Bool.false_ne_true), if_neg (by decide), if_neg leaf]
  dsimp only [Fs.setFile, Fs.setFree]
  rw [files, free]
  rfl

/-- After some cycles as many numbers are gone. -/
theorem bareFs_cycles (k : Nat) :
    runFrom fsStep (bareFs n time) (List.replicate k [createA, deleteA]).flatten =
      bareFs (n + BitVec.ofNat 32 k) (time + BitVec.ofNat 64 k) := by
  induction k generalizing n time with
  | zero => rw [BitVec.add_zero, BitVec.add_zero]; rfl
  | succ k ih =>
    have count (w : Nat) (a : BitVec w) :
        a + 1 + BitVec.ofNat w k = a + BitVec.ofNat w (k + 1) := by
      rw [BitVec.add_assoc, BitVec.add_comm 1, BitVec.ofNat_add]
      rfl
    rw [List.replicate_succ, List.flatten_cons, runFrom_append, runFrom_cons, runFrom_cons,
      runFrom_nil, bareFs_cycle, ih, count, count]

end Bare

theorem runFrom_inodeStep_fs (t : InodeRun) (calls : List FsCall) :
    (runFrom inodeStep t calls).fs = runFrom fsStep t.fs calls := by
  induction calls generalizing t with
  | nil => rfl
  | cons c calls ih => exact ih (inodeStep t c)

/-- A file made and deleted as often as there are numbers, and then made once more: it has the
root's number. -/
theorem inodes_not_distinct :
    ¬ EveryState inodeStep InodesDistinct (inodeRunStart fsStart)
      ((List.replicate inodeSupply [createA, deleteA]).flatten ++ [createA]) := by
  refine mt EveryState.last fun hdistinct => ?_
  have start : (inodeRunStart fsStart).fs = bareFs 2 1 := rfl
  have round : (2 : BitVec 32) + BitVec.ofNat 32 inodeSupply = 1 := by
    unfold inodeSupply
    decide
  have last : (runFrom inodeStep (inodeRunStart fsStart)
      ((List.replicate inodeSupply [createA, deleteA]).flatten ++ [createA])).fs =
      withA 1 (1 + BitVec.ofNat 64 inodeSupply) := by
    rw [runFrom_inodeStep_fs, start, runFrom_append, bareFs_cycles, round, runFrom_cons,
      runFrom_nil, bareFs_create]
  have same := hdistinct 1 0 (fileA 1 (1 + BitVec.ofNat 64 inodeSupply)) ((fsInit fsStart).files 0)
  rw [last] at same
  exact absurd (same rfl rfl rfl) (by decide)

end Unics
