import Unics.Laws.Fs.Tree
import Unics.Laws.Libc.Calls

/-!
# Descriptors and the files they refer to

`is_open` is one flag, set by every `open` of a file and cleared by every `close`. So it says that
some descriptor refers to the file as long as no `close` leaves another descriptor behind, and
`unlink`, which trusts it, then never frees a file that a descriptor refers to.

That a descriptor's slot still holds the file it was opened on is a statement about history. The
model carries the history it needs: for each slot how many files it has lost, and for each
descriptor that number at its `open`.
-/

namespace Unics

open Unics.Lib

/-! ## Calls -/

/-- A call through the descriptor interface, with what the heap answers. -/
inductive UnistdCall where
  | openFile (pathname : Option CString) (flags : BitVec 32) (heap : Heap)
  | close (fd : Int)
  | read (fd : Int) (count : SizeT)
  | write (fd : Int) (buf : Buffer) (count : SizeT) (heap : Heap)
  | lseek (fd : Int) (offset : BitVec 64) (whence : Int)
  | unlink (pathname : Option CString)
  | chdir (path : CString)

/-- The state after a call. -/
def unistdStep (u : Unistd) : UnistdCall → Unistd
  | .openFile pathname flags heap => (unistdOpen u pathname flags heap).1
  | .close fd => (unistdClose u fd).1
  | .read fd count => (unistdRead u fd count).after
  | .write fd buf count heap => (unistdWrite u fd buf count heap).after
  | .lseek fd offset whence => (unistdLseek u fd offset whence).1
  | .unlink pathname => (unistdUnlink u pathname).1
  | .chdir path => (unistdChdir u path).1

/-- The state with its history. -/
structure FdTrace where
  now : Unistd
  /-- How many files each slot has lost. -/
  lost : Slot → Nat
  /-- How many files its slot had lost when the descriptor was opened. -/
  openedAt : Fd → Nat

/-- The losses after a step from `u` to `v`. -/
def lostAfter (u v : Unistd) (lost : Slot → Nat) (i : Slot) : Nat :=
  if (u.fs.live i).isSome && (v.fs.live i).isNone then lost i + 1 else lost i

/-- A descriptor that appears in a step from `u` to `v` is opened now. -/
def openedAfter (u v : Unistd) (lost : Slot → Nat) (openedAt : Fd → Nat) (fd : Fd) : Nat :=
  match u.fdTable fd, v.fdTable fd with
  | none, some i => lostAfter u v lost i
  | _, _ => openedAt fd

/-- One call, and its mark on the history. -/
def fdStep (t : FdTrace) (c : UnistdCall) : FdTrace :=
  let v := unistdStep t.now c
  { now := v, lost := lostAfter t.now v t.lost, openedAt := openedAfter t.now v t.lost t.openedAt }

/-- A fresh file system and an empty table. -/
def fdStart (s : Fs) : FdTrace :=
  { now := { fs := fsInit s, fdTable := fun _ => none }
    lost := fun _ => 0
    openedAt := fun _ => 0 }

/-- Every descriptor refers to a live open file, the one it was opened on, and exactly the files
that a descriptor refers to are marked open. -/
structure FdIntegrity (t : FdTrace) : Prop where
  refers : ∀ fd i, t.now.fdTable fd = some i → ∃ f, t.now.fs.live i = some f ∧ f.isOpen = true
  same : ∀ fd i, t.now.fdTable fd = some i → t.lost i = t.openedAt fd
  marked : ∀ i f, t.now.fs.live i = some f →
    (f.isOpen = true ↔ ∃ fd, t.now.fdTable fd = some i)

/-- The descriptor that a call closes. -/
def UnistdCall.closes : UnistdCall → Option Fd
  | .close fd => fdIndex fd
  | _ => none

/-- The descriptor that is closed is the only one that refers to its file. -/
def ClosesLast (t : FdTrace) (c : UnistdCall) : Prop :=
  ∀ fd i, c.closes = some fd → t.now.fdTable fd = some i →
    ∀ fd', t.now.fdTable fd' = some i → fd' = fd

/-! ## Effects -/

/-- A change to a file that leaves its flag alone. -/
def SameOpen (f g : File) : Prop := g.isOpen = f.isOpen

/-- What a call does to the files and the descriptors. -/
inductive FdEffect (closes : Option Fd) (u v : Unistd) : Prop
  | keep {makes removes : Option CString} (fs : FsEffect SameOpen makes removes u.fs v.fs)
      (table : v.fdTable = u.fdTable)
  | opened {mid : Slot → Option File} {i : Slot} {fd : Fd} {g : File}
      (made : Made u.fs.live mid)
      (old : ∃ f, mid i = some f) (free : u.fdTable fd = none) (isOpen : g.isOpen = true)
      (live : v.fs.live = Function.update mid i (some g))
      (table : v.fdTable = Function.update u.fdTable fd (some i))
  | closed {i : Slot} {fd : Fd} {g : File} (named : closes = some fd) (old : u.fdTable fd = some i)
      (isOpen : g.isOpen = false) (files : v.fs.files = Function.update u.fs.files i g)
      (flags : v.fs.freeList = u.fs.freeList)
      (table : v.fdTable = Function.update u.fdTable fd none)

theorem FdEffect.refl {closes : Option Fd} (u : Unistd) : FdEffect closes u u :=
  .keep (FsEffect.refl u.fs : FsEffect SameOpen none none u.fs u.fs) rfl

/-- A store through a descriptor that leaves the flag alone. -/
theorem FdEffect.store {closes : Option Fd} {u v : Unistd} {i : Slot} {g : File}
    (hfiles : v.fs.files = Function.update u.fs.files i g)
    (isOpen : g.isOpen = (u.fs.files i).isOpen) (hfree : v.fs.freeList = u.fs.freeList)
    (rest : SameGlobals u.fs v.fs) (table : v.fdTable = u.fdTable) : FdEffect closes u v :=
  .keep (FsEffect.poke isOpen hfiles hfree rest) table

theorem Resized.sameOpen {f g : File} {asked : SizeT} {heap : Heap}
    (h : Resized f asked heap g) : g.isOpen = f.isOpen := by
  cases h <;> rfl

theorem unistdRead_effect (u : Unistd) (fd : Int) (count : SizeT) :
    FdEffect none u (unistdRead u fd count).after := by
  rcases unistdRead_spec u fd count with ⟨_, h, -⟩ | ⟨i, -, -, -, h⟩
  · rw [h]
    exact .refl u
  · rw [h]
    exact .store rfl rfl rfl ⟨rfl, rfl, rfl⟩ rfl

theorem unistdWrite_effect (u : Unistd) (fd : Int) (buf : Buffer) (count : SizeT) (heap : Heap) :
    FdEffect none u (unistdWrite u fd buf count heap).after := by
  by_cases hfile : ∃ i, getFile u fd = some i ∧ (u.fs.files i).isOpen = true
  · obtain ⟨i, hfile, hopen⟩ := hfile
    have spec := unistdWrite_spec hfile hopen buf count heap
    generalize unistdWrite u fd buf count heap = r at spec ⊢
    cases spec with
    | inPlace => exact .store rfl rfl rfl ⟨rfl, rfl, rfl⟩ rfl
    | resized _ _ hg =>
      rw [unistdWriteCopy_after_resize]
      exact .store rfl hg.sameOpen rfl ⟨rfl, rfl, rfl⟩ rfl
    | refused => exact .refl u
  · rw [unistdWrite_no_file fun i hi => by simpa using fun hopen => hfile ⟨i, hi, hopen⟩]
    exact .refl u

theorem unistdLseek_effect (u : Unistd) (fd : Int) (offset : BitVec 64) (whence : Int) :
    FdEffect none u (unistdLseek u fd offset whence).1 := by
  by_cases hfile : ∃ i, getFile u fd = some i ∧ (u.fs.files i).isOpen = true
  · obtain ⟨i, hfile, hopen⟩ := hfile
    rw [unistdLseek_spec hfile hopen]
    split
    · exact .refl u
    · exact .store rfl rfl rfl ⟨rfl, rfl, rfl⟩ rfl
  · rw [unistdLseek_no_file fun i hi => by simpa using fun hopen => hfile ⟨i, hi, hopen⟩]
    exact .refl u

theorem unistdClose_effect (u : Unistd) (fd : Int) :
    FdEffect (fdIndex fd) u (unistdClose u fd).1 := by
  rcases unistdClose_spec u fd with ⟨-, h⟩ | ⟨d, i, hd, hi, h⟩
  · rw [h]
    exact .refl u
  · rw [h]
    exact .closed hd hi rfl rfl rfl rfl

theorem unistdOpen_effect (u : Unistd) (pathname : Option CString) (flags : BitVec 32)
    (heap : Heap) : FdEffect none u (unistdOpen u pathname flags heap).1 := by
  have spec := unistdOpen_spec u pathname flags heap
  generalize unistdOpen u pathname flags heap = r at spec ⊢
  cases spec with
  | refused lookup =>
    obtain ⟨_, effect⟩ := lookup.effect SameOpen
    exact .keep effect rfl
  | @opened s _ _ i _ _ lookup free _ file fs table =>
    have live := fsFindFile_live lookup.here
    refine .opened lookup.made ⟨_, Fs.live_of_used live⟩ free file.isOpen ?_ table
    rw [fs]
    exact Fs.live_store rfl rfl live

/-- Every call has one of the effects. -/
theorem unistdStep_effect (u : Unistd) : ∀ c : UnistdCall,
    FdEffect c.closes u (unistdStep u c)
  | .openFile pathname flags heap => unistdOpen_effect u pathname flags heap
  | .close fd => unistdClose_effect u fd
  | .read fd count => unistdRead_effect u fd count
  | .write fd buf count heap => unistdWrite_effect u fd buf count heap
  | .lseek fd offset whence => unistdLseek_effect u fd offset whence
  | .unlink pathname => .keep (fsDelete_effect u.fs pathname) rfl
  | .chdir path => .keep (fsChdir_effect u.fs path) rfl

/-! ## Open slots -/

/-- The slot holds a live file that is marked open. -/
def Fs.OpenAt (s : Fs) (i : Slot) : Prop := ∃ f, s.live i = some f ∧ f.isOpen = true

/-- Integrity, in terms of open slots. -/
theorem fdIntegrity_iff {t : FdTrace} : FdIntegrity t ↔
    (∀ i, t.now.fs.OpenAt i ↔ ∃ fd, t.now.fdTable fd = some i) ∧
      ∀ fd i, t.now.fdTable fd = some i → t.lost i = t.openedAt fd := by
  constructor
  · intro h
    refine ⟨fun i => ⟨fun hi => ?_, fun hi => ?_⟩, h.same⟩
    · obtain ⟨f, hf, hopen⟩ := hi
      exact (h.marked i f hf).mp hopen
    · obtain ⟨fd, hfd⟩ := hi
      exact h.refers fd i hfd
  · intro h
    refine ⟨fun fd i hfd => (h.1 i).mpr ⟨fd, hfd⟩, h.2,
      fun i f hf => ⟨fun hopen => ?_, fun hfd => ?_⟩⟩
    · exact (h.1 i).mp ⟨f, hf, hopen⟩
    · obtain ⟨g, hg, hopen⟩ := (h.1 i).mpr hfd
      obtain rfl := Option.some.inj (hg.symm.trans hf)
      exact hopen

/-- A filled slot is open when the file put there is, and no other slot changes. -/
theorem openAt_filled {live : Slot → Option File} {i j : Slot} {g : File} :
    (∃ f, Function.update live i (some g) j = some f ∧ f.isOpen = true) ↔
      (j = i ∧ g.isOpen = true) ∨ (j ≠ i ∧ ∃ f, live j = some f ∧ f.isOpen = true) := by
  constructor
  · intro h
    obtain ⟨f, hf, hopen⟩ := h
    rcases filled_iff.mp hf with ⟨rfl, rfl⟩ | ⟨hj, hf⟩
    · exact .inl ⟨rfl, hopen⟩
    · exact .inr ⟨hj, f, hf, hopen⟩
  · intro h
    rcases h with ⟨rfl, hopen⟩ | ⟨hj, f, hf, hopen⟩
    · exact ⟨g, filled_iff.mpr (.inl ⟨rfl, rfl⟩), hopen⟩
    · exact ⟨f, filled_iff.mpr (.inr ⟨hj, hf⟩), hopen⟩

/-- A new closed file in an empty slot opens nothing. -/
theorem openAt_insert {live : Slot → Option File} {i j : Slot} {g : File} (hfree : live i = none)
    (hg : g.isOpen = false) :
    (∃ f, Function.update live i (some g) j = some f ∧ f.isOpen = true) ↔
      ∃ f, live j = some f ∧ f.isOpen = true := by
  rw [openAt_filled, hg]
  constructor
  · intro h
    rcases h with ⟨_, h⟩ | ⟨_, h⟩
    · exact absurd h Bool.noConfusion
    · exact h
  · intro h
    refine .inr ⟨fun heq => ?_, h⟩
    obtain ⟨f, hf, -⟩ := h
    rw [heq, hfree] at hf
    exact absurd hf.symm (Option.some_ne_none f)

/-- Effects that leave flags alone open and close nothing: a new file is closed, and a delete wants
its file closed. -/
theorem FsEffect.openAt_iff {makes removes : Option CString} {s t : Fs}
    (h : FsEffect SameOpen makes removes s t) (j : Slot) : t.OpenAt j ↔ s.OpenAt j := by
  unfold Fs.OpenAt
  cases h with
  | idle live | enter _ live => rw [live]
  | @touch i f g old change live =>
    rw [live, openAt_filled]
    constructor
    · intro h
      rcases h with ⟨rfl, hopen⟩ | ⟨_, h⟩
      · exact ⟨f, old, change.symm.trans hopen⟩
      · exact h
    · intro h
      by_cases hj : j = i
      · subst hj
        obtain ⟨f', hf', hopen⟩ := h
        obtain rfl := Option.some.inj (old.symm.trans hf')
        exact .inl ⟨rfl, change.trans hopen⟩
      · exact .inr ⟨hj, h⟩
  | insert _ _ _ slot new live =>
    rw [live, openAt_insert (Fs.live_eq_none.mpr (Fin.find?_eq_some_iff.mp slot).1) new.closed]
  | @remove i _ f _ _ old closed _ _ live =>
    rw [live]
    constructor
    · intro h
      obtain ⟨g, hg, hopen⟩ := h
      exact ⟨g, (cleared_iff.mp hg).2, hopen⟩
    · intro h
      obtain ⟨g, hg, hopen⟩ := h
      refine ⟨g, cleared_iff.mpr ⟨fun heq => ?_, hg⟩, hopen⟩
      subst heq
      obtain rfl := Option.some.inj (old.symm.trans hg)
      exact absurd (closed.symm.trans hopen) Bool.noConfusion

/-! ## History -/

/-- A slot that is live after the step has lost nothing in it. -/
theorem lostAfter_of_live {u v : Unistd} {lost : Slot → Nat} {i : Slot} {f : File}
    (h : v.fs.live i = some f) : lostAfter u v lost i = lost i := by
  rw [lostAfter, h, Option.isNone_some, Bool.and_false]
  rfl

/-- What the history says after a step about a descriptor whose slot is live then: one that was
there is as old as it was, one that appears is opened now. -/
theorem same_after {t : FdTrace} {c : UnistdCall} (h : FdIntegrity t) {fd : Fd} {i : Slot}
    (hfd : (fdStep t c).now.fdTable fd = some i)
    (hkept : t.now.fdTable fd = some i ∨ t.now.fdTable fd = none)
    (hopen : (fdStep t c).now.fs.OpenAt i) : (fdStep t c).lost i = (fdStep t c).openedAt fd := by
  obtain ⟨f, hf, -⟩ := hopen
  have kept : (fdStep t c).lost i = t.lost i := lostAfter_of_live hf
  show _ = openedAfter t.now (fdStep t c).now t.lost t.openedAt fd
  unfold openedAfter
  rcases hkept with hold | hnew
  · rw [hold, kept]
    exact h.same fd i hold
  · rw [hnew, hfd]
    rfl

/-! ## One call -/

/-- A call that closes no descriptor beside another of the same file keeps integrity. -/
theorem FdIntegrity.step {t : FdTrace} (h : FdIntegrity t) {c : UnistdCall}
    (hlast : ClosesLast t c) : FdIntegrity (fdStep t c) := by
  obtain ⟨hopen, -⟩ := fdIntegrity_iff.mp h
  have after : ∀ {fd i}, (fdStep t c).now.fdTable fd = some i →
      (t.now.fdTable fd = some i ∨ t.now.fdTable fd = none) →
      (∀ j, (fdStep t c).now.fs.OpenAt j ↔ ∃ fd, (fdStep t c).now.fdTable fd = some j) →
      (fdStep t c).lost i = (fdStep t c).openedAt fd :=
    fun hfd hkept hiff => same_after h hfd hkept ((hiff _).mpr ⟨_, hfd⟩)
  rw [fdIntegrity_iff]
  cases unistdStep_effect t.now c with
  | keep fs table =>
    have iff : ∀ j, (fdStep t c).now.fs.OpenAt j ↔ ∃ fd, (fdStep t c).now.fdTable fd = some j := by
      intro j
      show (unistdStep t.now c).fs.OpenAt j ↔ ∃ fd, (unistdStep t.now c).fdTable fd = some j
      rw [fs.openAt_iff, table, hopen]
    refine ⟨iff, fun fd i hfd => after hfd (.inl ?_) iff⟩
    rw [← table]
    exact hfd
  | @opened mid i fd g made old free isOpen live table =>
    have mid_iff : ∀ j, (∃ f, mid j = some f ∧ f.isOpen = true) ↔ t.now.fs.OpenAt j := by
      intro j
      rcases made with rfl | ⟨k, f, hk, hf, rfl⟩
      · exact Iff.rfl
      · exact openAt_insert hk hf
    have iff : ∀ j, (fdStep t c).now.fs.OpenAt j ↔ ∃ fd, (fdStep t c).now.fdTable fd = some j := by
      intro j
      show (unistdStep t.now c).fs.OpenAt j ↔ ∃ fd, (unistdStep t.now c).fdTable fd = some j
      rw [Fs.OpenAt, live, table, openAt_filled, mid_iff, hopen, exists_filled_iff free]
      constructor
      · rintro (⟨heq, _⟩ | ⟨_, h⟩)
        · exact .inl heq
        · exact .inr h
      · intro h
        by_cases hj : j = i
        · exact .inl ⟨hj, isOpen⟩
        · exact .inr ⟨hj, h.resolve_left hj⟩
    refine ⟨iff, fun d j hd => after hd ?_ iff⟩
    rcases filled_iff.mp (table ▸ hd : Function.update t.now.fdTable fd (some i) d = some j) with
      ⟨rfl, _⟩ | ⟨_, hd⟩
    · exact .inr free
    · exact .inl hd
  | @closed i fd g named old isOpen files flags table =>
    have only := hlast fd i named old
    obtain ⟨f, hf, -⟩ := h.refers fd i old
    have live := Fs.live_store files flags (Fs.live_eq_some.mp hf).1
    have iff : ∀ j, (fdStep t c).now.fs.OpenAt j ↔ ∃ fd, (fdStep t c).now.fdTable fd = some j := by
      intro j
      show (unistdStep t.now c).fs.OpenAt j ↔ ∃ fd, (unistdStep t.now c).fdTable fd = some j
      rw [Fs.OpenAt, live, table, openAt_filled, isOpen, exists_cleared_iff old only, ← hopen]
      constructor
      · rintro (⟨_, h⟩ | h)
        · exact absurd h Bool.noConfusion
        · exact h
      · exact .inr
    refine ⟨iff, fun d j hd => after hd (.inl ?_) iff⟩
    exact (cleared_iff.mp (table ▸ hd : Function.update t.now.fdTable fd none d = some j)).2

/-- A close beside another descriptor of the same file leaves that one on a file marked closed. -/
theorem FdIntegrity.not_step {t : FdTrace} {c : UnistdCall} (hlast : ¬ ClosesLast t c) :
    ¬ FdIntegrity (fdStep t c) := by
  simp only [ClosesLast, not_forall] at hlast
  obtain ⟨fd, i, hcloses, hfd, fd', hfd', hne⟩ := hlast
  cases c with
  | close k =>
    have hindex : fdIndex k = some fd := hcloses
    have result : unistdStep t.now (.close k) =
        { t.now.setFile i { t.now.fs.files i with isOpen := false } with
          fdTable := Function.update t.now.fdTable fd none } := by
      simp only [unistdStep, unistdClose, hindex, hfd]
    intro h
    obtain ⟨f, hf, hopen⟩ := h.refers fd' i (by
      show (unistdStep t.now (.close k)).fdTable fd' = some i
      rw [result]
      exact cleared_iff.mpr ⟨hne, hfd'⟩)
    have closed : ((unistdStep t.now (.close k)).fs.files i).isOpen = false := by
      rw [result]
      show (Function.update t.now.fs.files i _ i).isOpen = false
      rw [Function.update_self]
    obtain ⟨-, rfl⟩ := Fs.live_eq_some.mp hf
    exact absurd (closed.symm.trans hopen) Bool.noConfusion
  | _ => exact absurd hcloses.symm (Option.some_ne_none fd)

theorem fdIntegrity_start (s : Fs) : FdIntegrity (fdStart s) := by
  refine ⟨fun fd i h => ?_, fun fd i h => ?_, fun i f hf => ?_⟩
  · exact absurd h.symm (Option.some_ne_none i)
  · exact absurd h.symm (Option.some_ne_none i)
  · obtain ⟨-, rfl⟩ := fsInit_only hf
    constructor
    · intro hopen
      exact Bool.noConfusion hopen
    · intro h
      obtain ⟨fd, hfd⟩ := h
      exact absurd hfd.symm (Option.some_ne_none i)

/-! ## Runs -/

/-- In every run every state has integrity exactly when every close is of the last descriptor that
refers to its file. -/
theorem fd_integrity_iff (s : Fs) (calls : List UnistdCall) :
    EveryState fdStep FdIntegrity (fdStart s) calls ↔
      EveryStep fdStep ClosesLast (fdStart s) calls :=
  everyState_iff (fun _ _ h hlast => h.step hlast) (fun _ h => h)
    (fun _ _ _ hlast => FdIntegrity.not_step hlast) (fdIntegrity_start s)

/-- One file opened twice, one descriptor closed: the other one refers to a file that is marked
closed. -/
theorem fd_integrity_fails :
    ¬ EveryState fdStep FdIntegrity (fdStart fsStart)
      [.openFile (some (.char 97)) oCreat (some fun _ => 0),
        .openFile (some (.char 97)) 0 (some fun _ => 0), .close 3] := by
  intro h
  have last := everyState_iff_prefix.mp h _ [] (List.append_nil _).symm
  obtain ⟨f, hf, hopen⟩ := last.refers 4 1 (by decide +kernel)
  obtain ⟨-, rfl⟩ := Fs.live_eq_some.mp hf
  revert hopen
  decide +kernel

end Unics
