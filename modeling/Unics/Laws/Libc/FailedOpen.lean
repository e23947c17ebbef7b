import Unics.Laws.Fs.Creates
import Unics.Laws.Libc.Calls

/-!
# Opens that fail

`open` may create the file before it looks for a descriptor, and does not take the file back when it
finds none. So an open that fails leaves the state as it was unless it has created a file that it
cannot give a descriptor for (`open_noTrace_iff`).
-/

namespace Unics

open Unics.Lib

/-- If the call fails, the files, the counters and the table of descriptors are as before. -/
def OpenLeavesNoTrace (u : Unistd) (pathname : Option CString) (flags : BitVec 32) (heap : Heap) :
    Prop :=
  (unistdOpen u pathname flags heap).2 = -1 →
    SameTable u.fs (unistdOpen u pathname flags heap).1.fs ∧
      (unistdOpen u pathname flags heap).1.fdTable = u.fdTable

/-- Every descriptor that `alloc_fd` may give out is in use. -/
def NoFreeFd (u : Unistd) : Prop := ∀ fd : Fd, 3 ≤ fd.val → u.fdTable fd ≠ none

/-- Once the file is created in slot `i`, a lookup of its name stops, at it or at an older one. -/
def SeenAfter (s : Fs) (name : CString) (i : Slot) : Prop :=
  s.currentDir ≠ none ∧ ∃ j : Slot, j.val ≤ s.fileCount ∧ (j = i ∨ s.Here name j)

/-- The call creates a file for which it then has no descriptor, or which it then does not find. -/
def CreatesInVain (u : Unistd) (pathname : Option CString) (flags : BitVec 32) (heap : Heap) :
    Prop :=
  flags &&& oCreat ≠ 0 ∧ ∃ name i, pathname = some name ∧ CreateReady u.fs name heap i ∧
    (NoFreeFd u ∨ ¬ SeenAfter u.fs name i)

/-! ## The lookup -/

section Created

variable {s t : Fs} {name : CString} {permissions : UInt8} {i : Slot} {f : File}

theorem Created.not_sameTable (h : Created s t name permissions i f) : ¬ SameTable s t :=
  fun same => Nat.succ_ne_self s.fileCount (h.fileCount.symm.trans same.rest.fileCount)

theorem Created.find_ne_none_iff (h : Created s t name permissions i f) :
    fsFindFile t (some name) ≠ none ↔ SeenAfter s name i := by
  cases hdir : s.currentDir with
  | none =>
    have current : t.currentDir = none := h.currentDir.trans hdir
    have lost : fsFindFile t (some name) = none := by
      rw [fsFindFile, current]
      rfl
    exact iff_of_false (fun hfound => hfound lost) fun seen => seen.1 hdir
  | some d =>
    have here (k : Slot) : t.Here name k ↔ k = i ∨ s.Here name k := by
      rw [h.here_iff hdir]
      by_cases hk : k = i
      · rw [if_pos hk]
        exact iff_of_true rfl (.inl hk)
      · rw [if_neg hk, or_iff_right hk]
    rw [Ne, fsFindFile_eq_none, h.fileCount]
    simp only [here, not_forall, not_le, Nat.lt_succ_iff]
    constructor
    · rintro ⟨k, hk, hle⟩
      exact ⟨hdir ▸ Option.some_ne_none d, k, hle, hk⟩
    · rintro ⟨-, k, hle, hk⟩
      exact ⟨k, hk, hle⟩

end Created

/-- In a consistent table the new file is seen. -/
theorem FsTree.seenAfter {s : Fs} (h : FsTree s) {i : Slot} (hslot : fsFindFreeSlot s = some i)
    (name : CString) : SeenAfter s name i := by
  obtain ⟨d, _, hd, -⟩ := h.current
  exact ⟨hd ▸ Option.some_ne_none d, i, h.freeSlot_le hslot, .inl rfl⟩

/-- The lookup creates nothing, or everything that a create asks for is there. -/
theorem openLookup_ends (s : Fs) (pathname : Option CString) (flags : BitVec 32) (heap : Heap) :
    SameTable s (openLookup s pathname flags heap).1 ∧
        (∀ name i, pathname = some name → CreateReady s name heap i → flags &&& oCreat = 0) ∨
      flags &&& oCreat ≠ 0 ∧ ∃ name i f, pathname = some name ∧ CreateReady s name heap i ∧
        Created s (openLookup s pathname flags heap).1 name fsPermDefault i f ∧
        (openLookup s pathname flags heap).2 =
          fsFindFile (openLookup s pathname flags heap).1 pathname := by
  unfold openLookup
  split
  · next file hfound =>
    refine .inl ⟨.refl s, ?_⟩
    rintro name i rfl ready
    exact absurd (hfound.symm.trans ready.fresh) (Option.some_ne_none file)
  · next habsent =>
    split
    · next hflag => exact .inl ⟨.refl s, fun _ _ _ _ => hflag⟩
    · next hflag =>
      have exits := fsCreateWithPerms_exits s pathname fsPermDefault heap
      split
      · next t hres =>
        cases pathname with
        | none => exact absurd (congrArg Prod.snd hres) FsCode.noConfusion
        | some name =>
          obtain ⟨i, ready⟩ := fsCreateWithPerms_success (congrArg Prod.snd hres)
          obtain ⟨-, f, created⟩ := fsCreateWithPerms_ready ready fsPermDefault
          rw [fsCreate] at hres
          rw [hres] at created
          exact .inr ⟨hflag, name, i, f, rfl, ready, created, rfl⟩
      · next t code hcode hres =>
        rw [fsCreate] at hres
        rw [hres] at exits
        have failed : code ≠ .success := by
          rintro rfl
          exact hcode rfl
        refine .inl ⟨exits.resolve_left failed, ?_⟩
        rintro name i rfl ready
        have success := (fsCreateWithPerms_ready ready fsPermDefault).1
        rw [hres] at success
        exact absurd success failed

/-! ## The descriptor -/

/-- A call fails for want of a file or of a descriptor, with whatever the lookup has left. -/
theorem unistdOpen_failed (u : Unistd) (pathname : Option CString) (flags : BitVec 32)
    (heap : Heap) :
    ((unistdOpen u pathname flags heap).2 = -1 ↔
      (openLookup u.fs pathname flags heap).2 = none ∨ NoFreeFd u) ∧
    ((unistdOpen u pathname flags heap).2 = -1 →
      (unistdOpen u pathname flags heap).1 =
        { u with fs := (openLookup u.fs pathname flags heap).1 }) := by
  unfold unistdOpen
  split
  · next s hlookup =>
    rw [hlookup]
    exact ⟨iff_of_true rfl (.inl rfl), fun _ => rfl⟩
  · next s file hlookup =>
    rw [hlookup]
    rcases allocFd_spec { u with fs := s } file with ⟨halloc, full⟩ | ⟨fd, free, user, halloc⟩
    · rw [halloc]
      exact ⟨iff_of_true rfl (.inr full), fun _ => rfl⟩
    · rw [halloc]
      have given : ((fd.val : Nat) : Int) ≠ -1 := by omega
      have room : ¬ ((some file : Option Slot) = none ∨ NoFreeFd u) := by
        rintro (hfile | full)
        · exact Option.some_ne_none file hfile
        · exact full fd user free
      dsimp only
      split
      · exact ⟨iff_of_false given room, fun h => absurd h given⟩
      · split
        · exact ⟨iff_of_false given room, fun h => absurd h given⟩
        · exact ⟨iff_of_false given room, fun h => absurd h given⟩

/-- An open that fails leaves no trace exactly when it does not create a file in vain, and where the
table is consistent that happens only for want of a descriptor. -/
theorem open_noTrace_iff (u : Unistd) (pathname : Option CString) (flags : BitVec 32)
    (heap : Heap) :
    (OpenLeavesNoTrace u pathname flags heap ↔ ¬ CreatesInVain u pathname flags heap) ∧
      (FsTree u.fs → CreatesInVain u pathname flags heap → NoFreeFd u) := by
  refine ⟨?_, ?_⟩
  · obtain ⟨hfailed, hstate⟩ := unistdOpen_failed u pathname flags heap
    rcases openLookup_ends u.fs pathname flags heap with
      ⟨same, idle⟩ | ⟨hflag, name, i, f, rfl, ready, created, hfile⟩
    · refine iff_of_true ?_ ?_
      · intro h
        rw [hstate h]
        exact ⟨same, rfl⟩
      · rintro ⟨hflag, name, i, hname, ready, -⟩
        exact hflag (idle name i hname ready)
    · have vain :
          CreatesInVain u (some name) flags heap ↔ NoFreeFd u ∨ ¬ SeenAfter u.fs name i := by
        constructor
        · rintro ⟨-, other, j, hname, hready, h⟩
          obtain rfl := Option.some.inj hname
          obtain rfl := Option.some.inj (ready.slot.symm.trans hready.slot)
          exact h
        · exact fun h => ⟨hflag, name, i, rfl, ready, h⟩
      have trace : ¬ OpenLeavesNoTrace u (some name) flags heap ↔
          (unistdOpen u (some name) flags heap).2 = -1 := by
        rw [OpenLeavesNoTrace, Classical.not_imp, and_iff_left_iff_imp]
        intro h kept
        rw [hstate h] at kept
        exact created.not_sameTable kept.1
      rw [vain, ← created.find_ne_none_iff, not_ne_iff, ← hfile, or_comm, ← hfailed, ← trace,
        not_not]
  · rintro tree ⟨-, name, i, -, ready, full | unseen⟩
    · exact full
    · exact absurd (tree.seenAfter ready.slot name) unseen

/-- The state after 29 opens of "a", of which the first has created it. -/
def manyOpens : Unistd :=
  (List.replicate 29 ()).foldl
    (fun u _ => (unistdOpen u (some (.char 97 CString.a_ne_zero)) oCreat (some fun _ => 0)).1)
    { fs := fsInit fsStart, fdTable := fun _ => none }

/-- An open that is to create "b" then fails and leaves the file. -/
theorem open_noTrace_fails :
    ¬ OpenLeavesNoTrace manyOpens (some (.char 98)) oCreat (some fun _ => 0) := by
  intro h
  have count := (h (by decide +kernel)).1.rest.fileCount
  revert count
  decide +kernel

end Unics
