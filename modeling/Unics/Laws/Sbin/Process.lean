import Unics.Lib.Forest
import Unics.Lib.Run
import Unics.Sbin.Process

/-!
# Pids over the life of the process table

Slots are used again, pids are not: each process takes the next value of a counter that nothing
resets. As long as the counter has not passed the largest `int`, the pids of the used slots are
distinct and not negative, and every call finds the process it is for. The process after that has a
negative pid, which `process_create` returns like an error and every other call rejects.
-/

namespace Unics

open Unics.Lib

/-! ## Slots -/

/-- The process in each used slot. -/
def ProcessTable.live (s : ProcessTable) (i : ProcSlot) : Option Process :=
  if (s.slots i).used then some (s.slots i) else none

section Slots

variable {s : ProcessTable} {i : ProcSlot} {p : Process}

theorem ProcessTable.live_eq_some :
    s.live i = some p ↔ (s.slots i).used = true ∧ s.slots i = p := by
  unfold ProcessTable.live
  split
  · next h => simp only [Option.some.injEq, h, true_and]
  · next h => simp only [reduceCtorEq, h, Bool.false_eq_true, false_and]

theorem ProcessTable.live_eq_none : s.live i = none ↔ (s.slots i).used = false := by
  unfold ProcessTable.live
  split
  · next h => simp only [reduceCtorEq, h, Bool.true_eq_false]
  · next h => simpa using h

theorem ProcessTable.set_slots (s : ProcessTable) (i : ProcSlot) (p : Process) :
    (s.set i p).slots = Function.update s.slots i p := rfl

theorem ProcessTable.live_set (s : ProcessTable) (i : ProcSlot) (p : Process) :
    (s.set i p).live = Function.update s.live i (if p.used then some p else none) := by
  funext j
  rw [ProcessTable.live, ProcessTable.set_slots]
  by_cases hj : j = i
  · subst hj
    rw [Function.update_self, Function.update_self]
  · rw [Function.update_of_ne hj, Function.update_of_ne hj]
    rfl

/-- The loop of `process_count` counts the used slots. -/
theorem processCount_eq (s : ProcessTable) : processCount s = (occupied s.live).card := by
  have same : occupied s.live = Finset.univ.filter fun i => (s.slots i).used = true := by
    ext i
    rw [mem_occupied, Finset.mem_filter]
    unfold ProcessTable.live
    split
    · next h => simp [h]
    · next h => simp [h]
  rw [same, processCount, List.countP_eq_length_filter]
  simp [Finset.card, Finset.filter, Finset.univ, Fintype.elems]

end Slots

/-! ## The calls -/

/-- The arguments that `process_create` rejects. -/
def InvalidProcess (name : Option CString) (ppid : Int) : Prop := name = none ∨ ppid < 0

/-- All slots are used. -/
def ProcessTable.Full (s : ProcessTable) : Prop := ∀ i, (s.slots i).used = true

section Calls

variable (s : ProcessTable)

/-- A create fails, or fills a free slot with a process of the next pid. -/
theorem processCreate_spec (name : Option CString) (ppid : Int) :
    ((InvalidProcess name ppid ∨ s.Full) ∧ processCreate s name ppid = (s, -1)) ∨
      ∃ i p, ¬ InvalidProcess name ppid ∧ s.live i = none ∧ p.used = true ∧
        p.pid = s.nextPid.toInt ∧
        processCreate s name ppid = ({ s.set i p with nextPid := s.nextPid + 1 }, p.pid) := by
  unfold processCreate
  split
  · exact .inl ⟨.inl (.inl rfl), rfl⟩
  next text =>
  split
  · next hppid => exact .inl ⟨.inl (.inr hppid), rfl⟩
  next hppid =>
  split
  · next hfull =>
    refine .inl ⟨.inr fun i => ?_, rfl⟩
    simpa using Fin.find?_eq_none_iff.mp hfull i
  · next i hfree =>
    have free : (s.slots i).used = false := by simpa using (Fin.find?_eq_some_iff.mp hfree).1
    refine .inr ⟨i, _, ?_, ProcessTable.live_eq_none.mpr free, rfl, rfl, rfl⟩
    rintro (hname | hneg)
    · cases hname
    · exact hppid hneg

/-- A used slot with the pid. -/
def ProcessTable.Has (pid : Int) (i : ProcSlot) : Prop := ∃ p, s.live i = some p ∧ p.pid = pid

theorem ProcessTable.has_iff {pid : Int} {i : ProcSlot} :
    s.Has pid i ↔ ((s.slots i).used && (s.slots i).pid == pid) = true := by
  rw [Bool.and_eq_true, beq_iff_eq]
  constructor
  · rintro ⟨p, hp, rfl⟩
    obtain ⟨hused, rfl⟩ := ProcessTable.live_eq_some.mp hp
    exact ⟨hused, rfl⟩
  · rintro ⟨hused, hpid⟩
    exact ⟨_, ProcessTable.live_eq_some.mpr ⟨hused, rfl⟩, hpid⟩

/-- A lookup finds a slot with the pid, or there is none or the pid is negative. -/
theorem processGet_spec (pid : Int) :
    ((pid < 0 ∨ ∀ i, ¬ s.Has pid i) ∧ processGet s pid = none) ∨
      ∃ i, 0 ≤ pid ∧ s.Has pid i ∧ processGet s pid = some i := by
  unfold processGet
  split
  · next hneg => exact .inl ⟨.inl hneg, rfl⟩
  next hneg =>
  cases hfind : Fin.find? fun i => (s.slots i).used && (s.slots i).pid == pid with
  | none =>
    refine .inl ⟨.inr fun i hi => ?_, rfl⟩
    have hnot := Fin.find?_eq_none_iff.mp hfind i
    rw [s.has_iff.mp hi] at hnot
    cases hnot
  | some i =>
    exact .inr ⟨i, Int.not_lt.mp hneg, s.has_iff.mpr (Fin.find?_eq_some_iff.mp hfind).1, rfl⟩

/-- A kill finds its slot as a lookup does. -/
theorem processKill_eq (pid : Int) :
    processKill s pid =
      (processGet s pid).elim (s, -1)
        fun i => (s.set i { s.slots i with state := .zombie }, 0) := by
  unfold processKill processGet
  split
  · rfl
  · split
    · next hnone => rw [hnone]; rfl
    · next hsome => rw [hsome]; rfl

/-- A cleanup clears a slot with the pid that has been killed, or there is none or the pid is
negative. -/
theorem processCleanup_spec (pid : Int) :
    ((pid < 0 ∨ ∀ i, ¬ (s.Has pid i ∧ (s.slots i).state = .zombie)) ∧
        processCleanup s pid = (s, -1)) ∨
      ∃ i, 0 ≤ pid ∧ s.Has pid i ∧
        processCleanup s pid = (s.set i { Process.zero with state := .unused }, 0) := by
  unfold processCleanup
  split
  · next hneg => exact .inl ⟨.inl hneg, rfl⟩
  next hneg =>
  split
  · next hnone =>
    refine .inl ⟨.inr fun i hi => ?_, rfl⟩
    have hnot := Fin.find?_eq_none_iff.mp hnone i
    simp only [s.has_iff.mp hi.1, Bool.true_and, hi.2, beq_self_eq_true, Bool.true_eq_false] at hnot
  · next i hsome =>
    have test := (Fin.find?_eq_some_iff.mp hsome).1
    rw [Bool.and_eq_true] at test
    exact .inr ⟨i, Int.not_lt.mp hneg, s.has_iff.mpr test.1, rfl⟩

end Calls

/-! ## Runs -/

inductive ProcessCall where
  | create (name : Option CString) (ppid : Int)
  | kill (pid : Int)
  | cleanup (pid : Int)

/-- A run so far: the table, the pids returned and not cleaned up since, and the numbers of creates
and of cleanups that succeeded. -/
structure ProcessRun where
  table : ProcessTable
  pids : List Int
  creates : Nat
  cleanups : Nat

def processRunStart : ProcessRun :=
  { table := processInit processStart, pids := [], creates := 0, cleanups := 0 }

/-- One call of a run. -/
def processStep (t : ProcessRun) : ProcessCall → ProcessRun
  | .create name ppid =>
    let (table, pid) := processCreate t.table name ppid
    if pid = -1 then { t with table := table }
    else { t with table := table, pids := pid :: t.pids, creates := t.creates + 1 }
  | .kill pid => { t with table := (processKill t.table pid).1 }
  | .cleanup pid =>
    let (table, ret) := processCleanup t.table pid
    if ret = 0 then
      { t with
        table := table
        pids := t.pids.filter fun q => q ≠ pid
        cleanups := t.cleanups + 1 }
    else { t with table := table }

/-- The process of a pid that was returned can be looked up, and killed and then cleaned up. -/
structure Reapable (s : ProcessTable) (pid : Int) : Prop where
  found : ∃ i, processGet s pid = some i ∧ s.Has pid i
  killed : (processKill s pid).2 = 0
  cleaned : (processCleanup (processKill s pid).1 pid).2 = 0

/-- The law of the table. -/
structure ProcessLaw (t : ProcessRun) : Prop where
  distinct : ∀ i j pid, t.table.Has pid i → t.table.Has pid j → i = j
  nonneg : ∀ i pid, t.table.Has pid i → 0 ≤ pid
  reapable : ∀ pid ∈ t.pids, Reapable t.table pid
  count : processCount t.table + t.cleanups = t.creates

/-- `process_create` returns -1 exactly when its arguments are invalid or all slots are used, and a
number that is not negative otherwise. -/
def CreateAnswers (t : ProcessRun) : ProcessCall → Prop
  | .create name ppid =>
    ((processCreate t.table name ppid).2 = -1 ↔ InvalidProcess name ppid ∨ t.table.Full) ∧
      ((processCreate t.table name ppid).2 = -1 ∨ 0 ≤ (processCreate t.table name ppid).2)
  | _ => True

/-- The number of pids from the first to the largest `int`. -/
def pidSupply : Nat := 2 ^ 31 - 100

/-- A create that is not rejected comes before the pids have run out. -/
def PidsLeft (t : ProcessRun) : ProcessCall → Prop
  | .create name ppid => ¬ (InvalidProcess name ppid ∨ t.table.Full) → t.creates < pidSupply
  | _ => True

/-- Valid arguments and a free slot. -/
theorem not_rejected {s : ProcessTable} {name : Option CString} {ppid : Int} {i : ProcSlot}
    (hvalid : ¬ InvalidProcess name ppid) (hfree : s.live i = none) :
    ¬ (InvalidProcess name ppid ∨ s.Full) :=
  not_or.mpr ⟨hvalid, fun hfull =>
    Bool.false_ne_true ((ProcessTable.live_eq_none.mp hfree).symm.trans (hfull i))⟩

/-! ## The invariant -/

/-- The counter is where the creates have brought it, and the pids of the used slots are distinct
earlier values of it. -/
structure PidsOrdered (t : ProcessRun) : Prop where
  supply : t.creates ≤ pidSupply
  next : t.table.nextPid.toNat = 100 + t.creates
  issued : ∀ i pid, t.table.Has pid i → 0 ≤ pid ∧ pid < 100 + t.creates
  distinct : ∀ i j pid, t.table.Has pid i → t.table.Has pid j → i = j
  pids : ∀ pid ∈ t.pids, ∃ i, t.table.Has pid i
  count : (occupied t.table.live).card + t.cleanups = t.creates

theorem pidsOrdered_start : PidsOrdered processRunStart := by
  have free : ∀ i, processRunStart.table.live i = none := fun _ => rfl
  have none (i : ProcSlot) (pid : Int) : ¬ processRunStart.table.Has pid i := by
    rintro ⟨p, hp, -⟩
    rw [free i] at hp
    cases hp
  refine ⟨Nat.zero_le _, rfl, fun i pid h => absurd h (none i pid),
    fun i _ pid h => absurd h (none i pid), fun _ h => absurd h List.not_mem_nil, ?_⟩
  have empty : occupied processRunStart.table.live = ∅ := by
    ext i
    rw [mem_occupied, free i]
    simp
  rw [empty]
  rfl

section Has

variable {s : ProcessTable} {i j : ProcSlot} {p : Process} {pid : Int}

/-- The pids after a store of a used slot. -/
theorem has_set_used (hused : p.used = true) :
    (s.set i p).Has pid j ↔ if j = i then p.pid = pid else s.Has pid j := by
  unfold ProcessTable.Has
  rw [ProcessTable.live_set, hused, if_pos rfl]
  by_cases hj : j = i
  · subst hj
    rw [Function.update_self, if_pos rfl]
    simp
  · rw [Function.update_of_ne hj, if_neg hj]

/-- The pids after a store of a free slot. -/
theorem has_set_free (hfree : p.used = false) :
    (s.set i p).Has pid j ↔ j ≠ i ∧ s.Has pid j := by
  unfold ProcessTable.Has
  rw [ProcessTable.live_set, hfree, if_neg Bool.false_ne_true]
  by_cases hj : j = i
  · subst hj
    rw [Function.update_self]
    simp
  · rw [Function.update_of_ne hj]
    simp [hj]

/-- A kill changes no pid. -/
theorem has_kill (hlive : (s.slots i).used = true) :
    (s.set i { s.slots i with state := .zombie }).Has pid j ↔ s.Has pid j := by
  rw [has_set_used (by exact hlive)]
  split
  · next hj =>
    subst hj
    have live : s.live j = some (s.slots j) := ProcessTable.live_eq_some.mpr ⟨hlive, rfl⟩
    unfold ProcessTable.Has
    rw [live]
    simp
  · rfl

theorem ProcessTable.Has.used (h : s.Has pid i) : (s.slots i).used = true := by
  have test := s.has_iff.mp h
  rw [Bool.and_eq_true] at test
  exact test.1

end Has

section Step

variable {t : ProcessRun}

/-- The counter as an `int`, up to the largest one. -/
theorem PidsOrdered.nextPid_toInt (h : PidsOrdered t) (hleft : t.creates < pidSupply) :
    t.table.nextPid.toInt = 100 + t.creates := by
  have next := h.next
  unfold pidSupply at hleft
  rw [BitVec.toInt_eq_toNat_of_lt (by omega), next]
  omega

/-- The first pid past the largest `int`. -/
theorem PidsOrdered.nextPid_neg (h : PidsOrdered t) (hout : ¬ t.creates < pidSupply) :
    t.table.nextPid.toInt = -2 ^ 31 := by
  have next := h.next
  have supply := h.supply
  unfold pidSupply at hout supply
  rw [BitVec.toInt_eq_toNat_cond, if_neg (by omega), next]
  omega

theorem PidsOrdered.create (h : PidsOrdered t) (name : Option CString) (ppid : Int)
    (hleft : PidsLeft t (.create name ppid)) : PidsOrdered (processStep t (.create name ppid)) := by
  unfold processStep
  dsimp only
  rcases processCreate_spec t.table name ppid with
    ⟨-, hres⟩ | ⟨i, p, hvalid, hfree, hused, hpid, hres⟩
  · rw [hres, if_pos rfl]
    exact h
  rw [hres]
  have left : t.creates < pidSupply := hleft (not_rejected hvalid hfree)
  rw [h.nextPid_toInt left] at hpid
  have ne : p.pid ≠ -1 := by omega
  rw [if_neg ne]
  have has {j : ProcSlot} {pid : Int} :
      ProcessTable.Has { t.table.set i p with nextPid := t.table.nextPid + 1 } pid j ↔
        if j = i then p.pid = pid else t.table.Has pid j := has_set_used hused
  have older {j : ProcSlot} {pid : Int} (hj : t.table.Has pid j) : p.pid ≠ pid := by
    have := (h.issued j pid hj).2
    omega
  have live : ProcessTable.live { t.table.set i p with nextPid := t.table.nextPid + 1 } =
      Function.update t.table.live i (some p) := by
    have stored := t.table.live_set i p
    rw [hused, if_pos rfl] at stored
    exact stored
  refine ⟨left, ?_, fun j pid hj => ?_, fun j k pid hj hk => ?_, fun pid hmem => ?_, ?_⟩
  · have next := h.next
    unfold pidSupply at left
    show (t.table.nextPid + 1).toNat = 100 + (t.creates + 1)
    rw [BitVec.toNat_add, next]
    show (100 + t.creates + 1) % 2 ^ 32 = _
    omega
  · rw [has] at hj
    show 0 ≤ pid ∧ pid < 100 + ((t.creates + 1 : Nat) : Int)
    split at hj
    · omega
    · have := h.issued j pid hj
      omega
  · rw [has] at hj hk
    split at hj
    · next ej =>
      split at hk
      · next ek => exact ej.trans ek.symm
      · exact absurd hj (older hk)
    · split at hk
      · exact absurd hk (older hj)
      · exact h.distinct j k pid hj hk
  · rcases List.mem_cons.mp hmem with rfl | hmem
    · exact ⟨i, has.mpr (by rw [if_pos rfl])⟩
    · obtain ⟨j, hj⟩ := h.pids pid hmem
      refine ⟨j, has.mpr ?_⟩
      split
      · next ej =>
        subst ej
        obtain ⟨q, hq, -⟩ := hj
        rw [hfree] at hq
        cases hq
      · exact hj
  · show (occupied _).card + t.cleanups = t.creates + 1
    rw [live, card_occupied_insert hfree, ← h.count]
    omega

theorem PidsOrdered.kill (h : PidsOrdered t) (pid : Int) :
    PidsOrdered (processStep t (.kill pid)) := by
  show PidsOrdered { t with table := (processKill t.table pid).1 }
  rw [processKill_eq]
  rcases processGet_spec t.table pid with ⟨-, hres⟩ | ⟨i, -, hi, hres⟩
  · rw [hres]
    exact h
  rw [hres]
  have used := hi.used
  have live : t.table.live i = some (t.table.slots i) := ProcessTable.live_eq_some.mpr ⟨used, rfl⟩
  have same {j : ProcSlot} {q : Int} :
      (t.table.set i { t.table.slots i with state := .zombie }).Has q j ↔ t.table.Has q j :=
    has_kill used
  refine ⟨h.supply, h.next, fun j q hj => h.issued j q (same.mp hj),
    fun j k q hj hk => h.distinct j k q (same.mp hj) (same.mp hk), fun q hmem => ?_, ?_⟩
  · obtain ⟨j, hj⟩ := h.pids q hmem
    exact ⟨j, same.mpr hj⟩
  · show (occupied (ProcessTable.set _ _ _).live).card + t.cleanups = t.creates
    rw [ProcessTable.live_set, if_pos (by exact used), occupied_replace live]
    exact h.count

theorem PidsOrdered.cleanup (h : PidsOrdered t) (pid : Int) :
    PidsOrdered (processStep t (.cleanup pid)) := by
  unfold processStep
  dsimp only
  rcases processCleanup_spec t.table pid with ⟨-, hres⟩ | ⟨i, -, hi, hres⟩
  · rw [hres, if_neg (show ¬ (-1 : Int) = 0 by decide)]
    exact h
  rw [hres, if_pos rfl]
  have kept {j : ProcSlot} {q : Int} :
      (t.table.set i { Process.zero with state := .unused }).Has q j ↔ j ≠ i ∧ t.table.Has q j :=
    has_set_free rfl
  refine ⟨h.supply, h.next, fun j q hj => h.issued j q (kept.mp hj).2,
    fun j k q hj hk => h.distinct j k q (kept.mp hj).2 (kept.mp hk).2, fun q hmem => ?_, ?_⟩
  · obtain ⟨hmem, hne⟩ := List.mem_filter.mp hmem
    obtain ⟨j, hj⟩ := h.pids q hmem
    refine ⟨j, kept.mpr ⟨?_, hj⟩⟩
    rintro rfl
    obtain ⟨p, hp, rfl⟩ := hj
    obtain ⟨p', hp', rfl⟩ := hi
    rw [hp] at hp'
    obtain rfl := Option.some.inj hp'
    simp at hne
  · obtain ⟨p, hp, -⟩ := hi
    have pos : 0 < (occupied t.table.live).card :=
      Finset.card_pos.mpr ⟨i, mem_occupied.mpr (by rw [hp]; rfl)⟩
    have count := h.count
    show (occupied (ProcessTable.set _ _ _).live).card + (t.cleanups + 1) = t.creates
    rw [ProcessTable.live_set, if_neg (by decide), card_occupied_remove hp]
    omega

theorem PidsOrdered.step (h : PidsOrdered t) (c : ProcessCall) (hleft : PidsLeft t c) :
    PidsOrdered (processStep t c) := by
  cases c with
  | create name ppid => exact h.create name ppid hleft
  | kill pid => exact h.kill pid
  | cleanup pid => exact h.cleanup pid

/-- What is in the table is found by its pid, and goes by a kill and a cleanup. -/
theorem PidsOrdered.reapable (h : PidsOrdered t) {i : ProcSlot} {pid : Int}
    (hi : t.table.Has pid i) : Reapable t.table pid := by
  have nonneg := (h.issued i pid hi).1
  rcases processGet_spec t.table pid with ⟨hnone, -⟩ | ⟨j, -, hj, hget⟩
  · exact absurd hi (hnone.resolve_left (Int.not_lt.mpr nonneg) i)
  refine ⟨⟨j, hget, hj⟩, by rw [processKill_eq, hget]; rfl, ?_⟩
  rw [processKill_eq, hget]
  show (processCleanup (t.table.set j { t.table.slots j with state := .zombie }) pid).2 = 0
  rcases processCleanup_spec (t.table.set j { t.table.slots j with state := .zombie }) pid with
    ⟨hnone, -⟩ | ⟨k, -, -, hres⟩
  · refine absurd ⟨(has_kill hj.used).mpr hj, ?_⟩
      (hnone.resolve_left (Int.not_lt.mpr nonneg) j)
    rw [ProcessTable.set_slots, Function.update_self]
  · rw [hres]

theorem PidsOrdered.law (h : PidsOrdered t) : ProcessLaw t where
  distinct := h.distinct
  nonneg i pid hi := (h.issued i pid hi).1
  reapable pid hmem := by
    obtain ⟨i, hi⟩ := h.pids pid hmem
    exact h.reapable hi
  count := by rw [processCount_eq, h.count]

theorem PidsOrdered.answers (h : PidsOrdered t) {c : ProcessCall} (hleft : PidsLeft t c) :
    CreateAnswers t c := by
  cases c with
  | create name ppid =>
    show ((processCreate t.table name ppid).2 = -1 ↔ InvalidProcess name ppid ∨ t.table.Full) ∧
      ((processCreate t.table name ppid).2 = -1 ∨ 0 ≤ (processCreate t.table name ppid).2)
    rcases processCreate_spec t.table name ppid with
      ⟨hrejected, hres⟩ | ⟨i, p, hvalid, hfree, -, hpid, hres⟩
    · rw [hres]
      exact ⟨iff_of_true rfl hrejected, .inl rfl⟩
    · have accepted := not_rejected hvalid hfree
      rw [h.nextPid_toInt (hleft accepted)] at hpid
      rw [hres]
      have nonneg : 0 ≤ p.pid := by omega
      exact ⟨iff_of_false (fun heq => by omega) accepted, .inr nonneg⟩
  | _ => trivial

/-- The process created when the pids have run out has a negative pid. -/
theorem PidsOrdered.not_law (h : PidsOrdered t) {c : ProcessCall} (hout : ¬ PidsLeft t c) :
    ¬ ProcessLaw (processStep t c) := by
  cases c with
  | create name ppid =>
    unfold PidsLeft at hout
    rw [Classical.not_imp] at hout
    obtain ⟨haccepted, hout⟩ := hout
    rcases processCreate_spec t.table name ppid with
      ⟨hrejected, -⟩ | ⟨i, p, -, -, hused, hpid, hres⟩
    · exact absurd hrejected haccepted
    intro hlaw
    rw [h.nextPid_neg hout] at hpid
    have ne : p.pid ≠ -1 := by
      rw [hpid]
      decide
    have table : (processStep t (.create name ppid)).table =
        { t.table.set i p with nextPid := t.table.nextPid + 1 } := by
      unfold processStep
      dsimp only
      rw [hres, if_neg ne]
    have has : (processStep t (.create name ppid)).table.Has p.pid i := by
      rw [table]
      exact (has_set_used (s := t.table) hused).mpr (by rw [if_pos rfl])
    have nonneg := hlaw.nonneg i p.pid has
    rw [hpid] at nonneg
    revert nonneg
    decide
  | _ => exact absurd trivial hout

end Step

/-- In every run from an initialised table: the law holds in every state and every create answers as
it should, exactly when every create that is not rejected comes before 2 ^ 31 - 100 others have
succeeded. -/
theorem process_law_iff (calls : List ProcessCall) :
    (EveryState processStep ProcessLaw processRunStart calls ∧
        EveryStep processStep CreateAnswers processRunStart calls) ↔
      EveryStep processStep PidsLeft processRunStart calls := by
  have law : EveryState processStep ProcessLaw processRunStart calls ↔
      EveryStep processStep PidsLeft processRunStart calls :=
    everyState_iff (fun _ _ hi hc => PidsOrdered.step hi _ hc) (fun _ h => h.law)
      (fun _ _ hi hc => hi.not_law hc) pidsOrdered_start
  constructor
  · intro h
    exact law.mp h.1
  · intro h
    refine ⟨law.mpr h, ?_⟩
    exact h.mono (fun _ _ hi hc => PidsOrdered.step hi _ hc) (fun _ _ hi hc => hi.answers hc)
      pidsOrdered_start

/-! ## Running out of pids -/

/-- With everything cleaned up, a create with valid arguments is not rejected. -/
theorem PidsOrdered.accepts_of_none {t : ProcessRun} (h : PidsOrdered t)
    (hnone : t.creates = t.cleanups) : ¬ (InvalidProcess (some .slash) 0 ∨ t.table.Full) := by
  rintro ((hname | hneg) | hfull)
  · cases hname
  · exact absurd hneg (by decide)
  · have count := h.count
    have first : t.table.live 0 = some (t.table.slots 0) := if_pos (hfull 0)
    have used : 0 < (occupied t.table.live).card :=
      Finset.card_pos.mpr ⟨0, mem_occupied.mpr (by rw [first]; rfl)⟩
    omega

/-- A process created, killed and cleaned up, when `k` have been before it. -/
def processCycle (k : Nat) : List ProcessCall :=
  [.create (some .slash) 0, .kill (100 + k), .cleanup (100 + k)]

/-- A cleanup that succeeds is counted. -/
theorem processStep_cleaned {t : ProcessRun} {pid : Int} (h : (processCleanup t.table pid).2 = 0) :
    (processStep t (.cleanup pid)).creates = t.creates ∧
      (processStep t (.cleanup pid)).cleanups = t.cleanups + 1 := by
  unfold processStep
  dsimp only
  rw [if_pos h]
  exact ⟨rfl, rfl⟩

/-- With all slots free, a cycle takes a pid and leaves all slots free. -/
theorem PidsOrdered.cycle {t : ProcessRun} (h : PidsOrdered t) {k : Nat} (hcreates : t.creates = k)
    (hcleanups : t.cleanups = k) (hleft : k < pidSupply) :
    PidsOrdered (runFrom processStep t (processCycle k)) ∧
      (runFrom processStep t (processCycle k)).creates = k + 1 ∧
      (runFrom processStep t (processCycle k)).cleanups = k + 1 := by
  have left : t.creates < pidSupply := by
    rw [hcreates]
    exact hleft
  have accepted := h.accepts_of_none (hcreates.trans hcleanups.symm)
  have first := h.create (some .slash) 0 fun _ => left
  have last := (first.kill (100 + k)).cleanup (100 + k)
  obtain ⟨table, hcreate⟩ : ∃ table, processStep t (.create (some .slash) 0) =
      { t with table := table, pids := (100 + k : Int) :: t.pids, creates := k + 1 } := by
    rcases processCreate_spec t.table (some .slash) 0 with
      ⟨hrejected, -⟩ | ⟨i, p, -, -, -, hpid, hres⟩
    · exact absurd hrejected accepted
    · rw [h.nextPid_toInt left, hcreates] at hpid
      unfold processStep
      dsimp only
      rw [hres, if_neg (by omega), hpid, hcreates]
      exact ⟨_, rfl⟩
  have reapable : Reapable (processStep t (.create (some .slash) 0)).table (100 + k) := by
    refine first.law.reapable _ ?_
    rw [hcreate]
    exact List.mem_cons_self
  rw [processCycle, runFrom_cons, runFrom_cons, runFrom_cons, runFrom_nil]
  refine ⟨last, ?_⟩
  generalize processStep t (.create (some .slash) 0) = u at hcreate reapable
  have killed : processStep u (.kill (100 + k)) =
      { u with table := (processKill u.table (100 + k)).1 } := rfl
  rw [killed]
  obtain ⟨creates, cleanups⟩ := @processStep_cleaned
    { u with table := (processKill u.table (100 + k)).1 } (100 + k) reapable.cleaned
  rw [creates, cleanups, hcreate]
  exact ⟨rfl, congrArg (· + 1) hcleanups⟩

/-- After some cycles as many pids are gone, and all slots are free. -/
theorem processRun_cycles (n : Nat) (hn : n ≤ pidSupply) :
    PidsOrdered (runFrom processStep processRunStart ((List.range n).flatMap processCycle)) ∧
      (runFrom processStep processRunStart ((List.range n).flatMap processCycle)).creates = n ∧
      (runFrom processStep processRunStart ((List.range n).flatMap processCycle)).cleanups = n := by
  induction n with
  | zero => exact ⟨pidsOrdered_start, rfl, rfl⟩
  | succ n ih =>
    obtain ⟨safe, creates, cleanups⟩ := ih (by omega)
    rw [List.range_succ, List.flatMap_append, runFrom_append, List.flatMap_singleton]
    exact safe.cycle creates cleanups (by omega)

/-- After as many cycles as there are pids, the next process gets a negative one. -/
theorem process_law_fails :
    ¬ EveryState processStep ProcessLaw processRunStart
      ((List.range pidSupply).flatMap processCycle ++ [.create (some .slash) 0]) := by
  refine mt EveryState.last ?_
  have run := processRun_cycles pidSupply (Nat.le_refl pidSupply)
  rw [runFrom_append, runFrom_cons, runFrom_nil]
  refine run.1.not_law fun hleft => ?_
  have left := hleft (run.1.accepts_of_none (run.2.1.trans run.2.2.symm))
  omega

end Unics
