import Mathlib.Data.Fin.Tuple.Basic
import Mathlib.Logic.Function.Basic
import Unics.Libc.CString

/-!
# The process table

`usr/sbin/process/process.c`: a table of 32 slots and a counter for the next pid. The counter is an
`atomic_int`, so adding to it wraps; an `int` is read off it with its sign.
-/

namespace Unics

abbrev maxProcesses : Nat := 32

instance : NeZero maxProcesses := ⟨Nat.succ_ne_zero 31⟩

def maxProcessName : Nat := 32

abbrev ProcSlot := Fin maxProcesses

inductive ProcessState where
  | unused
  | running
  | sleeping
  | stopped
  | zombie
  deriving DecidableEq, Repr

structure Process where
  pid : Int
  name : CString
  state : ProcessState
  /-- Parent process ID. -/
  ppid : Int
  used : Bool
  deriving DecidableEq

/-- A slot after `memset(p, 0, sizeof(Process))`: the zero of the states is `running`. -/
def Process.zero : Process :=
  { pid := 0, name := .empty, state := .running, ppid := 0, used := false }

/-- `process_table` and `next_pid`. -/
structure ProcessTable where
  slots : ProcSlot → Process
  nextPid : BitVec 32

/-- The globals as the program starts. -/
def processStart : ProcessTable := { slots := fun _ => .zero, nextPid := 100 }

/-- A store to a slot. -/
def ProcessTable.set (s : ProcessTable) (i : ProcSlot) (p : Process) : ProcessTable :=
  { s with slots := Function.update s.slots i p }

def processInit (s : ProcessTable) : ProcessTable :=
  { s with slots := fun i => { s.slots i with used := false, state := .unused } }

def processCreate (s : ProcessTable) (name : Option CString) (ppid : Int) : ProcessTable × Int :=
  match name with
  | none => (s, -1)
  | some name =>
    if ppid < 0 then (s, -1)
    else
      match Fin.find? fun i => !(s.slots i).used with
      | none => (s, -1)
      | some i =>
        let p : Process :=
          { pid := s.nextPid.toInt
            name := name.strncpy (maxProcessName - 1)
            state := .running
            ppid
            used := true }
        ({ s.set i p with nextPid := s.nextPid + 1 }, p.pid)

def processKill (s : ProcessTable) (pid : Int) : ProcessTable × Int :=
  if pid < 0 then (s, -1)
  else
    match Fin.find? fun i => (s.slots i).used && (s.slots i).pid == pid with
    | none => (s, -1)
    | some i => (s.set i { s.slots i with state := .zombie }, 0)

def processCleanup (s : ProcessTable) (pid : Int) : ProcessTable × Int :=
  if pid < 0 then (s, -1)
  else
    match Fin.find? fun i =>
      (s.slots i).used && (s.slots i).pid == pid && (s.slots i).state == .zombie with
    | none => (s, -1)
    | some i => (s.set i { Process.zero with state := .unused }, 0)

/-- `process_get`: a `Process *` is a slot or null. -/
def processGet (s : ProcessTable) (pid : Int) : Option ProcSlot :=
  if pid < 0 then none
  else Fin.find? fun i => (s.slots i).used && (s.slots i).pid == pid

def processCount (s : ProcessTable) : Nat :=
  (List.finRange maxProcesses).countP fun i => (s.slots i).used

end Unics
