import Unics.Lib.Blocks
import Unics.Types

/-!
# Interrupt maps

`kern/intrmap.c`. A pointer to a block is its name, and `NULL` is `none`. The three kinds of blocks
are kept apart: the maps, the arrays of pointers and the `cpu_info`s. A pointer and an
`unsigned int` have four bytes, so a map has sixteen. `malloc` of `stdlib.c` gives `NULL` for a size
of 0, and `answers` says which other calls it serves. A store outside a block that is held answers
`none`: what comes after it is not modelled.
-/

namespace Unics

open Unics.Lib

structure Intrmap where
  device : UIntPtr
  flags : BitVec 32
  cpuCount : BitVec 32
  cpus : Option ℕ
  deriving DecidableEq

/-- What the blocks hold: a map, the pointers of an array, the `cpu_id` of a `cpu_info`. -/
structure IntrMem where
  maps : ℕ → Intrmap
  cells : ℕ → ℕ → Option ℕ
  ids : ℕ → BitVec 32

structure IntrHeap where
  blocks : Blocks
  mem : IntrMem

namespace IntrHeap

def malloc (answers : ℕ → Bool) (size : ℕ) (h : IntrHeap) : Option ℕ × IntrHeap :=
  ((h.blocks.malloc answers size).1, { h with blocks := (h.blocks.malloc answers size).2 })

def free (block : Option ℕ) (h : IntrHeap) : IntrHeap := { h with blocks := h.blocks.free block }

/-- Stores to the fields of a map. -/
def storeMap (im : ℕ) (f : Intrmap → Intrmap) (h : IntrHeap) : Option IntrHeap :=
  if h.blocks.Holds im 16 then
    some { h with mem.maps := Function.update h.mem.maps im (f (h.mem.maps im)) }
  else none

/-- `cpus[i] = cpu`. -/
def storeCell (cpus i : ℕ) (cpu : Option ℕ) (h : IntrHeap) : Option IntrHeap :=
  if h.blocks.Holds cpus (4 * i + 4) then
    some { h with
      mem.cells := Function.update h.mem.cells cpus (Function.update (h.mem.cells cpus) i cpu) }
  else none

/-- `cpu->cpu_id = id`. -/
def storeId (cpu : ℕ) (id : BitVec 32) (h : IntrHeap) : Option IntrHeap :=
  if h.blocks.Holds cpu 4 then some { h with mem.ids := Function.update h.mem.ids cpu id } else none

end IntrHeap

/-- `while (i--) free(im->cpus[i])`. -/
def freeCpus (cpus : ℕ) : ℕ → IntrHeap → IntrHeap
  | 0, h => h
  | i + 1, h => freeCpus cpus i (h.free (h.mem.cells cpus i))

/-- The loop of `intrmap_create` at `i`, with so many rounds to go. No store of the loop changes
`im->cpus`. -/
def createLoop (answers : ℕ → Bool) (im cpus : ℕ) (cpuBaseId : BitVec 32) :
    ℕ → ℕ → IntrHeap → Option (Option ℕ × IntrHeap)
  | 0, _, h => some (some im, h)
  | n + 1, i, h => do
    let cpu := (h.malloc answers 4).1
    let h ← (h.malloc answers 4).2.storeCell cpus i cpu
    match cpu with
    | none => some (none, ((freeCpus cpus i h).free cpus).free im)
    | some cpu => do
      let h ← h.storeId cpu (cpuBaseId + BitVec.ofNat 32 i)
      createLoop answers im cpus cpuBaseId n (i + 1) h

/-- `intrmap_create` behind the allocation of the array. -/
def createCpus (answers : ℕ → Bool) (im : ℕ) (cpuCount cpuBaseId : BitVec 32) (cpus : Option ℕ)
    (h : IntrHeap) : Option (Option ℕ × IntrHeap) := do
  let h ← h.storeMap im fun map => { map with cpus }
  match cpus with
  | none => some (none, h.free im)
  | some cpus => createLoop answers im cpus cpuBaseId cpuCount.toNat 0 h

/-- `intrmap_create`: the pointer returned. -/
def intrmapCreate (answers : ℕ → Bool) (device : UIntPtr) (flags cpuCount cpuBaseId : BitVec 32)
    (h : IntrHeap) : Option (Option ℕ × IntrHeap) :=
  let im := (h.malloc answers 16).1
  let h := (h.malloc answers 16).2
  match im with
  | none => some (none, h)
  | some im => do
    let h ← h.storeMap im fun map => { map with device, flags, cpuCount }
    -- `sizeof(*im->cpus) * cpu_count`
    let size : SizeT := 4 * cpuCount
    createCpus answers im cpuCount cpuBaseId (h.malloc answers size.toNat).1
      (h.malloc answers size.toNat).2

/-- The loop of `intrmap_destroy` at `i`, with so many rounds to go. -/
def destroyLoop (cpus : ℕ) : ℕ → ℕ → IntrHeap → IntrHeap
  | 0, _, h => h
  | n + 1, i, h => destroyLoop cpus n (i + 1) (h.free (h.mem.cells cpus i))

/-- `intrmap_destroy`. Without an array there is nothing to read pointers from. -/
def intrmapDestroy (im : Option ℕ) (h : IntrHeap) : Option IntrHeap :=
  match im with
  | none => some h
  | some im =>
    let map := h.mem.maps im
    match map.cpus with
    | none => if map.cpuCount = 0 then some (h.free im) else none
    | some cpus => some (((destroyLoop cpus map.cpuCount.toNat 0 h).free cpus).free im)

/-- `intrmap_cpu`, of a map that has its array. -/
def intrmapCpu (h : IntrHeap) (im : Option ℕ) (idx : BitVec 32) : Option ℕ :=
  match im with
  | none => none
  | some im =>
    let map := h.mem.maps im
    if idx ≥ map.cpuCount then none else map.cpus.bind fun cpus => h.mem.cells cpus idx.toNat

end Unics
