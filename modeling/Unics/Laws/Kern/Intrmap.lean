import Mathlib.Data.List.Range
import Unics.Kern.Intrmap

/-!
# All or nothing

`intrmap_create` gives a whole map, or frees what it has got and gives none, at whichever allocation
the heap fails. From 2^30 processors on the size of the array wraps, and the array has room for the
remainder only (`arrayRoom`). Then the loop stores behind it, unless an allocation fails before. For
a multiple of 2^30 the size is 0, which `malloc` refuses, and the call gives no map.
-/

namespace Unics

open Unics.Lib

/-- The call gives a map in which every processor has its number, and has freed nothing, or it gives
none and has freed each block once. No store is outside a block. -/
def AllOrNothing (answers : ℕ → Bool) (device : UIntPtr) (flags cpuCount cpuBaseId : BitVec 32)
    (mem : IntrMem) : Prop :=
  ∃ im h, intrmapCreate answers device flags cpuCount cpuBaseId { blocks := .start, mem } =
      some (im, h) ∧
    ((im ≠ none ∧ h.blocks.freed = [] ∧ ∀ idx < cpuCount, ∃ cpu, intrmapCpu h im idx = some cpu ∧
        h.mem.ids cpu = cpuBaseId + idx) ∨
      (im = none ∧ h.blocks.Settled))

/-- The pointers that the array has room for. -/
def arrayRoom (cpuCount : BitVec 32) : ℕ := cpuCount.toNat % 2 ^ 30

/-- `malloc` fails before the loop comes to the end of the array. -/
def FailsWithinRoom (answers : ℕ → Bool) (cpuCount : BitVec 32) : Prop :=
  ∃ k < 2 + arrayRoom cpuCount, answers k = false

/-! ## The loop -/

/-- The blocks of the processors before `i`. -/
def cpuBlocks (i : ℕ) : List (ℕ × ℕ) := (List.range i).reverse.map fun j => (j + 2, 4)

/-- The loop at `i`, with an array of `size` bytes. -/
structure Filling (device : UIntPtr) (flags cpuCount cpuBaseId : BitVec 32) (size i : ℕ)
    (h : IntrHeap) : Prop where
  blocks : h.blocks = { calls := i + 2, taken := cpuBlocks i ++ [(1, size), (0, 16)], freed := [] }
  map : h.mem.maps 0 = { device, flags, cpuCount, cpus := some 1 }
  cells : ∀ j < i, h.mem.cells 1 j = some (j + 2)
  ids : ∀ j < i, h.mem.ids (j + 2) = cpuBaseId + BitVec.ofNat 32 j

theorem cpuBlocks_succ (i : ℕ) : cpuBlocks (i + 1) = (i + 2, 4) :: cpuBlocks i := by
  rw [cpuBlocks, List.range_succ, List.reverse_append]
  rfl

theorem names_cpuBlocks (i size : ℕ) :
    ((cpuBlocks i ++ [(1, size), (0, 16)]).map Prod.fst) = (List.range (i + 2)).reverse := by
  induction i with
  | zero => rfl
  | succ i ih =>
    rw [cpuBlocks_succ, List.cons_append, List.map_cons, ih, List.range_succ (n := i + 2),
      List.reverse_append]
    rfl

/-- Everything is freed: the processors' blocks, the array and the map. -/
theorem settled_of_freed {calls i size : ℕ} {freed : List ℕ}
    (h : freed.Perm (0 :: 1 :: (List.range i).map (· + 2))) :
    Blocks.Settled { calls, taken := cpuBlocks i ++ [(1, size), (0, 16)], freed } := by
  refine Blocks.settled_of_range (n := i + 2) (names_cpuBlocks i size) ?_
  rw [List.range_succ_eq_map, List.range_succ_eq_map, List.map_cons, List.map_map]
  exact h

/-- What is freed by going back over the pointers. -/
theorem freeCpus_blocks {cpus i : ℕ} {h : IntrHeap}
    (hcells : ∀ j < i, h.mem.cells cpus j = some (j + 2)) :
    (freeCpus cpus i h).blocks =
      { h.blocks with freed := (List.range i).map (· + 2) ++ h.blocks.freed } := by
  induction i generalizing h with
  | zero => rfl
  | succ i ih =>
    have last := hcells i (Nat.lt_succ_self i)
    have before := ih (h := h.free (h.mem.cells cpus i))
      fun j hj => hcells j (hj.trans (Nat.lt_succ_self i))
    rw [freeCpus, before, last, List.range_succ, List.map_append, List.append_assoc]
    rfl

section Loop

variable {answers : ℕ → Bool} {device : UIntPtr} {flags cpuCount cpuBaseId : BitVec 32}
  {size i n : ℕ} {h : IntrHeap}

theorem mem_cpuBlocks {block : ℕ × ℕ} (h : block ∈ cpuBlocks i) : 2 ≤ block.1 := by
  obtain ⟨j, -, rfl⟩ := List.mem_map.mp h
  exact Nat.le_add_left 2 j

/-- The array may be written up to its end. -/
theorem holds_array {blocks : List (ℕ × ℕ)} (hblocks : ∀ block ∈ blocks, 2 ≤ block.1)
    {calls stop : ℕ} :
    Blocks.Holds { calls, taken := blocks ++ [(1, size), (0, 16)], freed := [] } 1 stop ↔
      stop ≤ size := by
  constructor
  · rintro ⟨-, given, hmem, hname, hstop⟩
    rcases List.mem_append.mp hmem with hmem | hmem
    · have large := hblocks given hmem
      omega
    · rcases List.mem_pair.mp hmem with rfl | rfl
      · exact hstop
      · exact absurd hname (by decide)
  · intro hstop
    refine ⟨List.not_mem_nil, (1, size), List.mem_append_right _ List.mem_cons_self, rfl, hstop⟩

/-- Without room in the array the loop stores behind it. -/
theorem createLoop_outside (hfill : Filling device flags cpuCount cpuBaseId size i h)
    (hroom : ¬ 4 * i + 4 ≤ size) : createLoop answers 0 1 cpuBaseId (n + 1) i h = none := by
  have outside : ¬ (h.malloc answers 4).2.blocks.Holds 1 (4 * i + 4) := by
    rw [IntrHeap.malloc, hfill.blocks]
    cases hanswer : answers (i + 2) with
    | true =>
      have names : ∀ block ∈ (i + 2, 4) :: cpuBlocks i, 2 ≤ block.1 :=
        List.forall_mem_cons.mpr ⟨Nat.le_add_left 2 i, fun _ => mem_cpuBlocks⟩
      rw [Blocks.malloc_some (by decide : 4 ≠ 0) hanswer]
      exact fun hholds => hroom ((holds_array names).mp hholds)
    | false =>
      rw [Blocks.malloc_none (.inr hanswer)]
      exact fun hholds => hroom ((holds_array fun _ => mem_cpuBlocks).mp hholds)
  rw [createLoop, IntrHeap.storeCell, if_neg outside]
  rfl

/-- A failure in the loop frees everything. -/
theorem createLoop_fails (hfill : Filling device flags cpuCount cpuBaseId size i h)
    (hroom : 4 * i + 4 ≤ size) (hanswer : answers (i + 2) = false) :
    ∃ h', createLoop answers 0 1 cpuBaseId (n + 1) i h = some (none, h') ∧
      h'.blocks.Settled := by
  have answered : h.malloc answers 4 =
      (none, { h with blocks := { h.blocks with calls := h.blocks.calls + 1 } }) := by
    rw [IntrHeap.malloc, Blocks.malloc_none (.inr (by rw [hfill.blocks]; exact hanswer))]
  have inside : Blocks.Holds { h.blocks with calls := h.blocks.calls + 1 } 1 (4 * i + 4) := by
    rw [hfill.blocks]
    exact (holds_array fun _ => mem_cpuBlocks).mpr hroom
  let filled : IntrHeap := { h with
    blocks := { h.blocks with calls := h.blocks.calls + 1 }
    mem.cells := Function.update h.mem.cells 1 (Function.update (h.mem.cells 1) i none) }
  have cells : ∀ j < i, filled.mem.cells 1 j = some (j + 2) := by
    intro j hj
    dsimp only [filled]
    rw [Function.update_self, Function.update_of_ne hj.ne]
    exact hfill.cells j hj
  have run : createLoop answers 0 1 cpuBaseId (n + 1) i h =
      some (none, ((freeCpus 1 i filled).free (some 1)).free (some 0)) := by
    rw [createLoop, answered]
    dsimp only [Option.bind_eq_bind]
    rw [IntrHeap.storeCell, if_pos inside]
    rfl
  refine ⟨_, run, ?_⟩
  rw [IntrHeap.free, IntrHeap.free, freeCpus_blocks cells]
  dsimp only [filled, Blocks.free]
  rw [hfill.blocks, List.append_nil]
  exact settled_of_freed (List.Perm.refl _)

/-- An answer carries the loop on. -/
theorem createLoop_goes (hfill : Filling device flags cpuCount cpuBaseId size i h)
    (hroom : 4 * i + 4 ≤ size) (hanswer : answers (i + 2) = true) :
    ∃ h', createLoop answers 0 1 cpuBaseId (n + 1) i h =
        createLoop answers 0 1 cpuBaseId n (i + 1) h' ∧
      Filling device flags cpuCount cpuBaseId size (i + 1) h' := by
  have answered : h.malloc answers 4 = (some (i + 2), { h with
      blocks := { calls := i + 3, taken := cpuBlocks (i + 1) ++ [(1, size), (0, 16)],
                  freed := [] } }) := by
    rw [IntrHeap.malloc, hfill.blocks, Blocks.malloc_some (by decide : 4 ≠ 0) hanswer,
      cpuBlocks_succ]
    rfl
  have inside : Blocks.Holds
      { calls := i + 3, taken := cpuBlocks (i + 1) ++ [(1, size), (0, 16)], freed := [] } 1
      (4 * i + 4) := (holds_array fun _ => mem_cpuBlocks).mpr hroom
  have latest : Blocks.Holds
      { calls := i + 3, taken := cpuBlocks (i + 1) ++ [(1, size), (0, 16)], freed := [] } (i + 2)
      4 := by
    rw [cpuBlocks_succ]
    exact ⟨List.not_mem_nil, (i + 2, 4), List.mem_cons_self, rfl, le_refl 4⟩
  rw [createLoop, answered]
  dsimp only [Option.bind_eq_bind]
  rw [IntrHeap.storeCell, if_pos inside, Option.bind_some]
  dsimp only
  rw [IntrHeap.storeId, if_pos latest, Option.bind_some]
  refine ⟨_, rfl, rfl, hfill.map, fun j hj => ?_, fun j hj => ?_⟩
  · dsimp only
    rw [Function.update_self]
    by_cases hlast : j = i
    · rw [hlast, Function.update_self]
    · rw [Function.update_of_ne hlast]
      exact hfill.cells j (by omega)
  · dsimp only
    by_cases hlast : j = i
    · rw [hlast, Function.update_self]
    · rw [Function.update_of_ne (by omega)]
      exact hfill.ids j (by omega)

/-- The loop ends with a whole map or with everything freed, if it has room for the pointers or
fails before it is out of room. -/
theorem createLoop_ends (hfill : Filling device flags cpuCount cpuBaseId size i h)
    (hroom : 4 * (i + n) ≤ size ∨ ∃ j, i ≤ j ∧ 4 * j + 4 ≤ size ∧ answers (j + 2) = false) :
    ∃ im h', createLoop answers 0 1 cpuBaseId n i h = some (im, h') ∧
      ((im = some 0 ∧ Filling device flags cpuCount cpuBaseId size (i + n) h') ∨
        (im = none ∧ h'.blocks.Settled)) := by
  induction n generalizing i h with
  | zero => exact ⟨some 0, h, rfl, .inl ⟨rfl, hfill⟩⟩
  | succ n ih =>
    have room : 4 * i + 4 ≤ size := by
      rcases hroom with hfits | ⟨j, hj, hfits, -⟩
      all_goals omega
    cases hanswer : answers (i + 2) with
    | false =>
      obtain ⟨h', hrun, hsettled⟩ := createLoop_fails (n := n) hfill room hanswer
      exact ⟨none, h', hrun, .inr ⟨rfl, hsettled⟩⟩
    | true =>
      obtain ⟨h', hrun, hnext⟩ := createLoop_goes (n := n) hfill room hanswer
      have next : i + 1 + n = i + (n + 1) := by omega
      rw [hrun, ← next]
      refine ih hnext (hroom.imp (fun hfits => next ▸ hfits) ?_)
      rintro ⟨j, hj, hfits, hfails⟩
      refine ⟨j, Nat.lt_of_le_of_ne hj ?_, hfits, hfails⟩
      rintro rfl
      exact Bool.false_ne_true (hfails.symm.trans hanswer)

/-- The loop runs out of room, if it fails nowhere before. -/
theorem createLoop_overruns (hfill : Filling device flags cpuCount cpuBaseId size i h)
    (hstart : 4 * i ≤ size) (hover : size < 4 * (i + n))
    (hanswers : ∀ j, i ≤ j → 4 * j + 4 ≤ size → answers (j + 2) = true) :
    createLoop answers 0 1 cpuBaseId n i h = none := by
  induction n generalizing i h with
  | zero => omega
  | succ n ih =>
    by_cases hroom : 4 * i + 4 ≤ size
    · obtain ⟨h', hrun, hnext⟩ :=
        createLoop_goes (n := n) hfill hroom (hanswers i (le_refl i) hroom)
      rw [hrun]
      exact ih hnext (by omega) (by omega) fun j hj => hanswers j (Nat.le_of_succ_le hj)
    · exact createLoop_outside hfill hroom

end Loop

/-! ## The call -/

section Create

variable {answers : ℕ → Bool} {device : UIntPtr} {flags cpuCount cpuBaseId : BitVec 32}
  {mem : IntrMem}

/-- Without a map there is nothing to free. -/
theorem intrmapCreate_no_map (hmap : answers 0 = false) :
    ∃ h, intrmapCreate answers device flags cpuCount cpuBaseId { blocks := .start, mem } =
      some (none, h) ∧ h.blocks.Settled := by
  have answered : Blocks.malloc answers 16 .start = (none, { Blocks.start with calls := 1 }) :=
    Blocks.malloc_none (.inr hmap)
  rw [intrmapCreate, IntrHeap.malloc, answered]
  exact ⟨_, rfl, List.nodup_nil, List.Perm.refl _⟩

/-- The heap when the map has its device, its flags and its number of processors. -/
def mapHeap (device : UIntPtr) (flags cpuCount : BitVec 32) (mem : IntrMem) : IntrHeap where
  blocks := { calls := 1, taken := [(0, 16)], freed := [] }
  mem := { mem with
    maps := Function.update mem.maps 0 { mem.maps 0 with device, flags, cpuCount } }

/-- The heap when the map has its array too, or no array. -/
def arrayHeap (device : UIntPtr) (flags cpuCount : BitVec 32) (mem : IntrMem) (cpus : Option ℕ)
    (blocks : Blocks) : IntrHeap where
  blocks := blocks
  mem := { mem with
    maps := Function.update mem.maps 0 { device, flags, cpuCount, cpus } }

theorem intrmapCreate_map (hmap : answers 0 = true) :
    intrmapCreate answers device flags cpuCount cpuBaseId { blocks := .start, mem } =
      createCpus answers 0 cpuCount cpuBaseId
        ((mapHeap device flags cpuCount mem).malloc answers (4 * cpuCount).toNat).1
        ((mapHeap device flags cpuCount mem).malloc answers (4 * cpuCount).toNat).2 := by
  have answered : Blocks.malloc answers 16 .start =
      (some 0, { calls := 1, taken := [(0, 16)], freed := [] }) :=
    Blocks.malloc_some (by decide) hmap
  have inside : Blocks.Holds { calls := 1, taken := [(0, 16)], freed := [] } 0 16 := by decide
  rw [intrmapCreate, IntrHeap.malloc, answered]
  dsimp only [Option.bind_eq_bind]
  rw [IntrHeap.storeMap, if_pos inside, Option.bind_some]
  rfl

/-- The array, or null, is stored in the map. -/
theorem storeMap_cpus {blocks : Blocks} (hinside : blocks.Holds 0 16) (cpus : Option ℕ) :
    IntrHeap.storeMap 0 (fun map => { map with cpus })
        { blocks, mem := (mapHeap device flags cpuCount mem).mem } =
      some (arrayHeap device flags cpuCount mem cpus blocks) := by
  rw [IntrHeap.storeMap, if_pos hinside]
  dsimp only [mapHeap, arrayHeap]
  rw [Function.update_idem, Function.update_self]

theorem toNat_arraySize (cpuCount : BitVec 32) :
    (4 * cpuCount).toNat = 4 * arrayRoom cpuCount :=
  Nat.mul_mod_mul_left 4 cpuCount.toNat (2 ^ 30)

/-- Without an array the map is freed. -/
theorem intrmapCreate_no_array (hmap : answers 0 = true)
    (harray : arrayRoom cpuCount = 0 ∨ answers 1 = false) :
    ∃ h, intrmapCreate answers device flags cpuCount cpuBaseId { blocks := .start, mem } =
      some (none, h) ∧ h.blocks.Settled := by
  have refused : (4 * cpuCount).toNat = 0 ∨ answers 1 = false :=
    harray.imp_left fun hroom => by rw [toNat_arraySize, hroom]
  have answered : (mapHeap device flags cpuCount mem).blocks.malloc answers (4 * cpuCount).toNat =
      (none, { calls := 2, taken := [(0, 16)], freed := [] }) := Blocks.malloc_none refused
  rw [intrmapCreate_map hmap, IntrHeap.malloc, answered, createCpus, storeMap_cpus (by decide)]
  exact ⟨_, rfl, List.nodup_singleton 0, List.Perm.refl _⟩

variable (answers device flags cpuCount cpuBaseId mem) in
/-- With both the loop begins. -/
theorem intrmapCreate_fills (hmap : answers 0 = true) (hroom : arrayRoom cpuCount ≠ 0)
    (harray : answers 1 = true) :
    ∃ h, intrmapCreate answers device flags cpuCount cpuBaseId { blocks := .start, mem } =
        createLoop answers 0 1 cpuBaseId cpuCount.toNat 0 h ∧
      Filling device flags cpuCount cpuBaseId (4 * arrayRoom cpuCount) 0 h := by
  have answered : (mapHeap device flags cpuCount mem).blocks.malloc answers (4 * cpuCount).toNat =
      (some 1, { calls := 2, taken := [(1, (4 * cpuCount).toNat), (0, 16)], freed := [] }) :=
    Blocks.malloc_some (by rw [toNat_arraySize]; omega) harray
  have inside : Blocks.Holds
      { calls := 2, taken := [(1, (4 * cpuCount).toNat), (0, 16)], freed := [] } 0 16 :=
    ⟨List.not_mem_nil, (0, 16), List.mem_cons_of_mem _ List.mem_cons_self, rfl, le_refl 16⟩
  rw [intrmapCreate_map hmap, IntrHeap.malloc, answered, createCpus, storeMap_cpus inside,
    toNat_arraySize]
  refine ⟨_, rfl, rfl, ?_, fun j hj => absurd hj (Nat.not_lt_zero j),
    fun j hj => absurd hj (Nat.not_lt_zero j)⟩
  dsimp only [arrayHeap]
  rw [Function.update_self]

/-- With map and array at hand, what the loop needs. -/
theorem loop_room (hmap : answers 0 = true) (harray : answers 1 = true)
    (h : cpuCount.toNat < 2 ^ 30 ∨ FailsWithinRoom answers cpuCount) :
    4 * (0 + cpuCount.toNat) ≤ 4 * arrayRoom cpuCount ∨
      ∃ j, 0 ≤ j ∧ 4 * j + 4 ≤ 4 * arrayRoom cpuCount ∧ answers (j + 2) = false := by
  rcases h with hsmall | ⟨k, hk, hfails⟩
  · rw [arrayRoom]
    omega
  · have not_map : k ≠ 0 := by
      rintro rfl
      exact Bool.false_ne_true (hfails.symm.trans hmap)
    have not_array : k ≠ 1 := by
      rintro rfl
      exact Bool.false_ne_true (hfails.symm.trans harray)
    obtain ⟨j, rfl⟩ : ∃ j, k = j + 2 := ⟨k - 2, by omega⟩
    exact .inr ⟨j, Nat.zero_le j, by omega, hfails⟩

/-- A map that is filled has every processor with its number. -/
theorem Filling.made {size : ℕ} {h : IntrHeap}
    (hfill : Filling device flags cpuCount cpuBaseId size cpuCount.toNat h) {idx : BitVec 32}
    (hidx : idx < cpuCount) :
    ∃ cpu, intrmapCpu h (some 0) idx = some cpu ∧ h.mem.ids cpu = cpuBaseId + idx := by
  have within := BitVec.lt_def.mp hidx
  refine ⟨idx.toNat + 2, ?_, ?_⟩
  · rw [intrmapCpu, hfill.map]
    dsimp only
    rw [if_neg (BitVec.not_le.mpr hidx), Option.bind_some, hfill.cells _ within]
  · rw [hfill.ids _ within, BitVec.ofNat_toNat, BitVec.setWidth_eq]

end Create

/-- `intrmap_create` gives a whole map or none, exactly if the size of the array does not wrap or
wraps to 0, or an allocation fails before the loop is at the end of the array. -/
theorem intrmapCreate_allOrNothing_iff (answers : ℕ → Bool) (device : UIntPtr)
    (flags cpuCount cpuBaseId : BitVec 32) (mem : IntrMem) :
    AllOrNothing answers device flags cpuCount cpuBaseId mem ↔
      cpuCount.toNat < 2 ^ 30 ∨ 2 ^ 30 ∣ cpuCount.toNat ∨ FailsWithinRoom answers cpuCount := by
  by_cases hmap : answers 0 = false
  · obtain ⟨h, hrun, hsettled⟩ := intrmapCreate_no_map hmap
    exact iff_of_true ⟨none, h, hrun, .inr ⟨rfl, hsettled⟩⟩ (.inr (.inr ⟨0, by omega, hmap⟩))
  rw [Bool.not_eq_false] at hmap
  by_cases harray : arrayRoom cpuCount = 0 ∨ answers 1 = false
  · obtain ⟨h, hrun, hsettled⟩ := intrmapCreate_no_array hmap harray
    refine iff_of_true ⟨none, h, hrun, .inr ⟨rfl, hsettled⟩⟩ (.inr ?_)
    exact harray.imp Nat.dvd_of_mod_eq_zero fun hfails => ⟨1, by omega, hfails⟩
  obtain ⟨hroom, harray⟩ := not_or.mp harray
  rw [Bool.not_eq_false] at harray
  obtain ⟨h, hrun, hfill⟩ :=
    intrmapCreate_fills answers device flags cpuCount cpuBaseId mem hmap hroom harray
  constructor
  · rintro ⟨im, h', hcreate, -⟩
    by_contra hno
    obtain ⟨hlarge, hno⟩ := not_or.mp hno
    have hanswers := (not_or.mp hno).2
    have short : 4 * arrayRoom cpuCount < 4 * (0 + cpuCount.toNat) := by
      rw [arrayRoom]
      omega
    have overruns : createLoop answers 0 1 cpuBaseId cpuCount.toNat 0 h = none :=
      createLoop_overruns hfill (Nat.zero_le _) short fun j _ hj => by
        by_contra hfails
        exact hanswers ⟨j + 2, by omega, Bool.eq_false_iff.mpr hfails⟩
    rw [hrun, overruns] at hcreate
    exact Option.some_ne_none _ hcreate.symm
  · intro hcond
    have room : cpuCount.toNat < 2 ^ 30 ∨ FailsWithinRoom answers cpuCount :=
      hcond.imp_right fun h => h.resolve_left fun hdvd => hroom (Nat.mod_eq_zero_of_dvd hdvd)
    obtain ⟨im, h', hloop, hends⟩ := createLoop_ends hfill (loop_room hmap harray room)
    refine ⟨im, h', hrun.trans hloop, hends.imp (fun ⟨him, hfilled⟩ => ?_) id⟩
    rw [Nat.zero_add] at hfilled
    subst him
    exact ⟨Option.some_ne_none 0, by rw [hfilled.blocks], fun idx => hfilled.made⟩

/-- 2^30 + 1 processors on a heap that never fails: the array has room for one pointer, and the
second is stored behind it. -/
theorem intrmapCreate_wraps :
    ¬ AllOrNothing (fun _ => true) 0 0 (BitVec.ofNat 32 (2 ^ 30 + 1)) 0
      { maps := fun _ => ⟨0, 0, 0, none⟩, cells := fun _ _ => none, ids := fun _ => 0 } := by
  rintro ⟨im, h', hcreate, -⟩
  obtain ⟨h, hrun, hfill⟩ := intrmapCreate_fills (fun _ => true) 0 0
    (BitVec.ofNat 32 (2 ^ 30 + 1)) 0
    { maps := fun _ => ⟨0, 0, 0, none⟩, cells := fun _ _ => none, ids := fun _ => 0 } rfl
    (by decide) rfl
  have count : (BitVec.ofNat 32 (2 ^ 30 + 1)).toNat = 2 ^ 30 + 1 := by decide
  have overruns : createLoop (fun _ => true) 0 1 0 (2 ^ 30 + 1) 0 h = none :=
    createLoop_overruns hfill (Nat.zero_le _) (by decide) fun _ _ _ => rfl
  rw [hrun, count, overruns] at hcreate
  exact Option.some_ne_none _ hcreate.symm

end Unics
