import Unics.Lib.Stretch
import Unics.Laws.Vmm.Counts

/-!
# What the figures of the page table count

`vmm_stats` steps over the table by the counts of the blocks and books every page of a block under
the state of its first page. A reservation changes the state of single pages and leaves the counts
alone, so a block that it cuts is booked as a whole under the wrong state. The figures are true
counts exactly when what is booked too much and too little is the same (`VmmBalanced`); where no
reservation cuts a block, there is nothing of either.
-/

namespace Unics

open Unics.Lib

/-- One of the three figures. -/
def VmmCounts.get (c : VmmCounts) : VmmPageState → SizeT
  | .used => c.used
  | .free => c.free
  | .reserved => c.reserved

/-- The pages of the table that are in a state. -/
def vmmPagesIn (table : VmmPageTable) (state : VmmPageState) : Nat :=
  ∑ k ∈ Finset.range vmmMaxPages, if (table k).state = state then 1 else 0

/-- The figures are what they say: 4 KB for each page in the state, and all of the memory together.
-/
structure VmmFiguresTrue (s : Vmm) (c : VmmCounts) : Prop where
  each : ∀ state, (c.get state).toNat = 4 * vmmPagesIn s.pageTable state
  total : c.used.toNat + c.free.toNat + c.reserved.toNat = vmmGetTotalMemory.toNat / 1024

/-- `vmm_stats` comes to an end with true figures. -/
def VmmStatsTrue (s : Vmm) : Prop := ∃ c, vmmStats s = some c ∧ VmmFiguresTrue s c

/-- The pages in a state that belong to the block of a page. -/
def vmmBlockPages (table : VmmPageTable) (k : Nat) (state : VmmPageState) : Nat :=
  ∑ j ∈ Finset.Ico k (k + (table k).count), if (table j).state = state then 1 else 0

/-- The pages in one state that belong to blocks whose first page is in another. -/
def vmmMisfiled (table : VmmPageTable) (first state : VmmPageState) : Nat :=
  ∑ k ∈ Finset.range vmmMaxPages,
    if (table k).state = first then vmmBlockPages table k state else 0

/-- As many reserved pages belong to used blocks as used pages to reserved ones. -/
def VmmBalanced (table : VmmPageTable) : Prop :=
  vmmMisfiled table .used .reserved = vmmMisfiled table .reserved .used

/-! ## The loop -/

/-- How far the loop goes on from a page. -/
def vmmStride (table : VmmPageTable) (k : Nat) : Nat :=
  if 0 < (table k).count then (table k).count else 1

/-- What the loop adds to the counter of a state at a page. -/
def vmmFiled (table : VmmPageTable) (state : VmmPageState) (k : Nat) : Nat :=
  if (table k).state = state then vmmStride table k else 0

/-- What the loop has in the counter of a state at its end. -/
def vmmFiledTotal (table : VmmPageTable) (state : VmmPageState) : Nat :=
  ((strides (vmmStride table) vmmMaxPages (vmmMaxPages + 1) 0).map (vmmFiled table state)).sum

section Loop

variable {table : VmmPageTable}

theorem VmmCounted.tiles (h : VmmCounted table) : Tiles (vmmStride table) vmmMaxPages where
  pos i _ := by
    rw [vmmStride]
    split
    · assumption
    · exact Nat.one_pos
  fits i hi := by
    rw [vmmStride]
    split
    · exact h.fits i hi
    · exact hi

theorem VmmCounts.get_add (c : VmmCounts) (state state' : VmmPageState) (n : SizeT) :
    (c.add state n).get state' = c.get state' + if state = state' then n else 0 := by
  cases state <;> cases state' <;> simp [VmmCounts.add, VmmCounts.get]

/-- The counters after the loop, for every table whose blocks fit. -/
theorem vmmStatsLoop_eq (h : VmmCounted table) {fuel i : Nat} (hi : i ≤ vmmMaxPages)
    (hfuel : vmmMaxPages < i + fuel) (c : VmmCounts) :
    ∃ c', vmmStatsLoop table fuel (BitVec.ofNat 32 i) c = some c' ∧ ∀ state, c'.get state =
      c.get state + BitVec.ofNat 32
        ((strides (vmmStride table) vmmMaxPages fuel i).map (vmmFiled table state)).sum := by
  induction fuel generalizing i c with
  | zero => omega
  | succ fuel ih =>
    have bound : vmmMaxPages = 1024 := rfl
    have index : (BitVec.ofNat 32 i).toNat = i := by
      rw [BitVec.toNat_ofNat, Nat.mod_eq_of_lt (by omega)]
    rw [vmmStatsLoop, strides, index]
    by_cases hlt : i < vmmMaxPages
    · rw [if_pos hlt, if_pos hlt]
      have fits := h.tiles.fits i hlt
      have pos := h.tiles.pos i hlt
      -- both branches of the loop body add the stride and go on by it
      have turn : vmmStatsLoop table (fuel + 1) (BitVec.ofNat 32 i) c =
          vmmStatsLoop table fuel (BitVec.ofNat 32 (i + vmmStride table i))
            (c.add (table i).state (BitVec.ofNat 32 (vmmStride table i))) := by
        rw [vmmStatsLoop, index, if_pos hlt, BitVec.ofNat_add]
        by_cases hcount : 0 < (table i).count
        · have stride : BitVec.ofNat 32 (vmmStride table i) = (table i).allocPages := by
            rw [vmmStride, if_pos hcount, VmmPage.count, BitVec.ofNat_toNat, BitVec.setWidth_eq]
          rw [stride]
          exact if_pos (VmmPage.count_pos.mpr hcount)
        · have stride : vmmStride table i = 1 := if_neg hcount
          rw [stride]
          exact if_neg fun hpos => hcount (VmmPage.count_pos.mp hpos)
      rw [vmmStatsLoop, index, if_pos hlt] at turn
      obtain ⟨c', loop, figures⟩ := ih fits (by omega)
        (c.add (table i).state (BitVec.ofNat 32 (vmmStride table i)))
      refine ⟨c', turn.trans loop, fun state => ?_⟩
      rw [figures, VmmCounts.get_add, List.map_cons, List.sum_cons, BitVec.ofNat_add,
        BitVec.add_assoc, vmmFiled]
      split
      · rfl
      · rfl
    · rw [if_neg hlt, if_neg hlt]
      exact ⟨c, rfl, fun state => (BitVec.add_zero _).symm⟩

/-- What all counters have together. -/
theorem VmmCounted.filed_total (h : VmmCounted table) :
    vmmFiledTotal table .used + vmmFiledTotal table .free + vmmFiledTotal table .reserved =
      vmmMaxPages := by
  have all : ((strides (vmmStride table) vmmMaxPages (vmmMaxPages + 1) 0).map
      (vmmStride table)).sum + ∑ j ∈ Finset.Ico 0 vmmMaxPages, 0 =
        ∑ j ∈ Finset.Ico 0 vmmMaxPages, 1 :=
    sum_strides h.tiles (fun k _ => by simp) (Nat.zero_le _) (by omega)
  have each (k : Nat) : vmmFiled table .used k + vmmFiled table .free k +
      vmmFiled table .reserved k = vmmStride table k := by
    unfold vmmFiled
    cases (table k).state <;> simp
  unfold vmmFiledTotal
  rw [← List.sum_map_add, ← List.sum_map_add, List.map_congr_left fun k _ => each k]
  simpa using all

end Loop

/-! ## What is booked, and what should be -/

section Booked

variable {table : VmmPageTable}

/-- What only the first page of a block has, a stride has once. -/
theorem VmmCounted.sum_first (h : VmmCounted table) {k : Nat} (hk : k < vmmMaxPages) {w : Nat → Nat}
    (hw : ∀ j, (table j).count = 0 → w j = 0) :
    ∑ j ∈ Finset.Ico k (k + vmmStride table k), w j = w k := by
  have pos := h.tiles.pos k hk
  refine Finset.sum_eq_single_of_mem k (Finset.mem_Ico.mpr ⟨Nat.le_refl k, by omega⟩) ?_
  intro j hj hne
  obtain ⟨hkj, hlt⟩ := Finset.mem_Ico.mp hj
  rw [vmmStride] at hlt
  split at hlt
  · exact hw j (h.inside k hk j (by omega) hlt)
  · omega

theorem vmmBlockPages_of_count {k : Nat} (h : (table k).count = 0) (state : VmmPageState) :
    vmmBlockPages table k state = 0 := by
  rw [vmmBlockPages, h, Nat.add_zero, Finset.Ico_self, Finset.sum_empty]

/-- Each page of a block is in one of the two other states. -/
theorem VmmCounted.blockPages_add (h : VmmCounted table) {k : Nat} (hk : k < vmmMaxPages) :
    vmmBlockPages table k .used + vmmBlockPages table k .reserved = (table k).count := by
  unfold vmmBlockPages
  rw [← Finset.sum_add_distrib]
  have one : ∀ j ∈ Finset.Ico k (k + (table k).count),
      (if (table j).state = .used then 1 else 0) + (if (table j).state = .reserved then 1 else 0) =
        1 := by
    intro j hj
    obtain ⟨hkj, hlt⟩ := Finset.mem_Ico.mp hj
    have taken := h.taken k hk j hkj hlt
    cases hstate : (table j).state with
    | free => exact absurd hstate taken
    | used => rfl
    | reserved => rfl
  rw [Finset.sum_congr rfl one, Finset.sum_const, Nat.card_Ico, Nat.add_sub_cancel_left]
  exact Nat.mul_one _

/-- The pages of a stride that are in a state. -/
theorem vmmStride_pages (k : Nat) (state : VmmPageState) :
    ∑ j ∈ Finset.Ico k (k + vmmStride table k), (if (table j).state = state then 1 else 0) =
      if 0 < (table k).count then vmmBlockPages table k state
      else if (table k).state = state then 1 else 0 := by
  rw [vmmStride]
  split
  · rfl
  · rw [Nat.Ico_succ_singleton, Finset.sum_singleton]

/-- What a stride books for a state, and what it should. -/
theorem VmmCounted.filed_stride (h : VmmCounted table) {state other : VmmPageState}
    (hne : state ≠ other) (hstates : ∀ x, x = state ∨ x = other ∨ x = .free)
    (hadd : ∀ k < vmmMaxPages,
      vmmBlockPages table k state + vmmBlockPages table k other = (table k).count)
    {k : Nat} (hk : k < vmmMaxPages) :
    vmmFiled table state k +
        (if (table k).state = other then vmmBlockPages table k state else 0) =
      (if 0 < (table k).count then vmmBlockPages table k state
        else if (table k).state = state then 1 else 0) +
        if (table k).state = state then vmmBlockPages table k other else 0 := by
  rw [vmmFiled, vmmStride]
  by_cases hcount : 0 < (table k).count
  · rw [if_pos hcount, if_pos hcount]
    have add := hadd k hk
    rcases hstates (table k).state with hs | hs | hs
    · rw [if_pos hs, if_pos hs, if_neg fun ho => hne (hs.symm.trans ho)]
      omega
    · have hns : (table k).state ≠ state := fun h => hne (h.symm.trans hs)
      rw [if_neg hns, if_neg hns, if_pos hs]
      omega
    · exact absurd hs (h.taken k hk k (Nat.le_refl k) (by omega))
  · have none (x : VmmPageState) : vmmBlockPages table k x = 0 :=
      vmmBlockPages_of_count (Nat.eq_zero_of_not_pos hcount) x
    rw [if_neg hcount, if_neg hcount, none, none, ite_self, ite_self]

/-- What is booked as used or as reserved: the pages in the state and those that wear the state of
their block, less those that wear another. -/
theorem VmmCounted.filed_misfiled (h : VmmCounted table) {state other : VmmPageState}
    (hne : state ≠ other) (hstates : ∀ x, x = state ∨ x = other ∨ x = .free)
    (hadd : ∀ k < vmmMaxPages,
      vmmBlockPages table k state + vmmBlockPages table k other = (table k).count) :
    vmmFiledTotal table state + vmmMisfiled table other state =
      vmmPagesIn table state + vmmMisfiled table state other := by
  let misfiled (x y : VmmPageState) (k : Nat) : Nat :=
    if (table k).state = x then vmmBlockPages table k y else 0
  have once (x y : VmmPageState) {k : Nat} (hk : k < vmmMaxPages) :
      ∑ j ∈ Finset.Ico k (k + vmmStride table k), misfiled x y j = misfiled x y k := by
    refine h.sum_first hk fun j hj => ?_
    show (if _ then vmmBlockPages table j y else 0) = 0
    rw [vmmBlockPages_of_count hj, ite_self]
  have walk : vmmFiledTotal table state + ∑ j ∈ Finset.Ico 0 vmmMaxPages, misfiled other state j =
      ∑ j ∈ Finset.Ico 0 vmmMaxPages,
        ((if (table j).state = state then 1 else 0) + misfiled state other j) := by
    refine sum_strides h.tiles (fun k hk => ?_) (Nat.zero_le _) (by omega)
    rw [Finset.sum_add_distrib, once _ _ hk, once _ _ hk, vmmStride_pages]
    exact h.filed_stride hne hstates hadd hk
  rw [Finset.sum_add_distrib, Nat.Ico_zero_eq_range] at walk
  exact walk

theorem VmmCounted.filed_used (h : VmmCounted table) :
    vmmFiledTotal table .used + vmmMisfiled table .reserved .used =
      vmmPagesIn table .used + vmmMisfiled table .used .reserved := by
  refine h.filed_misfiled VmmPageState.noConfusion (fun x => ?_) fun k hk => h.blockPages_add hk
  cases x <;> simp

theorem VmmCounted.filed_reserved (h : VmmCounted table) :
    vmmFiledTotal table .reserved + vmmMisfiled table .used .reserved =
      vmmPagesIn table .reserved + vmmMisfiled table .reserved .used := by
  refine h.filed_misfiled VmmPageState.noConfusion (fun x => ?_) fun k hk => ?_
  · cases x <;> simp
  · rw [Nat.add_comm]
    exact h.blockPages_add hk

/-- The three counts of pages are all pages. -/
theorem vmmPagesIn_total (table : VmmPageTable) :
    vmmPagesIn table .used + vmmPagesIn table .free + vmmPagesIn table .reserved =
      vmmMaxPages := by
  unfold vmmPagesIn
  rw [← Finset.sum_add_distrib, ← Finset.sum_add_distrib]
  have one : ∀ k ∈ Finset.range vmmMaxPages, (if (table k).state = .used then 1 else 0) +
      (if (table k).state = .free then 1 else 0) +
        (if (table k).state = .reserved then 1 else 0) = 1 := by
    intro k _
    cases (table k).state <;> rfl
  rw [Finset.sum_congr rfl one, Finset.sum_const, Finset.card_range]
  rfl

/-- The free pages are booked as they are: none of them is in a block. -/
theorem VmmCounted.filed_free (h : VmmCounted table) :
    vmmFiledTotal table .free = vmmPagesIn table .free := by
  have used := h.filed_used
  have reserved := h.filed_reserved
  have booked := h.filed_total
  have pages := vmmPagesIn_total table
  omega

end Booked

/-! ## The call -/

/-- The figures of a table whose counts say what they should. -/
theorem VmmCounted.stats_eq {s : Vmm} (h : VmmCounted s.pageTable) :
    ∃ c, vmmStats s = some c ∧
      ∀ state, (c.get state).toNat = 4 * vmmFiledTotal s.pageTable state := by
  obtain ⟨c, loop, figures⟩ := vmmStatsLoop_eq h (Nat.zero_le vmmMaxPages)
    (Nat.lt_of_lt_of_eq (Nat.lt_succ_self _) (Nat.zero_add _).symm)
    { used := 0, free := 0, reserved := 0 }
  refine ⟨{ used := vmmKb c.used, free := vmmKb c.free, reserved := vmmKb c.reserved }, ?_, ?_⟩
  · show Option.map _ (vmmStatsLoop s.pageTable (vmmMaxPages + 1) (BitVec.ofNat 32 0) _) = _
    rw [loop]
    rfl
  intro state
  have total := h.filed_total
  have bound : vmmFiledTotal s.pageTable state ≤ 1024 := by
    have max : vmmMaxPages = 1024 := rfl
    cases state <;> omega
  have pages : (c.get state).toNat = vmmFiledTotal s.pageTable state := by
    have start : VmmCounts.get { used := 0, free := 0, reserved := 0 } state = 0#32 := by
      cases state <;> rfl
    rw [figures, start, BitVec.zero_add, BitVec.toNat_ofNat]
    exact Nat.mod_eq_of_lt (Nat.lt_of_le_of_lt bound (by decide))
  have kb : (vmmKb (c.get state)).toNat = 4 * (c.get state).toNat := by
    rw [vmmKb, BitVec.toNat_udiv, BitVec.toNat_mul, show vmmPageSize.toNat = 4096 from rfl,
      show (1024 : SizeT).toNat = 1024 from rfl, pages]
    omega
  rw [← pages, ← kb]
  cases state <;> rfl

/-- The figures of `vmm_stats` are true counts exactly when the table is balanced. -/
theorem VmmCounted.statsTrue_iff {s : Vmm} (h : VmmCounted s.pageTable) :
    VmmStatsTrue s ↔ VmmBalanced s.pageTable := by
  obtain ⟨c, stats, figures⟩ := h.stats_eq
  have used := h.filed_used
  have reserved := h.filed_reserved
  have free := h.filed_free
  have total := h.filed_total
  have memory : vmmGetTotalMemory.toNat / 1024 = 4 * vmmMaxPages := rfl
  have figure_used : c.used.toNat = 4 * vmmFiledTotal s.pageTable .used := figures .used
  have figure_free : c.free.toNat = 4 * vmmFiledTotal s.pageTable .free := figures .free
  have figure_reserved : c.reserved.toNat = 4 * vmmFiledTotal s.pageTable .reserved :=
    figures .reserved
  unfold VmmBalanced
  constructor
  · rintro ⟨c', stats', true_⟩
    rw [stats] at stats'
    obtain rfl := Option.some.inj stats'
    have each : c.used.toNat = 4 * vmmPagesIn s.pageTable .used := true_.each .used
    omega
  · intro balanced
    refine ⟨c, stats, fun state => ?_, by omega⟩
    rw [figures]
    cases state <;> omega

/-! ## Runs that cut no block -/

/-- The pages of each block are in one state. -/
def VmmUniform (table : VmmPageTable) : Prop :=
  ∀ k < vmmMaxPages, ∀ j, k ≤ j → j < k + (table k).count → (table j).state = (table k).state

/-- `vmm_reserve_range` writes the page. -/
def VmmReserves (start stop : UIntPtr) (page : VmmPage) : Prop :=
  start &&& ~~~(vmmPageSize - 1) ≤ page.baseAddr ∧
    page.baseAddr < (stop + vmmPageSize - 1) &&& ~~~(vmmPageSize - 1)

/-- A reservation writes all pages of a block or none. -/
def VmmCutsNone (t : VmmRun) (c : VmmRunCall) : Prop :=
  ∀ s start stop, t.vmm = some s → c = .reserveRange start stop →
    ∀ k < vmmMaxPages, ∀ j, k ≤ j → j < k + (s.pageTable k).count →
      (VmmReserves start stop (s.pageTable j) ↔ VmmReserves start stop (s.pageTable k))

/-- Where each block is in one state, nothing is booked under a wrong one. -/
theorem VmmUniform.balanced {table : VmmPageTable} (h : VmmUniform table) : VmmBalanced table := by
  have none {first state : VmmPageState} (hne : first ≠ state) :
      vmmMisfiled table first state = 0 := by
    refine Finset.sum_eq_zero fun k hk => ?_
    split
    · next hfirst =>
      refine Finset.sum_eq_zero fun j hj => if_neg fun hstate => hne ?_
      obtain ⟨hkj, hlt⟩ := Finset.mem_Ico.mp hj
      rw [← hfirst, ← hstate]
      exact (h k (Finset.mem_range.mp hk) j hkj hlt).symm
    · rfl
  rw [VmmBalanced, none VmmPageState.noConfusion, none VmmPageState.noConfusion]

section Uniform

variable {s s' : Vmm} {size : SizeT} {tag : BitVec 32} {isKernel : Bool}

theorem VmmUniform.of_released {table : VmmPageTable} (h : ∀ k, (table k).release = table k) :
    VmmUniform table := by
  intro k _ j _ _
  rw [← h j, ← h k]
  rfl

/-- What a reservation does to a page of the table. -/
theorem vmmReserveRange_page {start stop : UIntPtr} (hres : vmmReserveRange s start stop = some s')
    {k : Nat} (hk : k < vmmMaxPages) :
    (s'.pageTable k).count = (s.pageTable k).count ∧
      (VmmReserves start stop (s.pageTable k) → (s'.pageTable k).state = .reserved) ∧
        (¬ VmmReserves start stop (s.pageTable k) → s'.pageTable k = s.pageTable k) := by
  unfold vmmReserveRange at hres
  split at hres
  · obtain rfl := Option.some.inj hres
    dsimp only
    split
    · next hin => exact ⟨rfl, fun _ => rfl, fun hout => absurd hin.2 hout⟩
    · next hout => exact ⟨rfl, fun hin => absurd ⟨hk, hin⟩ hout, fun _ => rfl⟩
  · cases hres

theorem VmmUniform.reserveRange (h : VmmUniform s.pageTable) (hcounted : VmmCounted s.pageTable)
    {start stop : UIntPtr} (hres : vmmReserveRange s start stop = some s')
    (hcut : ∀ k < vmmMaxPages, ∀ j, k ≤ j → j < k + (s.pageTable k).count →
      (VmmReserves start stop (s.pageTable j) ↔ VmmReserves start stop (s.pageTable k))) :
    VmmUniform s'.pageTable := by
  intro k hk j hkj hj
  obtain ⟨count, first_in, first_out⟩ := vmmReserveRange_page hres hk
  rw [count] at hj
  have fits := hcounted.fits k hk
  obtain ⟨-, page_in, page_out⟩ := vmmReserveRange_page hres (k := j) (by omega)
  have same := hcut k hk j hkj hj
  by_cases hin : VmmReserves start stop (s.pageTable k)
  · rw [first_in hin, page_in (same.mpr hin)]
  · rw [first_out hin, page_out (hin ∘ same.mp)]
    exact h k hk j hkj hj

theorem VmmUniform.setTag (h : VmmUniform s.pageTable) (addr : UIntPtr) (tag : BitVec 32) :
    VmmUniform (vmmSetTag s addr tag).pageTable := by
  unfold vmmSetTag
  split
  · exact h
  split
  · exact h
  split
  · next i _ _ =>
    have page (k : Nat) : (if k = i then { s.pageTable k with tag := tag }
        else s.pageTable k).state = (s.pageTable k).state ∧
      (if k = i then { s.pageTable k with tag := tag } else s.pageTable k).count =
        (s.pageTable k).count := by
      split
      · exact ⟨rfl, rfl⟩
      · exact ⟨rfl, rfl⟩
    intro k hk j hkj hj
    dsimp only at hj ⊢
    rw [(page k).2] at hj
    rw [(page j).1, (page k).1]
    exact h k hk j hkj hj
  · exact h

/-- A block that is marked is in one state, and no older one has a page of it. -/
theorem VmmUniform.markUsed {table : VmmPageTable} (h : VmmUniform table)
    (hcounted : VmmCounted table) {i : Nat} {pages : SizeT}
    (hfree : ∀ k, i ≤ k → k < i + pages.toNat → (table k).state = .free) :
    VmmUniform (vmmMarkUsed table i pages tag isKernel) := by
  intro k hk j hkj hj
  by_cases hin : i ≤ k ∧ k < i + pages.toNat
  · have block : i ≤ j ∧ j < i + pages.toNat := by
      rw [VmmPage.count, vmmMarkUsed_count hin] at hj
      split at hj
      · omega
      · omega
    rw [vmmMarkUsed_state block, vmmMarkUsed_state hin]
  · rw [vmmMarkUsed_out hin] at hj
    have out : ¬ (i ≤ j ∧ j < i + pages.toNat) := fun hj' =>
      hcounted.taken k hk j hkj hj (hfree j hj'.1 hj'.2)
    rw [vmmMarkUsed_out out, vmmMarkUsed_out hin]
    exact h k hk j hkj hj

/-- A block that is freed has no count any more, and no other has a page of it. -/
theorem VmmUniform.freed (h : VmmUniform s.pageTable) (hcounted : VmmCounted s.pageTable)
    (addr : UIntPtr) : VmmUniform (vmmFree s addr).pageTable := by
  have hend := vmmFree_end s addr
  generalize vmmFree s addr = s' at hend ⊢
  cases hend with
  | same => exact h
  | freed i m hfound _ _ hm table hpages =>
    unfold vmmFindPage at hfound
    have hi : i < vmmMaxPages := List.mem_range.mp (List.mem_of_find?_eq_some hfound)
    intro k hk j hkj hj
    show (table j).state = (table k).state
    have hj : j < k + (table k).count := hj
    rw [hpages k] at hj ⊢
    by_cases hin : i ≤ k ∧ k < i + m
    · rw [if_pos hin] at hj
      have none : (s.pageTable k).release.count = 0 := rfl
      omega
    · rw [if_neg hin] at hj ⊢
      rw [hpages j, if_neg (hcounted.apart hi hm hk hin hkj hj)]
      exact h k hk j hkj hj

theorem VmmUniform.allocated (h : VmmUniform s.pageTable) (hcounted : VmmCounted s.pageTable)
    {p : UIntPtr} (hend : VmmAllocEnd s size tag isKernel (some (s', p))) :
    VmmUniform s'.pageTable := by
  cases hend with
  | null => exact h
  | block i _ _ _ hfree => exact h.markUsed hcounted hfree

theorem VmmUniform.init (h : VmmUniform s.pageTable) : VmmUniform (vmmInit s).pageTable := by
  unfold vmmInit
  split
  · exact h
  · exact .of_released fun _ => rfl

end Uniform

/-- What a run keeps that cuts no block. -/
structure VmmUncut (t : VmmRun) : Prop where
  safe : VmmRunSafe t
  tables : t.Has fun s => VmmCounted s.pageTable ∧ VmmUniform s.pageTable

theorem vmmUncut_start : VmmUncut vmmRunStart where
  safe := vmmRunSafe_start
  tables := by
    rintro s hs
    obtain rfl := Option.some.inj hs
    exact ⟨.of_released fun _ => rfl, .of_released fun _ => rfl⟩

theorem VmmUncut.step {t : VmmRun} (h : VmmUncut t) {c : VmmRunCall} (hcut : VmmCutsNone t c) :
    VmmUncut (vmmRunStep t c) := by
  refine ⟨h.safe.step c, h.safe.has_step h.tables ?_ ?_ ?_ ?_ ?_⟩
  · rintro s ⟨counted, uniform⟩
    exact ⟨counted.init, uniform.init⟩
  · rintro s s' start stop hs hc ⟨counted, uniform⟩ hres
    exact ⟨counted.reserveRange hres,
      uniform.reserveRange counted hres (hcut s start stop hs hc)⟩
  · rintro s addr tag ⟨counted, uniform⟩
    exact ⟨counted.setTag addr tag, uniform.setTag addr tag⟩
  · rintro s s' p size tag isKernel ⟨counted, uniform⟩ hend
    exact ⟨counted.allocated hend, uniform.allocated counted hend⟩
  · rintro s addr ⟨counted, uniform⟩
    exact ⟨counted.freed addr, uniform.freed counted addr⟩

/-- In every state that a run of calls reaches, the figures of `vmm_stats` are true counts exactly
when the table is balanced; and a run whose reservations cut no block has true figures in every
state. -/
theorem vmmStats_true_iff (calls : List VmmRunCall) :
    (runFrom vmmRunStep vmmRunStart calls).Has
        (fun s => VmmStatsTrue s ↔ VmmBalanced s.pageTable) ∧
      (EveryStep vmmRunStep VmmCutsNone vmmRunStart calls →
        EveryState vmmRunStep (·.Has VmmStatsTrue) vmmRunStart calls) := by
  refine ⟨fun s hs => (vmmCounted_run calls hs).statsTrue_iff, fun hcut => ?_⟩
  refine EveryStep.everyState (I := VmmUncut) (fun t c h hc => h.step hc) (fun t h s hs => ?_)
    vmmUncut_start hcut
  obtain ⟨counted, uniform⟩ := h.tables s hs
  exact counted.statsTrue_iff.mpr uniform.balanced

/-- Two pages allocated and one of them freed again with the other. -/
theorem vmmStats_true_iff_freed :
    EveryState vmmRunStep (·.Has VmmStatsTrue) vmmRunStart
      [.init, .call (.alloc 0x2000), .call (.free 0x100000)] := by
  apply (vmmStats_true_iff [.init, .call (.alloc 0x2000), .call (.free 0x100000)]).2
  refine ⟨?_, ?_, ?_, trivial⟩
  · exact fun _ _ _ _ h => nomatch h
  · exact fun _ _ _ _ h => nomatch h
  · exact fun _ _ _ _ h => nomatch h

/-- A block of two pages whose second page is reserved is booked as two used pages. -/
theorem vmmStats_not_true :
    ¬ (runFrom vmmRunStep vmmRunStart
        [.init, .call (.alloc 0x2000), .reserveRange 0x101000 0x102000]).Has VmmStatsTrue := by
  intro hall
  have booked : (runFrom vmmRunStep vmmRunStart
      [.init, .call (.alloc 0x2000), .reserveRange 0x101000 0x102000]).vmm.map (fun s =>
        (vmmStats s, (s.pageTable 1).state)) =
      some (some { used := 8, free := 4088, reserved := 0 }, .reserved) := by
    decide +kernel
  obtain ⟨s, hs, held⟩ := Option.map_eq_some_iff.mp booked
  obtain ⟨stats, reserved⟩ := Prod.mk.inj held
  obtain ⟨c, stats', true_⟩ := hall s hs
  rw [stats] at stats'
  obtain rfl := Option.some.inj stats'
  have none : 0 = 4 * vmmPagesIn s.pageTable .reserved := true_.each .reserved
  have each := Finset.sum_eq_zero_iff.mp (show vmmPagesIn s.pageTable .reserved = 0 by omega) 1
    (Finset.mem_range.mpr (by decide))
  rw [if_pos reserved] at each
  cases each

end Unics
