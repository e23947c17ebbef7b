import Unics.Laws.Pmm.Ownership
import Unics.Laws.Vmm.FirstFit

/-!
# What the calls of the page table allocator do

Each call after `vmm_init`, with the pages that it hands out and takes back. A block is a first fit,
so all its pages lie above a limit exactly when it fits nowhere below: `VmmReady.law`.
-/

namespace Unics

open Unics.Lib

/-- A call of the driver's interface. -/
inductive VmmCall where
  | alloc (size : SizeT)
  | allocAligned (size align : SizeT)
  | allocTagged (size : SizeT) (tag : BitVec 32) (isKernel : Bool)
  | free (addr : UIntPtr)

/-- What the caller of a call sees: the state after it, unless an assertion stopped the machine, the
pages it was handed and the pages it gave back. -/
structure VmmEffect where
  after : Option Vmm
  handedOut : List UIntPtr
  givenBack : List UIntPtr

/-- An allocation hands out the pages of the block it returns, unless that is null. -/
def vmmAllocEffect (size : SizeT) : Option (Vmm × UIntPtr) → VmmEffect
  | some (s, p) =>
    { after := some s
      handedOut := if p = null then [] else pagesFrom p (vmmPagesNeeded size)
      givenBack := [] }
  | none => { after := none, handedOut := [], givenBack := [] }

/-- A free gives back the pages that it made free. -/
def vmmFreeEffect (s s' : Vmm) : VmmEffect :=
  { after := some s'
    handedOut := []
    givenBack := ((List.range vmmMaxPages).filter fun i =>
      (s.pageTable i).state == .used && (s'.pageTable i).state == .free).map
        fun i => (s.pageTable i).baseAddr }

/-- The effect of each call. -/
def VmmCall.effect (s : Vmm) : VmmCall → VmmEffect
  | .alloc size => vmmAllocEffect size (vmmAlloc s size)
  | .allocAligned size align => vmmAllocEffect size (vmmAllocAligned s size align)
  | .allocTagged size tag isKernel => vmmAllocEffect size (vmmAllocTagged s size tag isKernel)
  | .free addr => vmmFreeEffect s (vmmFree s addr)

/-- The block that an allocation asks for fits nowhere below the limit. -/
def FitsOnlyAbove (limit : UIntPtr) (table : VmmPageTable) (size align : SizeT) : Prop :=
  0 < (vmmPagesNeeded size).toNat → align.toNat.isPowerOfTwo →
    ∀ i, i + (vmmPagesNeeded size).toNat ≤ vmmMaxPages →
      VmmFits table (vmmPagesNeeded size).toNat align i → limit ≤ (table i).baseAddr

/-- The same, of any call. -/
def VmmCall.FitsOnlyAbove (limit : UIntPtr) (table : VmmPageTable) : VmmCall → Prop
  | .alloc size => Unics.FitsOnlyAbove limit table size vmmPageSize
  | .allocAligned size align => Unics.FitsOnlyAbove limit table size align
  | .allocTagged size _ _ => Unics.FitsOnlyAbove limit table size vmmPageSize
  | .free _ => True

/-- A page table that `vmm_init` has set up. -/
structure VmmReady (s : Vmm) : Prop where
  initialized : s.initialized = true
  paged : VmmPaged s.pageTable

/-- An alignment that reaches the limit keeps a block above it. -/
theorem FitsOnlyAbove.of_align {limit : UIntPtr} {table : VmmPageTable} {size align : SizeT}
    (h : VmmPaged table) (hle : limit ≤ align) : FitsOnlyAbove limit table size align := by
  intro hpos _ i hi hfits
  have base := h i (Nat.lt_of_lt_of_le (Nat.lt_add_of_pos_right hpos) hi)
  have reach : align.toNat ≤ (table i).baseAddr.toNat := Nat.le_of_dvd (by omega) hfits.1
  rw [BitVec.le_def] at hle ⊢
  exact Nat.le_trans hle reach

/-! ## Freeing keeps the addresses -/

/-- The loop of `vmm_free` frees the pages before the first one that is not in use, and leaves the
others as they are. -/
theorem vmmFreeLoop_spec (table : VmmPageTable) (k n : Nat) :
    ∃ m ≤ n, (0 < n → (table k).state = .used → 0 < m) ∧ ∀ i, vmmFreeLoop table k n i =
      if k ≤ i ∧ i < k + m then (table i).release else table i := by
  induction n generalizing table k with
  | zero =>
    exact ⟨0, Nat.le_refl 0, fun h => absurd h (by omega), fun i => (if_neg (by omega)).symm⟩
  | succ n ih =>
    rw [vmmFreeLoop]
    split
    · next hstop =>
      exact ⟨0, Nat.zero_le _, fun _ hused => absurd hused hstop, fun i => (if_neg (by omega)).symm⟩
    · obtain ⟨m, hm, _, hloop⟩ :=
        ih (fun i => if i = k then (table k).release else table i) (k + 1)
      refine ⟨m + 1, by omega, fun _ _ => by omega, fun i => ?_⟩
      rw [hloop]
      by_cases heq : i = k
      · rw [if_neg (by omega), if_pos heq, if_pos (by omega), heq]
      · by_cases hin : k + 1 ≤ i ∧ i < k + 1 + m
        · rw [if_pos hin, if_neg heq, if_pos (by omega)]
        · rw [if_neg hin, if_neg heq, if_neg (by omega)]

theorem vmmFreeLoop_baseAddr (table : VmmPageTable) (k n i : Nat) :
    (vmmFreeLoop table k n i).baseAddr = (table i).baseAddr := by
  obtain ⟨m, _, _, hloop⟩ := vmmFreeLoop_spec table k n
  rw [hloop]
  split
  · rfl
  · rfl

theorem VmmReady.free {s : Vmm} (h : VmmReady s) (addr : UIntPtr) : VmmReady (vmmFree s addr) := by
  unfold vmmFree
  split
  · exact h
  split
  · exact h
  split
  · exact h
  dsimp only
  split
  · exact h
  · refine ⟨h.initialized, fun i hi => ?_⟩
    show (vmmFreeLoop _ _ _ i).baseAddr.toNat = _
    rw [vmmFreeLoop_baseAddr]
    exact h.paged i hi

section MarkUsed

variable {table : VmmPageTable} {i k : Nat} {pages : SizeT} {tag : BitVec 32} {isKernel : Bool}

theorem vmmMarkUsed_out (hk : ¬ (i ≤ k ∧ k < i + pages.toNat)) :
    vmmMarkUsed table i pages tag isKernel k = table k :=
  if_neg hk

theorem vmmMarkUsed_state (hk : i ≤ k ∧ k < i + pages.toNat) :
    (vmmMarkUsed table i pages tag isKernel k).state = .used := by
  rw [vmmMarkUsed, if_pos hk]

/-- The first page carries the count of its block. -/
theorem vmmMarkUsed_allocPages (hk : i ≤ k ∧ k < i + pages.toNat) :
    (vmmMarkUsed table i pages tag isKernel k).allocPages = if k = i then pages else 0 := by
  rw [vmmMarkUsed, if_pos hk]

theorem vmmMarkUsed_count (hk : i ≤ k ∧ k < i + pages.toNat) :
    (vmmMarkUsed table i pages tag isKernel k).allocPages.toNat =
      if k = i then pages.toNat else 0 := by
  rw [vmmMarkUsed_allocPages hk]
  split
  · rfl
  · rfl

end MarkUsed

theorem VmmReady.markUsed {s : Vmm} (h : VmmReady s) (i : Nat) (pages : SizeT) (tag : BitVec 32)
    (isKernel : Bool) :
    VmmReady { s with pageTable := vmmMarkUsed s.pageTable i pages tag isKernel } := by
  refine ⟨h.initialized, fun k hk => ?_⟩
  show (vmmMarkUsed s.pageTable i pages tag isKernel k).baseAddr.toNat = _
  rw [vmmMarkUsed]
  split
  · exact h.paged k hk
  · exact h.paged k hk

/-! ## The law of the calls -/

/-- A call keeps the table's addresses, hands out pages of the table only, and hands out pages above
a limit only exactly when `fits` holds of the limit. -/
structure VmmLaw (e : VmmEffect) (fits : UIntPtr → Prop) : Prop where
  ready : ∀ s, e.after = some s → VmmReady s
  base : ∀ p ∈ e.handedOut, vmmBaseAddress ≤ p
  above_iff : ∀ limit, (∀ p ∈ e.handedOut, limit ≤ p) ↔ fits limit

section Law

variable {s : Vmm} {size align : SizeT}

/-- A call that hands out nothing. -/
theorem VmmLaw.of_nothing {e : VmmEffect} {fits : UIntPtr → Prop} (hnone : e.handedOut = [])
    (hready : ∀ s, e.after = some s → VmmReady s) (hfits : ∀ limit, fits limit) :
    VmmLaw e fits := by
  refine ⟨hready, fun p hp => ?_, fun limit => iff_of_true (fun p hp => ?_) (hfits limit)⟩
  · rw [hnone] at hp
    cases hp
  · rw [hnone] at hp
    cases hp

/-- A request that is not met. -/
theorem VmmReady.law_null (h : VmmReady s) {fits : UIntPtr → Prop} (hfits : ∀ limit, fits limit) :
    VmmLaw (vmmAllocEffect size (some (s, null))) fits := by
  refine .of_nothing rfl ?_ hfits
  rintro s' heq
  obtain rfl := Option.some.inj heq
  exact h

/-- The addresses of the pages of a block, as numbers. -/
theorem VmmPaged.mem_pagesFrom {table : VmmPageTable} (h : VmmPaged table) {i : Nat}
    {pages : SizeT} (hfit : i + pages.toNat ≤ vmmMaxPages) {p : UIntPtr}
    (hp : p ∈ pagesFrom (table i).baseAddr pages) :
    ∃ j < pages.toNat, p.toNat = (table i).baseAddr.toNat + 4096 * j := by
  obtain ⟨j, hj, rfl⟩ := Unics.mem_pagesFrom.mp hp
  refine ⟨j, hj, ?_⟩
  have le : i + pages.toNat ≤ 1024 := hfit
  have base := h i (show i < 1024 by omega)
  exact toNat_add_pages (by omega)

/-- The law of a block at the lowest place where it fits. -/
theorem VmmReady.law_block (h : VmmReady s) (halign : align.toNat.isPowerOfTwo)
    (hpos : 0 < (vmmPagesNeeded size).toNat) {i : Nat}
    (hleast : IsLeast (fitting (VmmFits s.pageTable (vmmPagesNeeded size).toNat align) 0
      (vmmMaxPages - (vmmPagesNeeded size).toNat)) i)
    (hpages : (vmmPagesNeeded size).toNat ≤ vmmMaxPages) (tag : BitVec 32) (isKernel : Bool) :
    VmmLaw
      (vmmAllocEffect size (some
        ({ s with
          pageTable := vmmMarkUsed s.pageTable i (vmmPagesNeeded size) tag isKernel },
          (s.pageTable i).baseAddr)))
      fun limit => FitsOnlyAbove limit s.pageTable size align := by
  obtain ⟨⟨_, hi, hfits⟩, hlow⟩ := hleast
  have hfit : i + (vmmPagesNeeded size).toNat ≤ vmmMaxPages := by omega
  have base := h.paged i (by omega)
  have ne : (s.pageTable i).baseAddr ≠ null := by
    intro heq
    rw [heq, toNat_null] at base
    omega
  have handed : ∀ {p}, p ∈ (if (s.pageTable i).baseAddr = null then []
      else pagesFrom (s.pageTable i).baseAddr (vmmPagesNeeded size)) ↔
      p ∈ pagesFrom (s.pageTable i).baseAddr (vmmPagesNeeded size) := by
    rw [if_neg ne]
  refine ⟨?_, fun p hp => ?_, fun limit => ⟨fun hout _ _ k hk hkfits => ?_, fun habove p hp => ?_⟩⟩
  · rintro s' heq
    obtain rfl := Option.some.inj heq
    exact h.markUsed i _ tag isKernel
  · obtain ⟨j, _, hj⟩ := h.paged.mem_pagesFrom hfit (handed.mp hp)
    rw [BitVec.le_def, toNat_vmmBaseAddress]
    omega
  · -- the block's own first page is above the limit, and no other place is lower
    have first : (s.pageTable i).baseAddr ∈
        pagesFrom (s.pageTable i).baseAddr (vmmPagesNeeded size) :=
      Unics.mem_pagesFrom.mpr ⟨0, hpos, by simp⟩
    have above := hout _ (handed.mpr first)
    have low : i ≤ k := hlow ⟨Nat.zero_le k, by omega, hkfits⟩
    rw [BitVec.le_def] at above ⊢
    rw [h.paged k (by omega)]
    omega
  · obtain ⟨j, _, hj⟩ := h.paged.mem_pagesFrom hfit (handed.mp hp)
    have above := habove hpos halign i hfit hfits
    rw [BitVec.le_def] at above ⊢
    omega

theorem VmmReady.law_sized (h : VmmReady s) (halign : align.toNat.isPowerOfTwo) (tag : BitVec 32)
    (isKernel : Bool) :
    VmmLaw (vmmAllocEffect size (vmmAllocSized s size align tag isKernel))
      fun limit => FitsOnlyAbove limit s.pageTable size align := by
  unfold vmmAllocSized
  split
  · next hsize =>
    subst hsize
    exact h.law_null fun _ hpos => absurd hpos (by decide)
  split
  · exact h.law_null fun _ _ _ i hi => absurd hi (by omega)
  next hpages =>
  by_cases hpos : 0 < (vmmPagesNeeded size).toNat
  · obtain ⟨place, hfirst, hres⟩ :=
      vmmAllocInternal_spec h.initialized h.paged halign hpos (Nat.le_of_not_lt hpages) tag isKernel
    rw [hres]
    cases place with
    | none =>
      refine h.law_null fun _ _ _ i hi hfits => ?_
      have mem : i ∈ fitting (VmmFits s.pageTable (vmmPagesNeeded size).toNat align) 0
          (vmmMaxPages - (vmmPagesNeeded size).toNat) := ⟨Nat.zero_le i, by omega, hfits⟩
      rw [hfirst] at mem
      exact absurd mem (Set.notMem_empty i)
    | some i => exact h.law_block halign hpos hfirst (Nat.le_of_not_lt hpages) tag isKernel
  · -- the rounded size has wrapped to no pages, and the assertion fails
    have stops : vmmAllocInternal s (vmmPagesNeeded size) align tag isKernel = none :=
      if_neg fun hc => hpos hc.2.1
    rw [stops]
    refine .of_nothing rfl ?_ fun _ hpos' => absurd hpos' hpos
    rintro s' heq
    cases heq

theorem VmmReady.law_aligned (h : VmmReady s) :
    VmmLaw (vmmAllocEffect size (vmmAllocAligned s size align))
      fun limit => FitsOnlyAbove limit s.pageTable size align := by
  unfold vmmAllocAligned
  split
  · next hsize =>
    subst hsize
    exact h.law_null fun _ hpos => absurd hpos (by decide)
  split
  · next hbad =>
    refine h.law_null fun _ _ hpow => ?_
    obtain ⟨hne, hmask⟩ := and_sub_one_eq_zero_iff.mpr hpow
    exact absurd hbad (not_or.mpr ⟨not_not_intro hmask, hne⟩)
  · next hgood =>
    rw [not_or, not_not] at hgood
    exact h.law_sized (and_sub_one_eq_zero_iff.mp hgood.symm) 0 false

end Law

/-- The law of every call, over a table that `vmm_init` has set up. -/
theorem VmmReady.law {s : Vmm} (h : VmmReady s) :
    ∀ c : VmmCall, VmmLaw (c.effect s) fun limit => c.FitsOnlyAbove limit s.pageTable
  | .alloc _ => h.law_sized ⟨12, rfl⟩ 0 false
  | .allocAligned _ _ => h.law_aligned
  | .allocTagged _ tag isKernel => h.law_sized ⟨12, rfl⟩ tag isKernel
  | .free addr => by
    refine .of_nothing rfl ?_ fun _ => trivial
    rintro s' heq
    obtain rfl := Option.some.inj heq
    exact h.free addr

end Unics
