import Mathlib.Data.List.Pairwise
import Unics.Lib.Run
import Unics.Laws.Vmm.Calls

/-!
# Blocks of the page table allocator are isolated

The extent of a block is stored in its first page only, in a count that `vmm_reserve_range` leaves
behind on the pages it overwrites and that `vmm_free` trusts. The law here is that no order of
reserving, freeing and allocating again lets one block reach another (`vmm_blocks_isolated`).

What carries it is `VmmHolds.owner`: a page in use that has a count is the first page of a block the
caller still has. A count that is left on a reserved page is never read again, because nothing makes
a reserved page used; and the pages that a free leaves behind, when it stops at a reserved one, have
no count.
-/

namespace Unics

open Unics.Lib

/-! ## Blocks -/

/-- A block as the caller knows it: the address it was given and the size it asked for. -/
structure VmmBlock where
  addr : UIntPtr
  size : SizeT
  deriving DecidableEq, Repr

/-- The address of a page of the table. -/
def vmmPageAddr (k : Nat) : Nat := 0x100000 + 4096 * k

/-- The block has bytes on the page. -/
def VmmBlock.Has (b : VmmBlock) (k : Nat) : Prop :=
  vmmPageAddr k < b.addr.toNat + b.size.toNat ∧ b.addr.toNat < vmmPageAddr k + 4096

/-- The address is in the first page of the block. -/
def VmmBlock.FirstPage (b : VmmBlock) (addr : UIntPtr) : Prop :=
  b.addr.toNat ≤ addr.toNat ∧ addr.toNat < b.addr.toNat + 4096

instance (b : VmmBlock) (addr : UIntPtr) : Decidable (b.FirstPage addr) :=
  inferInstanceAs (Decidable (_ ∧ _))

/-- No page has bytes of both blocks. -/
def VmmBlock.Apart (b b' : VmmBlock) : Prop := ∀ k, b.Has k → ¬ b'.Has k

instance : Std.Symm VmmBlock.Apart := ⟨fun _ _ h k hk' hk => h k hk hk'⟩

/-- The block has the pages from index `i` on, as many as its size needs. -/
def VmmBlock.At (b : VmmBlock) (i : Nat) : Prop :=
  b.addr.toNat = vmmPageAddr i ∧ 0 < (vmmPagesNeeded b.size).toNat

section Block

variable {b : VmmBlock} {i k : Nat} {addr : UIntPtr}

/-- A size that needs pages has not wrapped. -/
theorem toNat_vmmPagesNeeded {size : SizeT} (h : 0 < (vmmPagesNeeded size).toNat) :
    (vmmPagesNeeded size).toNat = (size.toNat + 4095) / 4096 := by
  have wide : (vmmPagesNeeded size).toNat = (size.toNat + 4095) % 2 ^ 32 / 4096 := by
    rw [vmmPagesNeeded, BitVec.toNat_udiv, show vmmPageSize.toNat = 4096 from rfl,
      show size + vmmPageSize - 1 = size + 4095#32 by unfold vmmPageSize; bv_omega,
      BitVec.toNat_add]
    rfl
  rw [wide] at h ⊢
  have := size.isLt
  omega

theorem VmmBlock.At.has_iff (h : b.At i) :
    b.Has k ↔ i ≤ k ∧ k < i + (vmmPagesNeeded b.size).toNat := by
  have count := toNat_vmmPagesNeeded h.2
  have pos := h.2
  unfold VmmBlock.Has
  rw [h.1, count]
  rw [count] at pos
  unfold vmmPageAddr
  omega

theorem VmmBlock.At.has_first (h : b.At i) : b.Has i := by
  have pos := h.2
  exact h.has_iff.mpr ⟨Nat.le_refl i, by omega⟩

end Block

/-! ## Runs -/

/-- A call of a run. -/
inductive VmmRunCall where
  | init
  | reserveRange (start stop : UIntPtr)
  | setTag (addr : UIntPtr) (tag : BitVec 32)
  | call (c : VmmCall)

/-- A run so far: the manager, unless an assertion has stopped the machine, and the blocks that were
returned and not yet passed to `vmm_free`. -/
structure VmmRun where
  vmm : Option Vmm
  live : List VmmBlock

/-- The start of every run. -/
def vmmRunStart : VmmRun := { vmm := some vmmStart, live := [] }

/-- An allocation's block is live, unless the address is null. -/
def VmmRun.allocated (t : VmmRun) (size : SizeT) : Option (Vmm × UIntPtr) → VmmRun
  | none => { t with vmm := none }
  | some (s, p) =>
    { vmm := some s
      live := if p = null then t.live else { addr := p, size := size } :: t.live }

/-- A free ends the blocks whose first page has the address, whether or not it frees a page. -/
def VmmRun.freed (t : VmmRun) (s : Vmm) (addr : UIntPtr) : VmmRun :=
  { vmm := some (vmmFree s addr)
    live := t.live.filter fun b => ¬ b.FirstPage addr }

/-- One call of a run. -/
def vmmRunStep (t : VmmRun) (c : VmmRunCall) : VmmRun :=
  match t.vmm with
  | none => t
  | some s =>
    match c with
    | .init => { t with vmm := some (vmmInit s) }
    | .reserveRange start stop => { t with vmm := vmmReserveRange s start stop }
    | .setTag addr tag => { t with vmm := some (vmmSetTag s addr tag) }
    | .call (.alloc size) => t.allocated size (vmmAlloc s size)
    | .call (.allocAligned size align) => t.allocated size (vmmAllocAligned s size align)
    | .call (.allocTagged size tag isKernel) =>
      t.allocated size (vmmAllocTagged s size tag isKernel)
    | .call (.free addr) => t.freed s addr

/-- Live blocks have no page in common, and none of their pages is free. -/
def VmmIsolated (t : VmmRun) : Prop :=
  t.live.Pairwise VmmBlock.Apart ∧
    ∀ s, t.vmm = some s → ∀ b ∈ t.live, ∀ k, b.Has k → (s.pageTable k).state ≠ .free

/-- A free with an address outside a block's first page changes no page of the block. -/
def VmmFreeSpares (t : VmmRun) (c : VmmRunCall) : Prop :=
  ∀ s addr, t.vmm = some s → c = .call (.free addr) → ∀ b ∈ t.live, ¬ b.FirstPage addr →
    ∀ k, b.Has k → (vmmFree s addr).pageTable k = s.pageTable k

/-! ## What a call does to the pages -/

/-- How an allocation ends: an assertion stops the machine, the answer is null, or a block of free
pages is marked. -/
inductive VmmAllocEnd (s : Vmm) (size : SizeT) (tag : BitVec 32) (isKernel : Bool) :
    Option (Vmm × UIntPtr) → Prop
  | stopped : VmmAllocEnd s size tag isKernel none
  | null : VmmAllocEnd s size tag isKernel (some (s, null))
  | block (i : Nat) (ready : VmmReady s) (pos : 0 < (vmmPagesNeeded size).toNat)
      (fit : i + (vmmPagesNeeded size).toNat ≤ vmmMaxPages)
      (free : ∀ k, i ≤ k → k < i + (vmmPagesNeeded size).toNat → (s.pageTable k).state = .free) :
      VmmAllocEnd s size tag isKernel
        (some ({ s with pageTable := vmmMarkUsed s.pageTable i (vmmPagesNeeded size) tag isKernel },
          (s.pageTable i).baseAddr))

section Calls

variable {s : Vmm} {size align : SizeT}

theorem vmmAllocSized_end (h : s.initialized = true → VmmReady s)
    (halign : align.toNat.isPowerOfTwo) (tag : BitVec 32) (isKernel : Bool) :
    VmmAllocEnd s size tag isKernel (vmmAllocSized s size align tag isKernel) := by
  unfold vmmAllocSized
  split
  · exact .null
  split
  · exact .null
  next hpages =>
  by_cases hrun : s.initialized = true ∧ 0 < (vmmPagesNeeded size).toNat
  · obtain ⟨hinit, hpos⟩ := hrun
    have ready := h hinit
    obtain ⟨place, hfirst, hres⟩ :=
      vmmAllocInternal_spec hinit ready.paged halign hpos (Nat.le_of_not_lt hpages) tag isKernel
    rw [hres]
    cases place with
    | none => exact .null
    | some i =>
      obtain ⟨⟨_, hi, _, hfree⟩, _⟩ := hfirst
      refine .block i ready hpos (by omega) fun k hik hk => ?_
      have free := hfree (k - i) (by omega)
      rw [Nat.add_sub_cancel' hik] at free
      exact free
  · have stops : vmmAllocInternal s (vmmPagesNeeded size) align tag isKernel = none :=
      if_neg fun hc => hrun ⟨hc.1, hc.2.1⟩
    rw [stops]
    exact .stopped

theorem vmmAllocAligned_end (h : s.initialized = true → VmmReady s) :
    VmmAllocEnd s size 0 false (vmmAllocAligned s size align) := by
  unfold vmmAllocAligned
  split
  · exact .null
  split
  · exact .null
  · next hgood =>
    rw [not_or, not_not] at hgood
    exact vmmAllocSized_end h (and_sub_one_eq_zero_iff.mp hgood.symm) 0 false

/-- How a free ends: nothing changes, or pages of the block that begins with the address's page are
freed, that page among the candidates only when it has a count. -/
inductive VmmFreeEnd (s : Vmm) (addr : UIntPtr) : Vmm → Prop
  | same : VmmFreeEnd s addr s
  | freed (i m : Nat) (found : vmmFindPage s.pageTable addr = some i)
      (used : (s.pageTable i).state = .used) (count : (s.pageTable i).allocPages ≠ 0)
      (le : m ≤ (s.pageTable i).allocPages.toNat) (table : VmmPageTable)
      (pages : ∀ k, table k =
        if i ≤ k ∧ k < i + m then (s.pageTable k).release else s.pageTable k) :
      VmmFreeEnd s addr { s with pageTable := table }

theorem vmmFree_end (s : Vmm) (addr : UIntPtr) : VmmFreeEnd s addr (vmmFree s addr) := by
  unfold vmmFree
  split
  · exact .same
  split
  · exact .same
  next i hfound =>
  split
  · exact .same
  next hused =>
  dsimp only
  split
  · exact .same
  next hcount =>
  obtain ⟨m, hm, _, hloop⟩ :=
    vmmFreeLoop_spec s.pageTable i (s.pageTable i).allocPages.toNat
  have count : (s.pageTable i).allocPages ≠ 0 := by
    intro hzero
    rw [hzero] at hcount
    exact hcount (.inl rfl)
  exact .freed i m hfound (not_not.mp hused) count hm _ hloop

/-- The page that `vmm_free` finds is the one with the address. -/
theorem vmmFindPage_some {table : VmmPageTable} (hpaged : VmmPaged table)
    (hsize : ∀ k < vmmMaxPages, (table k).size = vmmPageSize) {addr : UIntPtr} {i : Nat}
    (h : vmmFindPage table addr = some i) :
    i < vmmMaxPages ∧ vmmPageAddr i ≤ addr.toNat ∧ addr.toNat < vmmPageAddr i + 4096 := by
  unfold vmmFindPage at h
  have lt : i < vmmMaxPages := List.mem_range.mp (List.mem_of_find?_eq_some h)
  have small : i < 1024 := lt
  have here := List.find?_some h
  rw [Bool.and_eq_true, decide_eq_true_eq, decide_eq_true_eq, hsize i lt, BitVec.le_def,
    BitVec.lt_def, BitVec.toNat_add, hpaged i lt, show vmmPageSize.toNat = 4096 from rfl] at here
  unfold vmmPageAddr
  exact ⟨lt, here.1, by omega⟩

end Calls

/-! ## The invariant -/

/-- What the table says of the live blocks. -/
structure VmmHolds (s : Vmm) (live : List VmmBlock) : Prop where
  ready : VmmReady s
  size : ∀ k < vmmMaxPages, (s.pageTable k).size = vmmPageSize
  /-- The first page of a block has its count. -/
  first : ∀ b ∈ live, ∃ i, b.At i ∧ i + (vmmPagesNeeded b.size).toNat ≤ vmmMaxPages ∧
    (s.pageTable i).allocPages = vmmPagesNeeded b.size
  taken : ∀ b ∈ live, ∀ k, b.Has k → (s.pageTable k).state ≠ .free
  apart : live.Pairwise VmmBlock.Apart
  /-- A page in use that has a count is the first of a block. -/
  owner : ∀ k < vmmMaxPages, (s.pageTable k).state = .used → (s.pageTable k).allocPages ≠ 0 →
    ∃ b ∈ live, b.At k

section Step

variable {s s' : Vmm} {live : List VmmBlock} {size : SizeT} {addr : UIntPtr}

/-- What reserves or tags pages: the counts stay, and a page keeps its state or becomes reserved. -/
theorem VmmHolds.frame (h : VmmHolds s live) (hinit : s'.initialized = s.initialized)
    (hbase : ∀ k, (s'.pageTable k).baseAddr = (s.pageTable k).baseAddr)
    (hsize : ∀ k, (s'.pageTable k).size = (s.pageTable k).size)
    (hcount : ∀ k, (s'.pageTable k).allocPages = (s.pageTable k).allocPages)
    (hstate : ∀ k, (s'.pageTable k).state = (s.pageTable k).state ∨
      (s'.pageTable k).state = .reserved) : VmmHolds s' live where
  ready := ⟨hinit.trans h.ready.initialized, fun k hk => (hbase k).symm ▸ h.ready.paged k hk⟩
  size k hk := (hsize k).trans (h.size k hk)
  first b hb := by
    obtain ⟨i, hat, hfit, hpages⟩ := h.first b hb
    exact ⟨i, hat, hfit, (hcount i).trans hpages⟩
  taken b hb k hk := by
    rcases hstate k with same | reserved
    · rw [same]
      exact h.taken b hb k hk
    · rw [reserved]
      exact VmmPageState.noConfusion
  apart := h.apart
  owner k hk hused hne := by
    rcases hstate k with same | reserved
    · exact h.owner k hk (same ▸ hused) (hcount k ▸ hne)
    · rw [reserved] at hused
      cases hused

theorem VmmHolds.reserveRange (h : VmmHolds s live) {start stop : UIntPtr}
    (hres : vmmReserveRange s start stop = some s') : VmmHolds s' live := by
  rw [vmmReserveRange, if_pos h.ready.initialized] at hres
  obtain rfl := Option.some.inj hres
  refine h.frame rfl (fun k => ?_) (fun k => ?_) (fun k => ?_) (fun k => ?_)
  · dsimp only
    split <;> rfl
  · dsimp only
    split <;> rfl
  · dsimp only
    split <;> rfl
  · dsimp only
    split
    · exact .inr rfl
    · exact .inl rfl

theorem VmmHolds.setTag (h : VmmHolds s live) (addr : UIntPtr) (tag : BitVec 32) :
    VmmHolds (vmmSetTag s addr tag) live := by
  unfold vmmSetTag
  split
  · exact h
  split
  · exact h
  split
  · refine h.frame rfl (fun k => ?_) (fun k => ?_) (fun k => ?_) (fun k => .inl ?_)
    all_goals
      dsimp only
      split <;> rfl
  · exact h

/-- A live block is the only one on its pages. -/
theorem VmmHolds.unique (h : VmmHolds s live) {b b' : VmmBlock} (hb : b ∈ live) (hb' : b' ∈ live)
    {k : Nat} (hk : b.Has k) (hk' : b'.Has k) : b = b' := by
  by_contra hne
  exact h.apart.forall hb hb' hne k hk hk'

/-- A page of the table with a live block on it. -/
theorem VmmHolds.lt (h : VmmHolds s live) {b : VmmBlock} (hb : b ∈ live) {k : Nat} (hk : b.Has k) :
    k < vmmMaxPages := by
  obtain ⟨i, hat, hfit, _⟩ := h.first b hb
  have := (hat.has_iff.mp hk).2
  omega

/-- A block that was marked is live with the others. -/
theorem VmmHolds.markUsed (h : VmmHolds s live) {i : Nat} (hpos : 0 < (vmmPagesNeeded size).toNat)
    (hfit : i + (vmmPagesNeeded size).toNat ≤ vmmMaxPages)
    (hfree : ∀ k, i ≤ k → k < i + (vmmPagesNeeded size).toNat → (s.pageTable k).state = .free)
    (tag : BitVec 32) (isKernel : Bool) :
    VmmHolds { s with pageTable := vmmMarkUsed s.pageTable i (vmmPagesNeeded size) tag isKernel }
      ({ addr := (s.pageTable i).baseAddr, size := size } :: live) := by
  have new : VmmBlock.At { addr := (s.pageTable i).baseAddr, size := size } i :=
    ⟨h.ready.paged i (by omega), hpos⟩
  -- a live block has no page among those that were free
  have old : ∀ b ∈ live, ∀ k, b.Has k → ¬ (i ≤ k ∧ k < i + (vmmPagesNeeded size).toNat) :=
    fun b hb k hk hin => h.taken b hb k hk (hfree k hin.1 hin.2)
  refine ⟨h.ready.markUsed i _ tag isKernel, fun k hk => ?_, fun b hb => ?_, fun b hb k hk => ?_,
    .cons (fun b hb k hnew hold => old b hb k hold (new.has_iff.mp hnew)) h.apart,
    fun k hk hused hne => ?_⟩
  · show (vmmMarkUsed s.pageTable i _ tag isKernel k).size = _
    rw [vmmMarkUsed]
    split <;> exact h.size k hk
  · rcases List.mem_cons.mp hb with rfl | hb
    · refine ⟨i, new, hfit, ?_⟩
      exact (vmmMarkUsed_allocPages ⟨Nat.le_refl i, by omega⟩).trans (if_pos rfl)
    · obtain ⟨j, hat, hfitj, hpages⟩ := h.first b hb
      refine ⟨j, hat, hfitj, ?_⟩
      show (vmmMarkUsed s.pageTable i _ tag isKernel j).allocPages = _
      rw [vmmMarkUsed_out (old b hb j hat.has_first)]
      exact hpages
  · show (vmmMarkUsed s.pageTable i _ tag isKernel k).state ≠ _
    rcases List.mem_cons.mp hb with rfl | hb
    · rw [vmmMarkUsed_state (new.has_iff.mp hk)]
      exact VmmPageState.noConfusion
    · rw [vmmMarkUsed_out (old b hb k hk)]
      exact h.taken b hb k hk
  · have hused : (vmmMarkUsed s.pageTable i _ tag isKernel k).state = .used := hused
    have hne : (vmmMarkUsed s.pageTable i _ tag isKernel k).allocPages ≠ 0 := hne
    by_cases hin : i ≤ k ∧ k < i + (vmmPagesNeeded size).toNat
    · rw [vmmMarkUsed_allocPages hin] at hne
      have first : k = i := by
        by_contra hki
        exact hne (if_neg hki)
      exact ⟨_, List.mem_cons_self, first ▸ new⟩
    · rw [vmmMarkUsed_out hin] at hused hne
      obtain ⟨b, hb, hat⟩ := h.owner k hk hused hne
      exact ⟨b, List.mem_cons_of_mem _ hb, hat⟩

/-- The blocks of the run after an allocation. -/
theorem VmmHolds.allocated (h : VmmHolds s live) {tag : BitVec 32} {isKernel : Bool}
    {res : Option (Vmm × UIntPtr)} (hend : VmmAllocEnd s size tag isKernel res) {t : VmmRun}
    (hlive : t.live = live) (hs' : (t.allocated size res).vmm = some s') :
    VmmHolds s' (t.allocated size res).live := by
  subst hlive
  cases hend with
  | stopped => cases hs'
  | null =>
    obtain rfl := Option.some.inj hs'
    exact h
  | block i _ hpos hfit hfree =>
    obtain rfl := Option.some.inj hs'
    have ne : (s.pageTable i).baseAddr ≠ null := by
      intro heq
      have base := h.ready.paged i (by omega)
      rw [heq, toNat_null] at base
      omega
    show VmmHolds _ (if _ then _ else _)
    rw [if_neg ne]
    exact h.markUsed hpos hfit hfree tag isKernel

/-- The pages that a free writes are those of the one live block that begins with the address's
page. -/
theorem VmmHolds.free_block (h : VmmHolds s live) {i m : Nat}
    (hfound : vmmFindPage s.pageTable addr = some i) (hused : (s.pageTable i).state = .used)
    (hcount : (s.pageTable i).allocPages ≠ 0) (hm : m ≤ (s.pageTable i).allocPages.toNat) :
    ∃ b ∈ live, b.At i ∧ b.FirstPage addr ∧ ∀ k, i ≤ k → k < i + m → b.Has k := by
  obtain ⟨hi, hlow, hhigh⟩ := vmmFindPage_some h.ready.paged h.size hfound
  obtain ⟨b, hb, hat⟩ := h.owner i hi hused hcount
  obtain ⟨j, hatj, _, hpages⟩ := h.first b hb
  have same : j = i := by
    have eq := hatj.1.symm.trans hat.1
    unfold vmmPageAddr at eq
    omega
  subst same
  rw [hpages] at hm
  refine ⟨b, hb, hat, ?_, fun k hjk hk => hat.has_iff.mpr ⟨hjk, by omega⟩⟩
  unfold VmmBlock.FirstPage
  rw [hat.1]
  exact ⟨hlow, hhigh⟩

/-- A free leaves every live block alone whose first page does not have the address. -/
theorem VmmHolds.free_spares (h : VmmHolds s live) {b : VmmBlock} (hb : b ∈ live)
    (hout : ¬ b.FirstPage addr) {k : Nat} (hk : b.Has k) :
    (vmmFree s addr).pageTable k = s.pageTable k := by
  have hend := vmmFree_end s addr
  generalize vmmFree s addr = s' at hend ⊢
  cases hend with
  | same => rfl
  | freed i m hfound hused hcount hm table hpages =>
    obtain ⟨b', hb', _, hfirst, hhas⟩ := h.free_block hfound hused hcount hm
    show table k = _
    rw [hpages, if_neg]
    rintro ⟨hik, hkm⟩
    obtain rfl := h.unique hb hb' hk (hhas k hik hkm)
    exact hout hfirst

/-- A free with an address in a live block's first page frees that page, if it is still in use. -/
theorem VmmHolds.free_first (h : VmmHolds s live) {b : VmmBlock} (hb : b ∈ live)
    (hfirst : b.FirstPage addr) {k : Nat} (hat : b.At k) (hused : (s.pageTable k).state = .used) :
    ((vmmFree s addr).pageTable k).state = .free := by
  obtain ⟨j, hatj, hfit, hpages⟩ := h.first b hb
  have same : j = k := by
    have eq := hatj.1.symm.trans hat.1
    unfold vmmPageAddr at eq
    omega
  subst same
  have lt : j < vmmMaxPages := h.lt hb hat.has_first
  have base := h.ready.paged j lt
  unfold VmmBlock.FirstPage at hfirst
  rw [hat.1, vmmPageAddr] at hfirst
  have found : vmmFindPage s.pageTable addr = some j := by
    cases hfind : vmmFindPage s.pageTable addr with
    | none =>
      unfold vmmFindPage at hfind
      have small : j < 1024 := lt
      have miss := List.find?_eq_none.mp hfind j (List.mem_range.mpr lt)
      rw [Bool.and_eq_true, decide_eq_true_eq, decide_eq_true_eq, h.size j lt, BitVec.le_def,
        BitVec.lt_def, BitVec.toNat_add, base, show vmmPageSize.toNat = 4096 from rfl] at miss
      omega
    | some i =>
      obtain ⟨_, hlow, hhigh⟩ := vmmFindPage_some h.ready.paged h.size hfind
      unfold vmmPageAddr at hlow hhigh
      rw [show i = j by omega]
  have pos : 0 < (s.pageTable j).allocPages.toNat := hpages ▸ hat.2
  have nonnull : ¬ (addr = null ∨ s.initialized = false) := by
    rintro (hnull | hinit)
    · rw [hnull, toNat_null] at hfirst
      omega
    · rw [h.ready.initialized] at hinit
      cases hinit
  obtain ⟨m, _, hm, hloop⟩ := vmmFreeLoop_spec s.pageTable j (s.pageTable j).allocPages.toNat
  have hm := hm pos hused
  rw [vmmFree, if_neg nonnull, found]
  dsimp only
  rw [if_neg (not_not.mpr hused), if_neg (by rw [hpages] at pos ⊢; omega)]
  show (vmmFreeLoop s.pageTable j _ j).state = .free
  rw [hloop, if_pos ⟨Nat.le_refl j, by omega⟩]
  rfl

/-- The blocks of the run after a free. -/
theorem VmmHolds.free (h : VmmHolds s live) (addr : UIntPtr) :
    VmmHolds (vmmFree s addr) (live.filter fun b => ¬ b.FirstPage addr) := by
  have kept : ∀ b ∈ live.filter (fun b => ¬ b.FirstPage addr), b ∈ live ∧ ¬ b.FirstPage addr := by
    intro b hb
    obtain ⟨hb, hout⟩ := List.mem_filter.mp hb
    exact ⟨hb, of_decide_eq_true hout⟩
  refine ⟨h.ready.free addr, fun k hk => ?_, fun b hb => ?_, fun b hb k hk => ?_,
    h.apart.sublist List.filter_sublist, fun k hk hused hne => ?_⟩
  · have hend := vmmFree_end s addr
    generalize vmmFree s addr = s' at hend ⊢
    cases hend with
    | same => exact h.size k hk
    | freed i m _ _ _ _ table hpages =>
      show (table k).size = _
      rw [hpages]
      split <;> exact h.size k hk
  · obtain ⟨hb, hout⟩ := kept b hb
    obtain ⟨i, hat, hfit, hpages⟩ := h.first b hb
    refine ⟨i, hat, hfit, ?_⟩
    rw [h.free_spares hb hout hat.has_first]
    exact hpages
  · obtain ⟨hb, hout⟩ := kept b hb
    rw [h.free_spares hb hout hk]
    exact h.taken b hb k hk
  · have old : (s.pageTable k).state = .used ∧ (s.pageTable k).allocPages ≠ 0 := by
      have hend := vmmFree_end s addr
      generalize vmmFree s addr = s' at hend hused hne
      cases hend with
      | same => exact ⟨hused, hne⟩
      | freed i m _ _ _ _ table hpages =>
        have hused : (table k).state = .used := hused
        have hne : (table k).allocPages ≠ 0 := hne
        rw [hpages] at hused hne
        split at hused
        · cases hused
        · next hout =>
          rw [if_neg hout] at hne
          exact ⟨hused, hne⟩
    obtain ⟨b, hb, hat⟩ := h.owner k hk old.1 old.2
    refine ⟨b, List.mem_filter.mpr ⟨hb, decide_eq_true fun hfirst => ?_⟩, hat⟩
    rw [h.free_first hb hfirst hat old.1] at hused
    cases hused

end Step

/-! ## Runs -/

/-- What a run keeps: before `vmm_init` there is no block. -/
structure VmmRunSafe (t : VmmRun) : Prop where
  apart : t.live.Pairwise VmmBlock.Apart
  holds : ∀ s, t.vmm = some s → s = vmmStart ∧ t.live = [] ∨ VmmHolds s t.live

theorem vmmRunSafe_start : VmmRunSafe vmmRunStart where
  apart := .nil
  holds _ hs := .inl ⟨(Option.some.inj hs).symm, rfl⟩

theorem VmmRunSafe.isolated {t : VmmRun} (h : VmmRunSafe t) : VmmIsolated t := by
  refine ⟨h.apart, fun s hs b hb k hk => ?_⟩
  rcases h.holds s hs with ⟨_, hnone⟩ | holds
  · rw [hnone] at hb
    cases hb
  · exact holds.taken b hb k hk

theorem VmmRunSafe.freeSpares {t : VmmRun} (h : VmmRunSafe t) (c : VmmRunCall) :
    VmmFreeSpares t c := by
  rintro s addr hs _ b hb hout k hk
  rcases h.holds s hs with ⟨_, hnone⟩ | holds
  · rw [hnone] at hb
    cases hb
  · exact holds.free_spares hb hout hk

section Run

variable {t t' : VmmRun}

/-- A step that stops the machine leaves the blocks as they were. -/
theorem VmmRunSafe.of_step (h : VmmRunSafe t) (hstopped : t'.vmm = none → t'.live = t.live)
    (hholds : ∀ s, t'.vmm = some s → s = vmmStart ∧ t'.live = [] ∨ VmmHolds s t'.live) :
    VmmRunSafe t' := by
  refine ⟨?_, hholds⟩
  cases hs : t'.vmm with
  | none => exact hstopped hs ▸ h.apart
  | some s =>
    rcases hholds s hs with ⟨_, hnone⟩ | holds
    · exact hnone ▸ .nil
    · exact holds.apart

theorem VmmRunSafe.allocated (h : VmmRunSafe t) {s : Vmm} (hs : t.vmm = some s) {size : SizeT}
    {tag : BitVec 32} {isKernel : Bool} {res : Option (Vmm × UIntPtr)}
    (hend : VmmAllocEnd s size tag isKernel res) : VmmRunSafe (t.allocated size res) := by
  refine h.of_step (fun hstopped => ?_) fun s' hs' => ?_
  · cases hend with
    | stopped => rfl
    | null => cases hstopped
    | block => cases hstopped
  · rcases h.holds s hs with ⟨hstart, hnone⟩ | holds
    · cases hend with
      | stopped => cases hs'
      | null =>
        obtain rfl := Option.some.inj hs'
        exact .inl ⟨hstart, hnone⟩
      | block _ ready =>
        have on := ready.initialized
        rw [hstart] at on
        cases on
    · exact .inr (holds.allocated hend rfl hs')

/-- Before `vmm_init` the table has no address. -/
theorem vmmFindPage_start (addr : UIntPtr) : vmmFindPage vmmStart.pageTable addr = none := by
  unfold vmmFindPage
  refine List.find?_eq_none.mpr fun i _ hfound => ?_
  rw [Bool.and_eq_true, decide_eq_true_eq, decide_eq_true_eq] at hfound
  exact BitVec.not_lt_zero hfound.2

theorem VmmRunSafe.ready (h : VmmRunSafe t) {s : Vmm} (hs : t.vmm = some s)
    (hinit : s.initialized = true) : VmmReady s := by
  rcases h.holds s hs with ⟨rfl, _⟩ | holds
  · cases hinit
  · exact holds.ready

theorem VmmRunSafe.step (h : VmmRunSafe t) (c : VmmRunCall) : VmmRunSafe (vmmRunStep t c) := by
  unfold vmmRunStep
  split
  · exact h
  next s hs =>
  split
  · -- `vmm_init` sets the table up once
    refine h.of_step nofun fun s' hs' => .inr ?_
    obtain rfl := Option.some.inj hs'
    rcases h.holds s hs with ⟨rfl, hnone⟩ | holds
    · show VmmHolds (vmmInit vmmStart) t.live
      rw [hnone]
      exact ⟨⟨rfl, vmmPaged_initial⟩, fun _ _ => rfl, nofun, nofun, .nil,
        fun _ _ hused => nomatch hused⟩
    · show VmmHolds (vmmInit s) t.live
      rw [vmmInit, if_pos holds.ready.initialized]
      exact holds
  · next start stop =>
    refine h.of_step (fun _ => rfl) fun s' hs' => ?_
    rcases h.holds s hs with ⟨rfl, _⟩ | holds
    · cases hs'
    · exact .inr (holds.reserveRange hs')
  · next addr tag =>
    refine h.of_step nofun fun s' hs' => ?_
    obtain rfl := Option.some.inj hs'
    rcases h.holds s hs with ⟨rfl, hnone⟩ | holds
    · refine .inl ⟨?_, hnone⟩
      rw [vmmSetTag, vmmFindPage_start]
      split <;> rfl
    · exact .inr (holds.setTag addr tag)
  · exact h.allocated hs (vmmAllocSized_end (h.ready hs) ⟨12, rfl⟩ 0 false)
  · exact h.allocated hs (vmmAllocAligned_end (h.ready hs))
  · next size tag isKernel =>
    exact h.allocated hs (vmmAllocSized_end (h.ready hs) ⟨12, rfl⟩ tag isKernel)
  · next addr =>
    refine h.of_step nofun fun s' hs' => ?_
    obtain rfl := Option.some.inj hs'
    rcases h.holds s hs with ⟨rfl, hnone⟩ | holds
    · refine .inl ⟨if_pos (.inr rfl), ?_⟩
      show t.live.filter _ = []
      rw [hnone]
      rfl
    · exact .inr (holds.free addr)

end Run

/-- In every state of every run from the start, the live blocks have no page in common and none of
their pages is free, and no free of the run changes a page of a live block whose first page does not
have the address it is given. -/
theorem vmm_blocks_isolated (calls : List VmmRunCall) :
    EveryState vmmRunStep VmmIsolated vmmRunStart calls ∧
      EveryStep vmmRunStep VmmFreeSpares vmmRunStart calls := by
  have all := everyStep_true vmmRunStep vmmRunStart calls
  exact ⟨all.everyState (fun t c h _ => VmmRunSafe.step h c) (fun t h => h.isolated)
      vmmRunSafe_start,
    all.mono (fun t c h _ => VmmRunSafe.step h c) (fun t c h _ => h.freeSpares c) vmmRunSafe_start⟩

/-- A block whose second page was reserved is freed as far as that page. A new block takes what was
freed, and the pages that stay behind cannot be freed. -/
example :
    (runFrom vmmRunStep vmmRunStart
      [.init, .call (.alloc 0x3000), .reserveRange 0x101000 0x102000, .call (.free 0x100000),
        .call (.alloc 0x1000), .call (.free 0x102000)]).live =
      [{ addr := 0x100000, size := 0x1000 }] := by
  decide +kernel

end Unics
