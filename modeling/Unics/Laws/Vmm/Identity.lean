import Unics.Laws.Vmm.Counts
import Unics.Laws.Vmm.Release

/-!
# A block allocated and freed at once

A free clears the count, the tag and the kernel flag of the pages it frees; it does not put back
what an allocation found there. The two are the same because a free page of a reachable table never
has anything else (`VmmCounted.free`), and because the block just allocated is all in use when it is
freed, so that no check of `vmm_free` stops the loop.
-/

namespace Unics

open Unics.Lib

/-- Where the allocation answers an address, freeing it gives back the state before. -/
def VmmUndone (s : Vmm) (res : Option (Vmm × UIntPtr)) : Prop :=
  ∀ s' p, res = some (s', p) → p ≠ null → vmmFree s' p = s

section Identity

variable {s s' : Vmm} {live : List VmmBlock} {size : SizeT} {tag : BitVec 32} {isKernel : Bool}

/-- Marking free pages and releasing them again. -/
theorem VmmCounted.release_markUsed {table : VmmPageTable} (h : VmmCounted table) {i : Nat}
    {pages : SizeT} (hfit : i + pages.toNat ≤ vmmMaxPages)
    (hfree : ∀ k, i ≤ k → k < i + pages.toNat → (table k).state = .free) (k : Nat)
    (hk : i ≤ k ∧ k < i + pages.toNat) :
    (vmmMarkUsed table i pages tag isKernel k).release = table k := by
  have same := h.free k (by omega) (hfree k hk.1 hk.2)
  rw [vmmMarkUsed, if_pos hk]
  exact same

/-- A free at the address of a block that is all in use runs over the whole block. -/
theorem VmmHolds.free_whole (h : VmmHolds s live) {b : VmmBlock} (hb : b ∈ live) {i : Nat}
    (hat : b.At i) (hused : ∀ k, b.Has k → (s.pageTable k).state = .used) :
    vmmFree s b.addr =
      { s with pageTable := vmmFreeLoop s.pageTable i (vmmPagesNeeded b.size).toNat } := by
  have first : b.FirstPage b.addr := ⟨Nat.le_refl _, by omega⟩
  have freed := h.free_first hb first hat (hused i hat.has_first)
  have hruns := h.free_runs b.addr
  generalize vmmFree s b.addr = s' at freed hruns ⊢
  cases hruns with
  | same =>
    rw [hused i hat.has_first] at freed
    cases freed
  | @loop b' j hb' hat' hfirst' hused' =>
    -- the block that the free runs over has the address in its first page, so it is `b`
    have place : j = i := by
      have here := hat.1
      have there := hat'.1
      unfold VmmBlock.FirstPage at hfirst'
      unfold vmmPageAddr at here there
      omega
    subst place
    obtain rfl := h.unique hb hb' hat.has_first hat'.has_first
    rfl

/-- A block that was allocated and is freed at once. -/
theorem VmmHolds.undone (h : VmmHolds s live) (hcounted : VmmCounted s.pageTable)
    {res : Option (Vmm × UIntPtr)} (hend : VmmAllocEnd s size tag isKernel res) :
    VmmUndone s res := by
  intro s' p hres hp
  cases hend with
  | stopped => cases hres
  | null =>
    obtain ⟨-, rfl⟩ := Prod.mk.inj (Option.some.inj hres)
    exact absurd rfl hp
  | block i ready hpos hfit hfree =>
    obtain ⟨rfl, rfl⟩ := Prod.mk.inj (Option.some.inj hres)
    have marked := h.markUsed hpos hfit hfree tag isKernel
    have at_ : VmmBlock.At { addr := (s.pageTable i).baseAddr, size := size } i :=
      ⟨h.ready.paged i (by omega), hpos⟩
    have used : ∀ k, i ≤ k → k < i + (vmmPagesNeeded size).toNat →
        (vmmMarkUsed s.pageTable i (vmmPagesNeeded size) tag isKernel k).state = .used :=
      fun k hik hk => vmmMarkUsed_state ⟨hik, hk⟩
    have whole := marked.free_whole List.mem_cons_self at_ fun k hk =>
      used k (at_.has_iff.mp hk).1 (at_.has_iff.mp hk).2
    rw [whole]
    have table : vmmFreeLoop (vmmMarkUsed s.pageTable i (vmmPagesNeeded size) tag isKernel) i
        (vmmPagesNeeded size).toNat = s.pageTable := by
      funext k
      rw [vmmFreeLoop_of_used used]
      split
      · next hk => exact hcounted.release_markUsed hfit hfree k hk
      · next hk => exact vmmMarkUsed_out hk
    show ({ pageTable := _, initialized := s.initialized } : Vmm) = s
    rw [table]

end Identity

/-- In every state that a run of calls reaches, for every size, alignment, tag and kernel flag:
freeing what an allocation answers right after it gives back the state before, in every field of
every page. -/
theorem vmm_alloc_free_identity (calls : List VmmRunCall) (s : Vmm)
    (hs : (runFrom vmmRunStep vmmRunStart calls).vmm = some s) (size align : SizeT)
    (tag : BitVec 32) (isKernel : Bool) :
    VmmUndone s (vmmAllocAligned s size align) ∧
      VmmUndone s (vmmAllocTagged s size tag isKernel) := by
  have safe := vmmRunSafe_run calls
  have counted := vmmCounted_run calls hs
  have aligned : VmmAllocEnd s size 0 false (vmmAllocAligned s size align) :=
    vmmAllocAligned_end (safe.ready hs)
  have tagged : VmmAllocEnd s size tag isKernel (vmmAllocTagged s size tag isKernel) :=
    vmmAllocSized_end (safe.ready hs) ⟨12, rfl⟩ tag isKernel
  rcases safe.holds s hs with ⟨rfl, hnone⟩ | holds
  · -- before `vmm_init` the assertion stops every allocation that would answer an address
    have never {tag : BitVec 32} {isKernel : Bool} {res : Option (Vmm × UIntPtr)}
        (hend : VmmAllocEnd vmmStart size tag isKernel res) : VmmUndone vmmStart res := by
      intro s' p hres hp
      cases hend with
      | stopped => cases hres
      | null =>
        obtain ⟨-, rfl⟩ := Prod.mk.inj (Option.some.inj hres)
        exact absurd rfl hp
      | block i ready => cases ready.initialized
    exact ⟨never aligned, never tagged⟩
  · exact ⟨holds.undone counted aligned, holds.undone counted tagged⟩

/-- Two pages behind a block of one page. -/
theorem vmm_alloc_free_identity_pair :
    vmmFree ⟨vmmMarkUsed (vmmMarkUsed vmmInitialPage 0 1 0 false) 1 2 7 true, true⟩ 0x101000 =
      ⟨vmmMarkUsed vmmInitialPage 0 1 0 false, true⟩ :=
  (vmm_alloc_free_identity [.init, .call (.alloc 0x1000)] _ rfl 0x2000 0x1000 7 true).2 _ _ rfl
    (by decide)

end Unics
