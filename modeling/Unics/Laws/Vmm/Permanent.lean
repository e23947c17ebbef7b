import Unics.Laws.Vmm.Release
import Unics.Laws.Vmm.Stats

/-!
# Reserved for good

`vmm_reserve_range` rounds both ends of a range to pages and reserves what lies between. The end is
rounded up by an addition that wraps, so a range that ends in the last page of the address space
has the end 0 and reserves nothing. `vmm_reservation_iff` is the exact condition, in every state
that a run of calls reaches.

Nothing makes a reserved page free or used again: `vmm_free` stops at it, also inside a block that
was live when the page was reserved, and an allocation takes free pages only.
-/

namespace Unics

open Unics.Lib

/-- Page `k` is managed, and the range has bytes on it. -/
def VmmOverlaps (start stop : UIntPtr) (k : Nat) : Prop :=
  k < vmmMaxPages ∧ vmmPageAddr k < stop.toNat ∧ start.toNat < vmmPageAddr k + 4096

/-- Exactly the managed pages of the range are reserved besides those that were, and no other page
has changed. -/
structure VmmReservesExactly (s s' : Vmm) (start stop : UIntPtr) : Prop where
  reserved : ∀ k < vmmMaxPages, (s'.pageTable k).state = .reserved ↔
    (s.pageTable k).state = .reserved ∨ VmmOverlaps start stop k
  others : ∀ k, ¬ VmmOverlaps start stop k → s'.pageTable k = s.pageTable k

/-- All managed pages of the range are reserved. -/
def VmmAllReserved (start stop : UIntPtr) (s : Vmm) : Prop :=
  ∀ k, VmmOverlaps start stop k → (s.pageTable k).state = .reserved

/-- The call returns the block to its caller. -/
def VmmReturned (t : VmmRun) (c : VmmRunCall) (b : VmmBlock) : Prop :=
  (vmmRunStep t c).live = b :: t.live

/-- No block that the call returns has a page of the range. -/
def VmmReturnsOthers (start stop : UIntPtr) (t : VmmRun) (c : VmmRunCall) : Prop :=
  ∀ b, VmmReturned t c b → ∀ k, VmmOverlaps start stop k → ¬ b.Has k

/-- What a reservation is for: it reserves exactly its pages, and however the run goes on they stay
reserved and no allocation returns one of them. -/
structure VmmReservation (t : VmmRun) (start stop : UIntPtr) : Prop where
  reserves : ∃ s s', t.vmm = some s ∧ vmmReserveRange s start stop = some s' ∧
    VmmReservesExactly s s' start stop
  stays : ∀ calls, EveryState vmmRunStep (·.Has (VmmAllReserved start stop))
    (vmmRunStep t (.reserveRange start stop)) calls
  apart : ∀ calls, EveryStep vmmRunStep (VmmReturnsOthers start stop)
    (vmmRunStep t (.reserveRange start stop)) calls

/-! ## Rounding -/

section Rounding

variable {table : VmmPageTable} {start stop : UIntPtr} {k : Nat}

/-- A page begins at or above the rounded start exactly when its last byte is not below the start.
-/
theorem VmmPaged.start_le_iff (h : VmmPaged table) (hk : k < vmmMaxPages) :
    start &&& ~~~(vmmPageSize - 1) ≤ (table k).baseAddr ↔
      start.toNat < vmmPageAddr k + 4096 := by
  have small : k < 1024 := hk
  rw [BitVec.le_def, toNat_and_not_mask (k := 12) rfl, h k hk]
  unfold vmmPageAddr
  omega

/-- The end, rounded up, unless the sum wraps. -/
theorem toNat_vmmReserve_stop (h : stop ≤ 0xFFFFF000) :
    ((stop + vmmPageSize - 1) &&& ~~~(vmmPageSize - 1)).toNat =
      (stop.toNat + 4095) / 4096 * 4096 := by
  have sum : (stop + vmmPageSize - 1).toNat = stop.toNat + 4095 := by
    unfold vmmPageSize
    bv_omega
  rw [toNat_and_not_mask (k := 12) rfl, sum]
  rfl

/-- In the last page of the address space the rounded end is 0. -/
theorem vmmReserve_stop_wraps (h : ¬ stop ≤ 0xFFFFF000) :
    (stop + vmmPageSize - 1) &&& ~~~(vmmPageSize - 1) = 0 := by
  have sum : (stop + vmmPageSize - 1).toNat = stop.toNat + 4095 - 2 ^ 32 := by
    unfold vmmPageSize
    bv_omega
  refine BitVec.eq_of_toNat_eq ?_
  rw [toNat_and_not_mask (k := 12) rfl, sum]
  have := stop.isLt
  show (stop.toNat + 4095 - 2 ^ 32) / 4096 * 4096 = 0
  omega

/-- Where the end does not wrap, the call writes the pages of the range. -/
theorem VmmPaged.reserves_iff (h : VmmPaged table) (hstop : stop ≤ 0xFFFFF000)
    (hk : k < vmmMaxPages) : VmmReserves start stop (table k) ↔ VmmOverlaps start stop k := by
  have small : k < 1024 := hk
  have below : (table k).baseAddr < (stop + vmmPageSize - 1) &&& ~~~(vmmPageSize - 1) ↔
      vmmPageAddr k < stop.toNat := by
    rw [BitVec.lt_def, toNat_vmmReserve_stop hstop, h k hk]
    unfold vmmPageAddr
    omega
  rw [VmmReserves, VmmOverlaps, h.start_le_iff hk, below, and_comm]
  exact (and_iff_right hk).symm

end Rounding

/-! ## The call -/

section Call

variable {s s' : Vmm} {start stop : UIntPtr}

theorem vmmReserveRange_outside (hres : vmmReserveRange s start stop = some s') {k : Nat}
    (hk : ¬ k < vmmMaxPages) : s'.pageTable k = s.pageTable k := by
  unfold vmmReserveRange at hres
  split at hres
  · obtain rfl := Option.some.inj hres
    exact if_neg fun hin => hk hin.1
  · cases hres

/-- A range whose end does not wrap. -/
theorem VmmReady.reserves_exactly (h : VmmReady s) (hstop : stop ≤ 0xFFFFF000)
    (hres : vmmReserveRange s start stop = some s') : VmmReservesExactly s s' start stop := by
  refine ⟨fun k hk => ?_, fun k hout => ?_⟩
  · obtain ⟨-, page_in, page_out⟩ := vmmReserveRange_page hres hk
    have here : VmmReserves start stop (s.pageTable k) ↔ VmmOverlaps start stop k :=
      h.paged.reserves_iff hstop hk
    by_cases hin : VmmOverlaps start stop k
    · exact iff_of_true (page_in (here.mpr hin)) (.inr hin)
    · rw [page_out (hin ∘ here.mp)]
      exact (or_iff_left hin).symm
  · by_cases hk : k < vmmMaxPages
    · obtain ⟨-, -, page_out⟩ := vmmReserveRange_page hres hk
      exact page_out (hout ∘ (h.paged.reserves_iff hstop hk).mp)
    · exact vmmReserveRange_outside hres hk

/-- A range whose end wraps: nothing changes. -/
theorem vmmReserveRange_wraps (hstop : ¬ stop ≤ 0xFFFFF000)
    (hres : vmmReserveRange s start stop = some s') (k : Nat) :
    s'.pageTable k = s.pageTable k := by
  by_cases hk : k < vmmMaxPages
  · obtain ⟨-, -, page_out⟩ := vmmReserveRange_page hres hk
    refine page_out fun hin => ?_
    rw [VmmReserves, vmmReserve_stop_wraps hstop] at hin
    exact BitVec.not_lt_zero hin.2
  · exact vmmReserveRange_outside hres hk

/-- The call reserves exactly its pages when its end does not wrap or nothing is left to do. -/
theorem VmmReady.reserves_exactly_iff (h : VmmReady s)
    (hres : vmmReserveRange s start stop = some s') :
    VmmReservesExactly s s' start stop ↔ stop ≤ 0xFFFFF000 ∨ VmmAllReserved start stop s := by
  constructor
  · intro hexact
    by_cases hstop : stop ≤ 0xFFFFF000
    · exact .inl hstop
    · refine .inr fun k hk => ?_
      have reserved := (hexact.reserved k hk.1).mpr (.inr hk)
      rwa [vmmReserveRange_wraps hstop hres] at reserved
  · intro hcond
    by_cases hstop : stop ≤ 0xFFFFF000
    · exact h.reserves_exactly hstop hres
    · have all := hcond.resolve_left hstop
      refine ⟨fun k _ => ?_, fun k _ => vmmReserveRange_wraps hstop hres k⟩
      rw [vmmReserveRange_wraps hstop hres]
      exact (or_iff_left_of_imp (all k)).symm

/-- A free leaves every page as it is that is not in use. -/
theorem vmmFree_of_not_used {addr : UIntPtr} {k : Nat} (hk : (s.pageTable k).state ≠ .used) :
    (vmmFree s addr).pageTable k = s.pageTable k := by
  unfold vmmFree
  split
  · rfl
  split
  · rfl
  split
  · rfl
  dsimp only
  split
  · rfl
  · exact vmmFreeLoop_of_not_used hk

theorem vmmFree_initialized (s : Vmm) (addr : UIntPtr) :
    (vmmFree s addr).initialized = s.initialized := by
  unfold vmmFree
  split
  · rfl
  split
  · rfl
  split
  · rfl
  dsimp only
  split <;> rfl

theorem vmmSetTag_page (s : Vmm) (addr : UIntPtr) (tag : BitVec 32) :
    (vmmSetTag s addr tag).initialized = s.initialized ∧
      ∀ k, ((vmmSetTag s addr tag).pageTable k).state = (s.pageTable k).state := by
  unfold vmmSetTag
  split
  · exact ⟨rfl, fun _ => rfl⟩
  split
  · exact ⟨rfl, fun _ => rfl⟩
  split
  · refine ⟨rfl, fun k => ?_⟩
    dsimp only
    split <;> rfl
  · exact ⟨rfl, fun _ => rfl⟩

end Call

/-! ## Runs -/

section Run

variable {t : VmmRun} {start stop : UIntPtr}

/-- What a run keeps once the pages are reserved. -/
structure VmmReservedFor (start stop : UIntPtr) (s : Vmm) : Prop where
  initialized : s.initialized = true
  reserved : VmmAllReserved start stop s

/-- No call takes the reservation of a page away. -/
theorem VmmRunSafe.reserved_step (hsafe : VmmRunSafe t) (h : t.Has (VmmReservedFor start stop))
    (c : VmmRunCall) : (vmmRunStep t c).Has (VmmReservedFor start stop) := by
  refine hsafe.has_step h ?_ ?_ ?_ ?_ ?_
  · intro s hs
    rw [vmmInit, if_pos hs.initialized]
    exact hs
  · rintro s s' start' stop' - - hs hres
    refine ⟨?_, fun k hk => ?_⟩
    · unfold vmmReserveRange at hres
      split at hres
      · obtain rfl := Option.some.inj hres
        exact hs.initialized
      · cases hres
    · obtain ⟨-, page_in, page_out⟩ := vmmReserveRange_page hres hk.1
      by_cases hin : VmmReserves start' stop' (s.pageTable k)
      · exact page_in hin
      · rw [page_out hin]
        exact hs.reserved k hk
  · intro s addr tag hs
    obtain ⟨initialized, states⟩ := vmmSetTag_page s addr tag
    exact ⟨initialized.trans hs.initialized, fun k hk => (states k).trans (hs.reserved k hk)⟩
  · intro s s' p size tag isKernel hs hend
    cases hend with
    | null => exact hs
    | block i _ _ _ hfree =>
      refine ⟨hs.initialized, fun k hk => ?_⟩
      have out : ¬ (i ≤ k ∧ k < i + (vmmPagesNeeded size).toNat) := by
        intro hin
        have free := hfree k hin.1 hin.2
        rw [hs.reserved k hk] at free
        cases free
      show (vmmMarkUsed s.pageTable i _ tag isKernel k).state = _
      rw [vmmMarkUsed_out out]
      exact hs.reserved k hk
  · intro s addr hs
    refine ⟨(vmmFree_initialized s addr).trans hs.initialized, fun k hk => ?_⟩
    have reserved := hs.reserved k hk
    rw [vmmFree_of_not_used (by rw [reserved]; exact VmmPageState.noConfusion)]
    exact reserved

/-- The pages of a block that an allocation returns were free. -/
theorem VmmRun.returned_free {s : Vmm} {size : SizeT} {tag : BitVec 32} {isKernel : Bool}
    {res : Option (Vmm × UIntPtr)} (hend : VmmAllocEnd s size tag isKernel res) {b : VmmBlock}
    (hb : (t.allocated size res).live = b :: t.live) {k : Nat} (hk : b.Has k) :
    (s.pageTable k).state = .free := by
  cases hend with
  | stopped => exact absurd hb.symm (List.cons_ne_self b t.live)
  | null => exact absurd hb.symm (List.cons_ne_self b t.live)
  | block i ready hpos hfit hfree =>
    have hb : (if (s.pageTable i).baseAddr = null then t.live
      else { addr := (s.pageTable i).baseAddr, size := size } :: t.live) = b :: t.live := hb
    split at hb
    · exact absurd hb.symm (List.cons_ne_self b t.live)
    · obtain ⟨rfl, -⟩ := List.cons.inj hb
      have new : VmmBlock.At { addr := (s.pageTable i).baseAddr, size := size } i :=
        ⟨ready.paged i (by omega), hpos⟩
      obtain ⟨hik, hlt⟩ := new.has_iff.mp hk
      exact hfree k hik hlt

/-- Where the pages are reserved, no call returns one of them. -/
theorem VmmRunSafe.returns_others (hsafe : VmmRunSafe t) (h : t.Has (VmmReservedFor start stop))
    (c : VmmRunCall) : VmmReturnsOthers start stop t c := by
  intro b hb k hk hhas
  unfold VmmReturned vmmRunStep at hb
  split at hb
  · exact List.cons_ne_self b t.live hb.symm
  next s hs =>
  have taken {size : SizeT} {tag : BitVec 32} {isKernel : Bool} {res : Option (Vmm × UIntPtr)}
      (hend : VmmAllocEnd s size tag isKernel res)
      (hb : (t.allocated size res).live = b :: t.live) : False := by
    have free := VmmRun.returned_free hend hb hhas
    rw [(h s hs).reserved k hk] at free
    cases free
  split at hb
  · exact List.cons_ne_self b t.live hb.symm
  · exact List.cons_ne_self b t.live hb.symm
  · exact List.cons_ne_self b t.live hb.symm
  · exact taken (vmmAllocSized_end (hsafe.ready hs) ⟨12, rfl⟩ 0 false) hb
  · exact taken (vmmAllocAligned_end (hsafe.ready hs)) hb
  · next size tag isKernel =>
    exact taken (vmmAllocSized_end (hsafe.ready hs) ⟨12, rfl⟩ tag isKernel) hb
  · next addr =>
    have longer := congrArg List.length hb
    have shorter : (t.freed s addr).live.length ≤ t.live.length := List.length_filter_le ..
    rw [List.length_cons] at longer
    omega

/-- Pages that are reserved stay so, and are not returned, however the run goes on. -/
theorem VmmRunSafe.reserved_run (hsafe : VmmRunSafe t) (h : t.Has (VmmReservedFor start stop))
    (calls : List VmmRunCall) :
    EveryState vmmRunStep (·.Has (VmmAllReserved start stop)) t calls ∧
      EveryStep vmmRunStep (VmmReturnsOthers start stop) t calls := by
  have all := everyStep_true vmmRunStep t calls
  have keep : ∀ t c, VmmRunSafe t ∧ t.Has (VmmReservedFor start stop) → True →
      VmmRunSafe (vmmRunStep t c) ∧ (vmmRunStep t c).Has (VmmReservedFor start stop) :=
    fun t c h _ => ⟨h.1.step c, h.1.reserved_step h.2 c⟩
  exact ⟨all.everyState keep (fun t h s hs => (h.2 s hs).reserved) ⟨hsafe, h⟩,
    all.mono keep (fun t c h _ => h.1.returns_others h.2 c) ⟨hsafe, h⟩⟩

end Run

/-- In every state that a run of calls reaches, for every range: the reservation is exact and
permanent exactly when `vmm_init` has been called and the range ends at or before the last page of
the address space, or all its managed pages are reserved already. -/
theorem vmm_reservation_iff (calls : List VmmRunCall) (s : Vmm)
    (hs : (runFrom vmmRunStep vmmRunStart calls).vmm = some s) (start stop : UIntPtr) :
    VmmReservation (runFrom vmmRunStep vmmRunStart calls) start stop ↔
      s.initialized = true ∧ (stop ≤ 0xFFFFF000 ∨ VmmAllReserved start stop s) := by
  have safe := vmmRunSafe_run calls
  generalize runFrom vmmRunStep vmmRunStart calls = t at hs safe ⊢
  constructor
  · intro h
    obtain ⟨s₁, s', hs₁, hres, hexact⟩ := h.reserves
    obtain rfl := Option.some.inj (hs.symm.trans hs₁)
    have hinit : s.initialized = true := by
      by_contra hinit
      rw [vmmReserveRange, if_neg hinit] at hres
      cases hres
    exact ⟨hinit, ((safe.ready hs hinit).reserves_exactly_iff hres).mp hexact⟩
  · rintro ⟨hinit, hcond⟩
    obtain ⟨s', hres⟩ : ∃ s', vmmReserveRange s start stop = some s' := by
      rw [vmmReserveRange, if_pos hinit]
      exact ⟨_, rfl⟩
    have hexact := ((safe.ready hs hinit).reserves_exactly_iff hres).mpr hcond
    have after : (vmmRunStep t (.reserveRange start stop)).vmm = some s' := by
      rw [vmmRunStep, hs]
      exact hres
    have held : (vmmRunStep t (.reserveRange start stop)).Has (VmmReservedFor start stop) := by
      intro s₁ hs₁
      obtain rfl := Option.some.inj (after.symm.trans hs₁)
      refine ⟨?_, fun k hk => (hexact.reserved k hk.1).mpr (.inr hk)⟩
      rw [vmmReserveRange, if_pos hinit] at hres
      obtain rfl := Option.some.inj hres
      exact hinit
    exact ⟨⟨s, s', hs, hres, hexact⟩,
      fun calls => ((safe.step _).reserved_run held calls).1,
      fun calls => ((safe.step _).reserved_run held calls).2⟩

/-- The middle page of a live block of three. -/
theorem vmm_reservation_iff_inside :
    VmmReservation (runFrom vmmRunStep vmmRunStart [.init, .call (.alloc 0x3000)])
      0x101800 0x101900 :=
  (vmm_reservation_iff [.init, .call (.alloc 0x3000)] _ rfl 0x101800 0x101900).mpr
    ⟨rfl, .inl (by decide)⟩

/-- A range that ends at the last byte of the address space. -/
theorem vmm_reservation_fails :
    ¬ VmmReservation (runFrom vmmRunStep vmmRunStart [.init]) 0x100000 0xFFFFFFFF := by
  intro h
  obtain ⟨s, s', hs, hres, hexact⟩ := h.reserves
  obtain rfl := Option.some.inj hs
  have reserved := (hexact.reserved 0 (by decide)).mpr (.inr ⟨by decide, by decide, by decide⟩)
  rw [vmmReserveRange_wraps (by decide) hres] at reserved
  cases reserved

end Unics
