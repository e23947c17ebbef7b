import Unics.Laws.Vmm.Isolation

/-!
# The counts of the page table

A page that has a count stands for a block: the pages behind it, as many as the count says, have no
count of their own and are not free. A free page has no count, no tag and no kernel flag. Every call
keeps this, from the all-zero table of the program's start on (`vmmCounted_run`). It does not speak
of the blocks the caller still has: a block whose first page was reserved stays a block for good,
since no free takes its count away.
-/

namespace Unics

open Unics.Lib

/-- The number of pages that a page stands for; none, if it is not the first of a block. -/
def VmmPage.count (page : VmmPage) : Nat := page.allocPages.toNat

theorem VmmPage.count_pos {page : VmmPage} : 0 < page.allocPages ↔ 0 < page.count :=
  BitVec.lt_def

/-- What the counts of a table say. -/
structure VmmCounted (table : VmmPageTable) : Prop where
  fits : ∀ k < vmmMaxPages, k + (table k).count ≤ vmmMaxPages
  inside : ∀ k < vmmMaxPages, ∀ j, k < j → j < k + (table k).count → (table j).count = 0
  taken : ∀ k < vmmMaxPages, ∀ j, k ≤ j → j < k + (table k).count → (table j).state ≠ .free
  /-- A free page is as a free would leave it. -/
  free : ∀ k < vmmMaxPages, (table k).state = .free → (table k).release = table k

/-- A table that is as `vmm_init` leaves it, or as the program starts. -/
theorem VmmCounted.of_released {table : VmmPageTable} (h : ∀ k, (table k).release = table k) :
    VmmCounted table := by
  have none (k : Nat) : (table k).count = 0 := by
    rw [← h k]
    rfl
  refine ⟨fun k hk => ?_, fun k _ j _ _ => none j, fun k _ j hkj hj => ?_, fun k _ _ => h k⟩
  · rw [none k]
    omega
  · rw [none k] at hj
    omega

section Calls

variable {s s' : Vmm} {size : SizeT} {tag : BitVec 32} {isKernel : Bool}

/-- What reserves or tags pages: the counts stay, and a page changes only if it is not free or if it
becomes reserved. -/
theorem VmmCounted.frame {table table' : VmmPageTable} (h : VmmCounted table)
    (hcount : ∀ k, (table' k).count = (table k).count)
    (hstate : ∀ k, table' k = table k ∨ (table' k).state = .reserved ∨
      (table' k).state = (table k).state ∧ (table k).state ≠ .free) : VmmCounted table' where
  fits k hk := (hcount k).symm ▸ h.fits k hk
  inside k hk j hkj hj := by
    rw [hcount] at hj ⊢
    exact h.inside k hk j hkj hj
  taken k hk j hkj hj := by
    rw [hcount] at hj
    rcases hstate j with same | reserved | ⟨same, -⟩
    · rw [same]
      exact h.taken k hk j hkj hj
    · rw [reserved]
      exact VmmPageState.noConfusion
    · rw [same]
      exact h.taken k hk j hkj hj
  free k hk hfree := by
    rcases hstate k with same | reserved | ⟨same, hne⟩
    · rw [same] at hfree ⊢
      exact h.free k hk hfree
    · rw [reserved] at hfree
      cases hfree
    · exact absurd (same.symm.trans hfree) hne

theorem VmmCounted.reserveRange (h : VmmCounted s.pageTable) {start stop : UIntPtr}
    (hres : vmmReserveRange s start stop = some s') : VmmCounted s'.pageTable := by
  unfold vmmReserveRange at hres
  split at hres
  · obtain rfl := Option.some.inj hres
    refine h.frame (fun k => ?_) (fun k => ?_)
    · dsimp only
      split <;> rfl
    · dsimp only
      split
      · exact .inr (.inl rfl)
      · exact .inl rfl
  · cases hres

theorem VmmCounted.setTag (h : VmmCounted s.pageTable) (addr : UIntPtr) (tag : BitVec 32) :
    VmmCounted (vmmSetTag s addr tag).pageTable := by
  unfold vmmSetTag
  split
  · exact h
  split
  · exact h
  split
  · next hused =>
    refine h.frame (fun k => ?_) (fun k => ?_)
    · dsimp only
      split <;> rfl
    · dsimp only
      split
      · next hk =>
        rw [hk, hused]
        exact .inr (.inr ⟨rfl, VmmPageState.noConfusion⟩)
      · exact .inl rfl
  · exact h

/-- A block of free pages that is marked. -/
theorem VmmCounted.markUsed {table : VmmPageTable} (h : VmmCounted table) {i : Nat} {pages : SizeT}
    (hfit : i + pages.toNat ≤ vmmMaxPages)
    (hfree : ∀ k, i ≤ k → k < i + pages.toNat → (table k).state = .free) :
    VmmCounted (vmmMarkUsed table i pages tag isKernel) := by
  -- no older block reaches the pages that were free
  have apart {k j : Nat} (hk : k < vmmMaxPages) (hkj : k ≤ j) (hj : j < k + (table k).count) :
      ¬ (i ≤ j ∧ j < i + pages.toNat) := fun hin =>
    h.taken k hk j hkj hj (hfree j hin.1 hin.2)
  refine ⟨fun k hk => ?_, fun k hk j hkj hj => ?_, fun k hk j hkj hj => ?_, fun k hk hstate => ?_⟩
  · by_cases hin : i ≤ k ∧ k < i + pages.toNat
    · rw [VmmPage.count, vmmMarkUsed_count hin]
      split
      · next heq => rw [heq]; exact hfit
      · omega
    · rw [vmmMarkUsed_out hin]
      exact h.fits k hk
  · by_cases hin : i ≤ k ∧ k < i + pages.toNat
    · rw [VmmPage.count, vmmMarkUsed_count hin] at hj
      split at hj
      · rw [VmmPage.count, vmmMarkUsed_count (by omega), if_neg (by omega)]
      · omega
    · rw [vmmMarkUsed_out hin] at hj
      rw [vmmMarkUsed_out (apart hk hkj.le hj)]
      exact h.inside k hk j hkj hj
  · by_cases hin : i ≤ k ∧ k < i + pages.toNat
    · rw [VmmPage.count, vmmMarkUsed_count hin] at hj
      split at hj
      · rw [vmmMarkUsed_state (by omega)]
        exact VmmPageState.noConfusion
      · omega
    · rw [vmmMarkUsed_out hin] at hj
      rw [vmmMarkUsed_out (apart hk hkj hj)]
      exact h.taken k hk j hkj hj
  · by_cases hin : i ≤ k ∧ k < i + pages.toNat
    · rw [vmmMarkUsed_state hin] at hstate
      cases hstate
    · rw [vmmMarkUsed_out hin] at hstate ⊢
      exact h.free k hk hstate

/-- A block whose first page is not among the first pages of another has none of them. -/
theorem VmmCounted.apart {table : VmmPageTable} (h : VmmCounted table) {i m : Nat}
    (hi : i < vmmMaxPages) (hm : m ≤ (table i).count) {k j : Nat} (hk : k < vmmMaxPages)
    (hout : ¬ (i ≤ k ∧ k < i + m)) (hkj : k ≤ j) (hj : j < k + (table k).count) :
    ¬ (i ≤ j ∧ j < i + m) := by
  intro hin
  rcases Nat.lt_or_ge k i with hlow | hhigh
  · have none := h.inside k hk i hlow (by omega)
    omega
  · have none := h.inside i hi k (by omega) (by omega)
    omega

/-- Pages of one block that are released, its first page among them. -/
theorem VmmCounted.released {table table' : VmmPageTable} (h : VmmCounted table) {i m : Nat}
    (hi : i < vmmMaxPages) (hm : m ≤ (table i).count)
    (hpages : ∀ k, table' k = if i ≤ k ∧ k < i + m then (table k).release else table k) :
    VmmCounted table' := by
  have out {k : Nat} (hk : ¬ (i ≤ k ∧ k < i + m)) : table' k = table k := by
    rw [hpages, if_neg hk]
  have freed {k : Nat} (hk : i ≤ k ∧ k < i + m) : table' k = (table k).release := by
    rw [hpages, if_pos hk]
  have count_freed {k : Nat} (hk : i ≤ k ∧ k < i + m) : (table' k).count = 0 := by
    rw [freed hk]
    rfl
  refine ⟨fun k hk => ?_, fun k hk j hkj hj => ?_, fun k hk j hkj hj => ?_, fun k hk hstate => ?_⟩
  · by_cases hin : i ≤ k ∧ k < i + m
    · rw [count_freed hin]
      omega
    · rw [out hin]
      exact h.fits k hk
  · by_cases hin : i ≤ k ∧ k < i + m
    · rw [count_freed hin] at hj
      omega
    · rw [out hin] at hj
      rw [out (h.apart hi hm hk hin hkj.le hj)]
      exact h.inside k hk j hkj hj
  · by_cases hin : i ≤ k ∧ k < i + m
    · rw [count_freed hin] at hj
      omega
    · rw [out hin] at hj
      rw [out (h.apart hi hm hk hin hkj hj)]
      exact h.taken k hk j hkj hj
  · by_cases hin : i ≤ k ∧ k < i + m
    · rw [freed hin]
      rfl
    · rw [out hin] at hstate ⊢
      exact h.free k hk hstate

theorem VmmCounted.freed (h : VmmCounted s.pageTable) (addr : UIntPtr) :
    VmmCounted (vmmFree s addr).pageTable := by
  have hend := vmmFree_end s addr
  generalize vmmFree s addr = s' at hend ⊢
  cases hend with
  | same => exact h
  | freed i m hfound _ _ hm table hpages =>
    unfold vmmFindPage at hfound
    have hi : i < vmmMaxPages := List.mem_range.mp (List.mem_of_find?_eq_some hfound)
    exact h.released hi hm hpages

theorem VmmCounted.allocated (h : VmmCounted s.pageTable) {p : UIntPtr}
    (hend : VmmAllocEnd s size tag isKernel (some (s', p))) : VmmCounted s'.pageTable := by
  cases hend with
  | null => exact h
  | block i _ _ hfit hfree => exact h.markUsed hfit hfree

end Calls

/-! ## Runs -/

/-- A property of states that a run has in every state that it reaches. -/
def VmmRun.Has (P : Vmm → Prop) (t : VmmRun) : Prop := ∀ s, t.vmm = some s → P s

section Run

variable {t : VmmRun} {s : Vmm}

/-- The table of a run that has stopped is anything's. -/
theorem VmmRun.Has.allocated {P : Vmm → Prop} {size : SizeT} {res : Option (Vmm × UIntPtr)}
    (h : ∀ s' p, res = some (s', p) → P s') : (t.allocated size res).Has P := by
  intro s' hs'
  cases res with
  | none => cases hs'
  | some answer =>
    obtain rfl := Option.some.inj hs'
    exact h answer.1 answer.2 rfl

/-- What each call keeps of a state, a step of a run keeps. The calls are `vmm_init`, a reservation,
a change of a tag, an allocation however it ends, and a free. -/
theorem VmmRunSafe.has_step {P : Vmm → Prop} (hsafe : VmmRunSafe t) (h : t.Has P) {c : VmmRunCall}
    (hinit : ∀ s, P s → P (vmmInit s))
    (hreserve : ∀ s s' start stop, t.vmm = some s → c = .reserveRange start stop → P s →
      vmmReserveRange s start stop = some s' → P s')
    (htag : ∀ s addr tag, P s → P (vmmSetTag s addr tag))
    (halloc : ∀ s s' p size tag isKernel, P s →
      VmmAllocEnd s size tag isKernel (some (s', p)) → P s')
    (hfree : ∀ s addr, P s → P (vmmFree s addr)) : (vmmRunStep t c).Has P := by
  have allocated {s : Vmm} (hs : P s) {size : SizeT} {tag : BitVec 32} {isKernel : Bool}
      {res : Option (Vmm × UIntPtr)} (hend : VmmAllocEnd s size tag isKernel res) :
      (t.allocated size res).Has P :=
    .allocated fun s' p hres => halloc s s' p size tag isKernel hs (hres ▸ hend)
  unfold vmmRunStep
  split
  · exact h
  next s hs =>
  have here := h s hs
  split
  · rintro s' hs'
    obtain rfl := Option.some.inj hs'
    exact hinit s here
  · next start stop => exact fun s' hs' => hreserve s s' start stop hs rfl here hs'
  · next addr tag =>
    rintro s' hs'
    obtain rfl := Option.some.inj hs'
    exact htag s addr tag here
  · exact allocated here (vmmAllocSized_end (hsafe.ready hs) ⟨12, rfl⟩ 0 false)
  · exact allocated here (vmmAllocAligned_end (hsafe.ready hs))
  · next size tag isKernel =>
    exact allocated here (vmmAllocSized_end (hsafe.ready hs) ⟨12, rfl⟩ tag isKernel)
  · next addr =>
    rintro s' hs'
    obtain rfl := Option.some.inj hs'
    exact hfree s addr here

theorem VmmCounted.init (h : VmmCounted s.pageTable) : VmmCounted (vmmInit s).pageTable := by
  unfold vmmInit
  split
  · exact h
  · exact .of_released fun _ => rfl

theorem VmmRunSafe.counted_step (hsafe : VmmRunSafe t) (h : t.Has fun s => VmmCounted s.pageTable)
    (c : VmmRunCall) : (vmmRunStep t c).Has fun s => VmmCounted s.pageTable :=
  hsafe.has_step h (fun _ hs => hs.init) (fun _ _ _ _ _ _ hs hres => hs.reserveRange hres)
    (fun _ addr tag hs => hs.setTag addr tag) (fun _ _ _ _ _ _ hs hend => hs.allocated hend)
    fun _ addr hs => hs.freed addr

/-- In every state of every run the counts say what they should. -/
theorem vmmCounted_run (calls : List VmmRunCall)
    (hs : (runFrom vmmRunStep vmmRunStart calls).vmm = some s) : VmmCounted s.pageTable := by
  have start : vmmRunStart.Has fun s => VmmCounted s.pageTable := by
    rintro s hs
    obtain rfl := Option.some.inj hs
    exact .of_released fun _ => rfl
  have all := (everyStep_true vmmRunStep vmmRunStart calls).invariant
    (I := fun t => VmmRunSafe t ∧ t.Has fun s => VmmCounted s.pageTable)
    (fun _ c h _ => ⟨h.1.step c, h.1.counted_step h.2 c⟩) ⟨vmmRunSafe_start, start⟩
  exact all.2 s hs

end Run

end Unics
