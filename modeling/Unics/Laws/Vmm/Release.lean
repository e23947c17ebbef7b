import Unics.Laws.Vmm.Isolation

/-!
# All of a block, or nothing

`vmm_free` checks each page of a block just before it frees it, so a page that is not in use ends
the loop with the pages before it freed. Such a page is what `vmm_reserve_range` leaves when it
overwrites the inside of a block; nothing else does. `vmmFree_whole_iff` is the exact condition, in
every state that a run of calls reaches.
-/

namespace Unics

open Unics.Lib

/-- The free turns every page of one live block into a free page and changes nothing else, or it
changes no page. -/
def VmmFreeWhole (t : VmmRun) (s : Vmm) (addr : UIntPtr) : Prop :=
  (vmmFree s addr).pageTable = s.pageTable ∨
    ∃ b ∈ t.live, (∀ k, b.Has k → (vmmFree s addr).pageTable k = (s.pageTable k).release) ∧
      ∀ k, ¬ b.Has k → (vmmFree s addr).pageTable k = s.pageTable k

/-- The address is in the first page of a live block, that page is in use, and another page of the
block is not. -/
def VmmBlockCut (t : VmmRun) (s : Vmm) (addr : UIntPtr) : Prop :=
  ∃ b ∈ t.live, b.FirstPage addr ∧ (∃ i, b.At i ∧ (s.pageTable i).state = .used) ∧
    ∃ k, b.Has k ∧ (s.pageTable k).state ≠ .used

/-! ## The loop -/

/-- A loop over pages that are all in use frees all of them. -/
theorem vmmFreeLoop_of_used {table : VmmPageTable} {i n : Nat}
    (hused : ∀ k, i ≤ k → k < i + n → (table k).state = .used) (k : Nat) :
    vmmFreeLoop table i n k = if i ≤ k ∧ k < i + n then (table k).release else table k := by
  induction n generalizing table i with
  | zero => exact (if_neg (by omega)).symm
  | succ n ih =>
    have here := hused i (Nat.le_refl i) (by omega)
    rw [vmmFreeLoop, if_neg (not_not_intro here), ih]
    · by_cases heq : k = i
      · rw [if_neg (by omega), if_pos heq, if_pos (by omega), heq]
      · by_cases hin : i + 1 ≤ k ∧ k < i + 1 + n
        · rw [if_pos hin, if_neg heq, if_pos (by omega)]
        · rw [if_neg hin, if_neg heq, if_neg (by omega)]
    · intro k hk hlt
      rw [if_neg (by omega)]
      exact hused k (by omega) (by omega)

/-- A loop never frees a page that is not in use. -/
theorem vmmFreeLoop_of_not_used {table : VmmPageTable} {i n k : Nat}
    (h : (table k).state ≠ .used) : vmmFreeLoop table i n k = table k := by
  induction n generalizing table i with
  | zero => rfl
  | succ n ih =>
    rw [vmmFreeLoop]
    split
    · rfl
    · next hused =>
      have ne : k ≠ i := by
        rintro rfl
        exact hused h
      have same : (if k = i then (table i).release else table k) = table k := if_neg ne
      rw [ih (by rw [same]; exact h), same]

section Free

variable {t : VmmRun} {s : Vmm} {addr : UIntPtr}

/-- What a free does to a table with live blocks: nothing, or the loop runs over the pages of the
live block whose first page has the address. -/
inductive VmmFreeRuns (s : Vmm) (live : List VmmBlock) (addr : UIntPtr) : Vmm → Prop
  | same : VmmFreeRuns s live addr s
  | loop {b : VmmBlock} {i : Nat} (hb : b ∈ live) (hat : b.At i) (hfirst : b.FirstPage addr)
      (hused : (s.pageTable i).state = .used) :
      VmmFreeRuns s live addr
        { s with pageTable := vmmFreeLoop s.pageTable i (vmmPagesNeeded b.size).toNat }

theorem VmmHolds.free_runs {live : List VmmBlock} (h : VmmHolds s live) (addr : UIntPtr) :
    VmmFreeRuns s live addr (vmmFree s addr) := by
  unfold vmmFree
  split
  · exact .same
  split
  · exact .same
  next i hfound =>
  split
  · exact .same
  next hused =>
  dsimp only
  split
  · exact .same
  next hcount =>
  have hused := not_not.mp hused
  have count : (s.pageTable i).allocPages ≠ 0 := by
    intro hzero
    rw [hzero] at hcount
    exact hcount (.inl rfl)
  obtain ⟨b, hb, hat, hfirst, _⟩ := h.free_block hfound hused count (Nat.le_refl _)
  obtain ⟨j, hatj, _, hpages⟩ := h.first b hb
  obtain rfl : j = i := by
    have eq := hatj.1.symm.trans hat.1
    unfold vmmPageAddr at eq
    omega
  rw [hpages]
  exact .loop hb hat hfirst hused

/-- Where the block is not cut, the free is whole. -/
theorem VmmHolds.whole_of_not_cut (h : VmmHolds s t.live) (hcut : ¬ VmmBlockCut t s addr) :
    VmmFreeWhole t s addr := by
  have hruns := h.free_runs addr
  unfold VmmFreeWhole
  generalize vmmFree s addr = s' at hruns ⊢
  cases hruns with
  | same => exact .inl rfl
  | @loop b i hb hat hfirst hused =>
    have all : ∀ k, b.Has k → (s.pageTable k).state = .used := by
      intro k hk
      by_contra hne
      exact hcut ⟨b, hb, hfirst, ⟨i, hat, hused⟩, k, hk, hne⟩
    have used : ∀ k, i ≤ k → k < i + (vmmPagesNeeded b.size).toNat →
        (s.pageTable k).state = .used := fun k hik hk => all k (hat.has_iff.mpr ⟨hik, hk⟩)
    have loop := vmmFreeLoop_of_used used
    refine .inr ⟨b, hb, fun k hk => ?_, fun k hk => ?_⟩
    · show vmmFreeLoop s.pageTable i _ k = _
      rw [loop, if_pos (hat.has_iff.mp hk)]
    · show vmmFreeLoop s.pageTable i _ k = _
      rw [loop, if_neg fun hin => hk (hat.has_iff.mpr hin)]

/-- Where the block is cut, its first page is freed and a page of it stays. -/
theorem VmmHolds.not_whole_of_cut (h : VmmHolds s t.live) (hcut : VmmBlockCut t s addr) :
    ¬ VmmFreeWhole t s addr := by
  obtain ⟨b, hb, hfirst, ⟨i, hat, hused⟩, k, hk, hne⟩ := hcut
  have freed := h.free_first hb hfirst hat hused
  have stays : (vmmFree s addr).pageTable k = s.pageTable k := by
    have hruns := h.free_runs addr
    generalize vmmFree s addr = s' at hruns ⊢
    cases hruns with
    | same => rfl
    | loop => exact vmmFreeLoop_of_not_used hne
  rintro (hsame | ⟨b', hb', hall, hrest⟩)
  · rw [hsame, hused] at freed
    cases freed
  · -- the block that is freed has the first page of `b`, so it is `b`, and `k` should be free
    have here : b'.Has i := by
      by_contra hout
      rw [hrest i hout, hused] at freed
      cases freed
    obtain rfl := h.unique hb hb' hat.has_first here
    apply h.taken b hb k hk
    rw [← stays, hall k hk]
    rfl

end Free

theorem vmmRunSafe_run (calls : List VmmRunCall) :
    VmmRunSafe (runFrom vmmRunStep vmmRunStart calls) :=
  (everyStep_true vmmRunStep vmmRunStart calls).invariant (fun _ c h _ => h.step c)
    vmmRunSafe_start

/-- In every state that a run of calls reaches, and for every address: `vmm_free` frees all of one
live block or nothing exactly when no live block is cut there. -/
theorem vmmFree_whole_iff (calls : List VmmRunCall) (s : Vmm)
    (hs : (runFrom vmmRunStep vmmRunStart calls).vmm = some s) (addr : UIntPtr) :
    VmmFreeWhole (runFrom vmmRunStep vmmRunStart calls) s addr ↔
      ¬ VmmBlockCut (runFrom vmmRunStep vmmRunStart calls) s addr := by
  rcases (vmmRunSafe_run calls).holds s hs with ⟨rfl, hnone⟩ | holds
  · -- before `vmm_init` there is no block, and a free returns at once
    refine iff_of_true (.inl ?_) ?_
    · rw [vmmFree, if_pos (.inr rfl)]
    · rintro ⟨b, hb, _⟩
      rw [hnone] at hb
      exact absurd hb List.not_mem_nil
  · constructor
    · intro hwhole hcut
      exact holds.not_whole_of_cut hcut hwhole
    · exact holds.whole_of_not_cut

/-- A block of three pages behind another that is reserved. -/
def reservedBehind : List VmmRunCall :=
  [.init, .call (.alloc 0x1000), .call (.alloc 0x3000), .reserveRange 0x100000 0x101000]

theorem vmmFree_whole_iff_behind :
    ∃ s, (runFrom vmmRunStep vmmRunStart reservedBehind).vmm = some s ∧
      (s.pageTable 1).state = .used ∧
      (VmmFreeWhole (runFrom vmmRunStep vmmRunStart reservedBehind) s 0x101000 ↔
        ¬ VmmBlockCut (runFrom vmmRunStep vmmRunStart reservedBehind) s 0x101000) := by
  have states : (runFrom vmmRunStep vmmRunStart reservedBehind).vmm.map
      (fun s => (s.pageTable 1).state) = some .used := by
    decide +kernel
  obtain ⟨s, hs, used⟩ := Option.map_eq_some_iff.mp states
  exact ⟨s, hs, used, vmmFree_whole_iff reservedBehind s hs 0x101000⟩

/-- A block of three pages whose last page is reserved: the free stops there, with two pages freed.
-/
theorem vmmFree_not_whole :
    ¬ ∀ (calls : List VmmRunCall) (s : Vmm),
      (runFrom vmmRunStep vmmRunStart calls).vmm = some s →
        ∀ addr, VmmFreeWhole (runFrom vmmRunStep vmmRunStart calls) s addr := by
  intro hall
  let calls : List VmmRunCall :=
    [.init, .call (.alloc 0x3000), .reserveRange 0x102000 0x103000]
  have states : (runFrom vmmRunStep vmmRunStart calls).vmm.map (fun s =>
      ((s.pageTable 0).state, (s.pageTable 2).state)) = some (.used, .reserved) := by
    decide +kernel
  obtain ⟨s, hs, held⟩ := Option.map_eq_some_iff.mp states
  obtain ⟨used, reserved⟩ := Prod.mk.inj held
  have live : { addr := 0x100000, size := 0x3000 } ∈ (runFrom vmmRunStep vmmRunStart calls).live :=
    by decide +kernel
  have at_ : VmmBlock.At { addr := 0x100000, size := 0x3000 } 0 := ⟨rfl, by decide⟩
  have cut : VmmBlockCut (runFrom vmmRunStep vmmRunStart calls) s 0x100000 := by
    refine ⟨_, live, by decide, ⟨0, at_, used⟩, 2, at_.has_iff.mpr (by decide), ?_⟩
    rw [reserved]
    exact VmmPageState.noConfusion
  rcases (vmmRunSafe_run calls).holds s hs with ⟨-, hnone⟩ | holds
  · rw [hnone] at live
    exact absurd live List.not_mem_nil
  · exact holds.not_whole_of_cut cut (hall calls s hs 0x100000)

end Unics
