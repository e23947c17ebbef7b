import Unics.Laws.Pmm.RoundTrip

/-!
# The attempts of a single-page call

`pmm_alloc_page_zone` tries the regions of the zone in list order, then all regions, until one of
them answers a page. `alloc_page_from_region` marks the page it stops with before its caller looks
at the address, and the page at address 0 looks like a failure: such a region has been written to
although the call goes on. Trying it again changes nothing more (`visited_visited`), so what a call
leaves behind is settled by the order of the first attempts (`Giver.call`).

This is the law of the call for any regions that `pmm_add_region` makes, wherever they lie.
-/

namespace Unics

open Unics.Lib

/-- What `pmm_add_region` settles about every region. -/
structure PmmShape.Made (h : PmmShape) : Prop extends h.Framed where
  words : h.bitmapSize.toNat = h.words

theorem newRegion_made (base : UIntPtr) (size : SizeT) (zone : PmmZone) :
    (newRegion base size zone).shape.Made where
  toFramed := newRegion_framed base size zone
  words := List.length_replicate.symm

/-! ## One attempt -/

/-- The region after an attempt. -/
def PmmRegion.visited (r : PmmRegion) : PmmRegion :=
  match r.stopWord with
  | some w => r.takePage (r.mirrorPage w)
  | none => r

/-- The attempt answers an address, and not the null pointer. -/
def PmmRegion.gives (r : PmmRegion) : Bool :=
  match r.stopWord with
  | some w => r.pageAddr (r.mirrorPage w) != null
  | none => false

section Attempt

variable {r : PmmRegion} {w j : Nat}

theorem allocPageFromRegion_fst (r : PmmRegion) : (allocPageFromRegion r).1 = r.visited := by
  rw [allocPageFromRegion_eq, PmmRegion.visited]
  cases r.stopWord <;> rfl

theorem allocPageFromRegion_snd_ne (r : PmmRegion) :
    (allocPageFromRegion r).2 ≠ null ↔ r.gives = true := by
  rw [allocPageFromRegion_eq, PmmRegion.gives]
  cases r.stopWord with
  | none => exact iff_of_false (fun h => h rfl) Bool.false_ne_true
  | some w => exact bne_iff_ne.symm

theorem PmmRegion.visited_of_stop (h : r.stopWord = some w) :
    r.visited = r.takePage (r.mirrorPage w) := by
  rw [PmmRegion.visited, h]

/-- A region that gives a page stops the search away from address 0. -/
theorem PmmRegion.gives_iff :
    r.gives = true ↔ ∃ w, r.stopWord = some w ∧ r.pageAddr (r.mirrorPage w) ≠ null := by
  rw [PmmRegion.gives]
  cases r.stopWord with
  | none => simp
  | some w => simp

@[simp] theorem shape_visited (r : PmmRegion) : r.visited.shape = r.shape := by
  rw [PmmRegion.visited]
  split
  · exact shape_takePage r _
  · rfl

theorem PmmRegion.word_of_made (hr : r.shape.Made) {i : Nat} (hi : i < r.pages.toNat) :
    i / 64 < r.bitmap.length := by
  have cover : r.pages.toNat ≤ 64 * r.bitmap.length := hr.cover
  omega

/-- The bits of a region after an attempt. -/
theorem testBit64_visited (hr : r.shape.Made) :
    testBit64 r.visited.bitmap j = true ↔
      testBit64 r.bitmap j = true ∨ ∃ w, r.stopWord = some w ∧ j = r.mirrorPage w := by
  cases hstop : r.stopWord with
  | none =>
    rw [PmmRegion.visited, hstop]
    simp
  | some w =>
    have word := PmmRegion.word_of_made hr (PmmRegion.mirrorPage_lt hstop)
    rw [PmmRegion.visited_of_stop hstop, PmmRegion.takePage, testBit64_setBit64 word,
      Bool.or_eq_true, decide_eq_true_eq, or_comm]
    simp only [Option.some.injEq, exists_eq_left', eq_comm]

/-- Setting the mirror image of the highest clear bit leaves it the highest clear bit: 63 is odd, so
no bit is its own mirror image. -/
theorem highestClear_mark {word : BitVec 64} (hne : word ≠ BitVec.allOnes 64) :
    IsHighestClear (word ||| 1#64 <<< (63 - highestClear word)) (highestClear word) := by
  obtain ⟨lt, clear, above⟩ := isHighestClear_highestClear hne
  refine ⟨lt, ?_, fun k hk hlt => ?_⟩
  · rw [BitVec.getLsbD_or, clear, Bool.false_or, BitVec.getLsbD_shiftLeft, BitVec.getLsbD_one]
    have : highestClear word - (63 - highestClear word) ≠ 0 ∨
        highestClear word < 63 - highestClear word := by omega
    rcases this with h | h
    · simp [h]
    · simp [h]
  · rw [BitVec.getLsbD_or, above k hk hlt, Bool.true_or]

theorem ne_allOnes_of_highest {word : BitVec 64} {h : Nat} (hh : IsHighestClear word h) :
    word ≠ BitVec.allOnes 64 := by
  intro hfull
  have clear := hh.2.1
  rw [hfull, BitVec.getLsbD_allOnes, decide_eq_true hh.1] at clear
  cases clear

theorem highestClear_eq {word : BitVec 64} {h : Nat} (hh : IsHighestClear word h) :
    highestClear word = h :=
  (isHighestClear_highestClear (ne_allOnes_of_highest hh)).unique hh

/-- The word that stops a search still names the same page once that page is marked. -/
theorem PmmRegion.mirrorPage_takePage (hr : r.shape.Made) (hstop : r.stopWord = some w) :
    (r.takePage (r.mirrorPage w)).stopWord = some w ∧
      (r.takePage (r.mirrorPage w)).mirrorPage w = r.mirrorPage w := by
  have inside := PmmRegion.mirrorPage_lt hstop
  have cover : r.pages.toNat ≤ 64 * r.bitmap.length := hr.cover
  have small : 4096 * r.pages.toNat < 2 ^ 32 := hr.small
  have size : r.bitmapSize.toNat = r.bitmap.length := hr.words
  have index : r.mirrorPage w / 64 = w := by unfold PmmRegion.mirrorPage; omega
  have offset : r.mirrorPage w % 64 = 63 - highestClear (bitmapWord r.bitmap w) := by
    unfold PmmRegion.mirrorPage
    omega
  have word_lt : w < r.bitmap.length := by omega
  have notFull : bitmapWord r.bitmap w ≠ BitVec.allOnes 64 := by
    have stops := List.find?_some hstop
    rw [PmmRegion.stopsAt, Bool.and_eq_true] at stops
    exact bne_iff_ne.mp stops.1
  have word : bitmapWord (r.takePage (r.mirrorPage w)).bitmap w =
      bitmapWord r.bitmap w ||| 1#64 <<< (63 - highestClear (bitmapWord r.bitmap w)) := by
    show (setBit64 r.bitmap (r.mirrorPage w)).getD w 0 = _
    rw [setBit64, index, offset, List.getD_eq_getElem?_getD, List.getElem?_set_self word_lt]
    rfl
  have highest := highestClear_mark notFull
  rw [← word] at highest
  have same : (r.takePage (r.mirrorPage w)).mirrorPage w = r.mirrorPage w := by
    rw [PmmRegion.mirrorPage, highestClear_eq highest]
    rfl
  refine ⟨?_, same⟩
  have hint : (r.takePage (r.mirrorPage w)).lastAlloc.toNat / 64 = w := by
    show (BitVec.ofNat 32 (r.mirrorPage w)).toNat / 64 = w
    rw [BitVec.toNat_ofNat, Nat.mod_eq_of_lt (by omega), index]
  have first : (r.takePage (r.mirrorPage w)).searchOrder =
      w :: (List.range' (w + 1) (r.bitmapSize.toNat - (w + 1)) ++ List.range w) := by
    rw [PmmRegion.searchOrder, hint]
    show List.range' w (r.bitmapSize.toNat - w) ++ _ = _
    rw [show r.bitmapSize.toNat - w = r.bitmapSize.toNat - (w + 1) + 1 by omega,
      List.range'_succ, List.cons_append]
  have stops : (r.takePage (r.mirrorPage w)).stopsAt w = true := by
    rw [PmmRegion.stopsAt, same, bne_iff_ne.mpr (ne_allOnes_of_highest highest)]
    exact decide_eq_true inside
  rw [PmmRegion.stopWord, first, List.find?_cons, stops]

/-- A second attempt on the same region changes nothing more and answers the same. -/
theorem visited_visited (hr : r.shape.Made) :
    r.visited.visited = r.visited ∧ r.visited.gives = r.gives := by
  cases hstop : r.stopWord with
  | none =>
    have same : r.visited = r := by rw [PmmRegion.visited, hstop]
    rw [same]
    exact ⟨same, rfl⟩
  | some w =>
    obtain ⟨stop', page'⟩ := PmmRegion.mirrorPage_takePage hr hstop
    have inside := PmmRegion.mirrorPage_lt hstop
    have cover : r.pages.toNat ≤ 64 * r.bitmap.length := hr.cover
    rw [PmmRegion.visited_of_stop hstop]
    constructor
    · rw [PmmRegion.visited_of_stop stop', page']
      have bitmap : setBit64 (setBit64 r.bitmap (r.mirrorPage w)) (r.mirrorPage w) =
          setBit64 r.bitmap (r.mirrorPage w) := by
        refine bitmap_ext (length_setBit64 _ _) fun j => ?_
        rw [testBit64_setBit64 (by rw [length_setBit64]; omega), testBit64_setBit64 (by omega),
          ← Bool.or_assoc, Bool.or_self]
      simp only [PmmRegion.takePage, bitmap]
    · rw [PmmRegion.gives, PmmRegion.gives, stop', hstop]
      simp only [page']
      rfl

end Attempt

/-! ## Two passes -/

/-- What a pass leaves of a region that it goes past. -/
def PmmRegion.passed (want : PmmRegion → Bool) (r : PmmRegion) : PmmRegion :=
  if want r then r.visited else r

section Pass

variable {want : PmmRegion → Bool} {pre post regions : List PmmRegion} {r : PmmRegion}

theorem gives_passed (hr : r.shape.Made) : (r.passed want).gives = r.gives := by
  rw [PmmRegion.passed]
  split
  · exact (visited_visited hr).2
  · rfl

/-- A pass over all regions, after one over some. -/
theorem passed_passed (hr : r.shape.Made) :
    (r.passed want).passed (fun _ => true) = r.visited := by
  show (r.passed want).visited = r.visited
  rw [PmmRegion.passed]
  split
  · exact (visited_visited hr).1
  · rfl

theorem allocPageFrom_cons (want : PmmRegion → Bool) (r : PmmRegion) (rest : List PmmRegion) :
    allocPageFrom want (r :: rest) =
      if want r = true ∧ r.gives = true then (r.visited :: rest, (allocPageFromRegion r).2)
      else (r.passed want :: (allocPageFrom want rest).1, (allocPageFrom want rest).2) := by
  rw [allocPageFrom, PmmRegion.passed]
  by_cases hw : want r = true
  · simp only [hw, if_true, true_and]
    by_cases hg : r.gives = true
    · rw [if_pos ((allocPageFromRegion_snd_ne r).mpr hg), if_pos hg, allocPageFromRegion_fst]
    · rw [if_neg fun hne => hg ((allocPageFromRegion_snd_ne r).mp hne), if_neg hg,
        allocPageFromRegion_fst]
  · simp only [hw, Bool.false_eq_true, if_false, false_and]

/-- A pass in which no region gives a page. -/
theorem allocPageFrom_of_none (want : PmmRegion → Bool) (regions : List PmmRegion)
    (h : ∀ q ∈ regions, want q = true → q.gives = false) :
    allocPageFrom want regions = (regions.map (·.passed want), null) := by
  induction regions with
  | nil => rfl
  | cons q rest ih =>
    obtain ⟨hq, hrest⟩ := List.forall_mem_cons.mp h
    have fails : ¬ (want q = true ∧ q.gives = true) := by
      rintro ⟨hw, hg⟩
      rw [hq hw] at hg
      cases hg
    rw [allocPageFrom_cons, if_neg fails, ih hrest, List.map_cons]

/-- A pass ends at the first region that gives a page. -/
theorem allocPageFrom_of_gives (want : PmmRegion → Bool) (pre post : List PmmRegion)
    (h : ∀ q ∈ pre, want q = true → q.gives = false)
    (hw : want r = true) (hg : r.gives = true) :
    allocPageFrom want (pre ++ r :: post) =
      (pre.map (·.passed want) ++ r.visited :: post, (allocPageFromRegion r).2) := by
  induction pre with
  | nil => rw [List.nil_append, allocPageFrom_cons, if_pos ⟨hw, hg⟩]; rfl
  | cons q pre ih =>
    obtain ⟨hq, hrest⟩ := List.forall_mem_cons.mp h
    have fails : ¬ (want q = true ∧ q.gives = true) := by
      rintro ⟨hw, hg⟩
      rw [hq hw] at hg
      cases hg
    rw [List.cons_append, allocPageFrom_cons, if_neg fails, ih hrest, List.map_cons,
      List.cons_append]

/-- The first region of a list that gives a page, if there is one. -/
theorem gives_split (want : PmmRegion → Bool) (regions : List PmmRegion) :
    (∀ q ∈ regions, want q = true → q.gives = false) ∨
      ∃ pre r post, regions = pre ++ r :: post ∧ want r = true ∧ r.gives = true ∧
        ∀ q ∈ pre, want q = true → q.gives = false := by
  induction regions with
  | nil => exact .inl fun q hq => absurd hq List.not_mem_nil
  | cons q rest ih =>
    by_cases hq : want q = true ∧ q.gives = true
    · exact .inr ⟨[], q, rest, rfl, hq.1, hq.2, fun _ h => absurd h List.not_mem_nil⟩
    · have fails : want q = true → q.gives = false := by
        intro hw
        exact Bool.eq_false_iff.mpr fun hg => hq ⟨hw, hg⟩
      rcases ih with hnone | ⟨pre, r, post, rfl, hw, hg, hpre⟩
      · exact .inl (List.forall_mem_cons.mpr ⟨fails, hnone⟩)
      · exact .inr ⟨q :: pre, r, post, rfl, hw, hg, List.forall_mem_cons.mpr ⟨fails, hpre⟩⟩

end Pass

/-! ## The call -/

/-- The call tries region `q`, number `k` of the list, before region `r`, number `n`: in the first
pass if both are of the zone, else in the first pass or in the second. -/
def Tried (zone : PmmZone) (r : PmmRegion) (n k : Nat) (q : PmmRegion) : Prop :=
  (r.zone = zone ∧ k < n ∧ q.zone = zone) ∨ (r.zone ≠ zone ∧ (k < n ∨ q.zone = zone))

instance (zone : PmmZone) (r : PmmRegion) (n k : Nat) (q : PmmRegion) :
    Decidable (Tried zone r n k q) := inferInstanceAs (Decidable (_ ∨ _))

/-- Region `r` gives the call its page, at word `w`, and the regions tried before it give none. -/
structure Giver (regions : List PmmRegion) (zone : PmmZone) (pre : List PmmRegion) (r : PmmRegion)
    (post : List PmmRegion) (w : Nat) : Prop where
  split : regions = pre ++ r :: post
  stop : r.stopWord = some w
  page : r.pageAddr (r.mirrorPage w) ≠ null
  tried : ∀ k q, regions[k]? = some q → Tried zone r pre.length k q → q.gives = false

/-- What a call leaves of each region when region number `n` gives the page: that one and the ones
tried before it are as an attempt leaves them. -/
def LeavesTried (regions : List PmmRegion) (zone : PmmZone) (r : PmmRegion) (n : Nat)
    (after : List PmmRegion) : Prop :=
  after.length = regions.length ∧ ∀ k q, regions[k]? = some q →
    after[k]? = some (if k = n ∨ Tried zone r n k q then q.visited else q)

section Call

variable {s : Pmm} {pre post regions : List PmmRegion} {r : PmmRegion} {zone : PmmZone} {w : Nat}

/-- A list in which the regions before and after number `n` are changed as the attempts change them.
-/
theorem leavesTried_around (zone : PmmZone) {f g : PmmRegion → PmmRegion}
    (hsplit : regions = pre ++ r :: post)
    (hf : ∀ k q, k < pre.length →
      f q = if Tried zone r pre.length k q then q.visited else q)
    (hg : ∀ k q, pre.length < k →
      g q = if Tried zone r pre.length k q then q.visited else q) :
    LeavesTried regions zone r pre.length (pre.map f ++ r.visited :: post.map g) := by
  subst hsplit
  refine ⟨by simp, fun k q hk => ?_⟩
  rcases Nat.lt_trichotomy k pre.length with lt | eq | gt
  · rw [List.getElem?_append_left lt] at hk
    have away : k ≠ pre.length := Nat.ne_of_lt lt
    rw [List.getElem?_append_left (by rw [List.length_map]; exact lt), List.getElem?_map, hk,
      Option.map_some, hf k q lt]
    simp only [away, false_or]
  · subst eq
    have same : r = q := by simpa using hk
    subst same
    simp
  · have away : k ≠ pre.length := Nat.ne_of_gt gt
    obtain ⟨j, hj⟩ : ∃ j, k - pre.length = j + 1 := ⟨k - pre.length - 1, by omega⟩
    rw [List.getElem?_append_right (by omega), hj, List.getElem?_cons_succ] at hk
    rw [List.getElem?_append_right (by rw [List.length_map]; omega), List.length_map, hj,
      List.getElem?_cons_succ, List.getElem?_map, hk, Option.map_some, hg k q gt]
    simp only [away, false_or]

/-- Some region gives the call a page, or none does. -/
theorem giver_or_none (regions : List PmmRegion) (zone : PmmZone) :
    (∀ q ∈ regions, q.gives = false) ∨ ∃ pre r post w, Giver regions zone pre r post w := by
  rcases gives_split (fun q => q.zone == zone) regions with
    hzone | ⟨pre, r, post, split, hw, hg, hpre⟩
  · rcases gives_split (fun _ => true) regions with hnone | ⟨pre, r, post, split, -, hg, hpre⟩
    · exact .inl fun q hq => hnone q hq rfl
    · obtain ⟨w, stop, page⟩ := PmmRegion.gives_iff.mp hg
      refine .inr ⟨pre, r, post, w, split, stop, page, fun k q hk htried => ?_⟩
      rcases htried with ⟨hr, -⟩ | ⟨-, hlt | hq⟩
      · have mem : r ∈ regions := by rw [split]; exact List.mem_append_cons_self
        rw [hzone r mem (beq_iff_eq.mpr hr)] at hg
        cases hg
      · rw [split, List.getElem?_append_left hlt] at hk
        exact hpre q (List.mem_of_getElem? hk) rfl
      · exact hzone q (List.mem_of_getElem? hk) (beq_iff_eq.mpr hq)
  · obtain ⟨w, stop, page⟩ := PmmRegion.gives_iff.mp hg
    refine .inr ⟨pre, r, post, w, split, stop, page, fun k q hk htried => ?_⟩
    rcases htried with ⟨-, hlt, hq⟩ | ⟨hr, -⟩
    · rw [split, List.getElem?_append_left hlt] at hk
      exact hpre q (List.mem_of_getElem? hk) (beq_iff_eq.mpr hq)
    · exact absurd (beq_iff_eq.mp hw) hr

/-- A call that no region gives a page has tried them all. -/
theorem pmmAllocPageZone_of_none (hmade : ∀ r ∈ s.regions, r.shape.Made)
    (hinit : s.initialized = true) (hnone : ∀ q ∈ s.regions, q.gives = false) :
    pmmAllocPageZone s zone = ({ s with regions := s.regions.map PmmRegion.visited }, null) := by
  have first := allocPageFrom_of_none (fun q => q.zone == zone) s.regions fun q hq _ => hnone q hq
  have second := allocPageFrom_of_none (fun _ => true)
    (s.regions.map (·.passed fun q => q.zone == zone)) fun q hq _ => by
      obtain ⟨p, hp, rfl⟩ := List.mem_map.mp hq
      rw [gives_passed (hmade p hp)]
      exact hnone p hp
  have all : (s.regions.map (·.passed fun q => q.zone == zone)).map (·.passed fun _ => true) =
      s.regions.map PmmRegion.visited := by
    rw [List.map_map]
    exact List.map_congr_left fun p hp => passed_passed (hmade p hp)
  rw [all] at second
  simp only [pmmAllocPageZone, hinit, Bool.not_true, Bool.false_eq_true, if_false, first, second,
    ne_eq, not_true_eq_false]

namespace Giver

variable (hmade : ∀ r ∈ s.regions, r.shape.Made) (hinit : s.initialized = true)
  (h : Giver s.regions zone pre r post w)

include h

theorem gives : r.gives = true := PmmRegion.gives_iff.mpr ⟨w, h.stop, h.page⟩

theorem mem : r ∈ s.regions := by
  rw [h.split]
  exact List.mem_append_cons_self

theorem answer : (allocPageFromRegion r).2 = r.pageAddr (r.mirrorPage w) := by
  rw [allocPageFromRegion_eq, h.stop]

/-- A region in front of the giver, by its number. -/
theorem before {q : PmmRegion} (hq : q ∈ pre) : ∃ k < pre.length, s.regions[k]? = some q := by
  obtain ⟨k, hk⟩ := List.getElem?_of_mem hq
  have lt : k < pre.length := (List.getElem?_eq_some_iff.mp hk).1
  exact ⟨k, lt, by rw [h.split, List.getElem?_append_left lt, hk]⟩

/-- The giver, by its number. -/
theorem here : s.regions[pre.length]? = some r := by
  rw [h.split]
  simp

/-- A region that the call tries and that gives a page is the giver. -/
theorem eq_of_gives {k : Nat} {q : PmmRegion} (hq : s.regions[k]? = some q)
    (hwhere : k = pre.length ∨ Tried zone r pre.length k q) (gives : q.gives = true) :
    k = pre.length ∧ q = r := by
  have at_ : k = pre.length := by
    refine hwhere.resolve_right fun ht => ?_
    rw [h.tried k q hq ht] at gives
    cases gives
  rw [at_, h.here] at hq
  exact ⟨at_, (Option.some.inj hq).symm⟩

/-- The giver is not among the regions tried before it. -/
theorem not_tried {k : Nat} {q : PmmRegion} (hq : s.regions[k]? = some q)
    (ht : Tried zone r pre.length k q) : k ≠ pre.length := by
  rintro rfl
  have fails := h.tried _ q hq ht
  rw [h.here] at hq
  obtain rfl := Option.some.inj hq
  rw [h.gives] at fails
  cases fails

include hinit

/-- A giver of the zone ends the first pass. -/
theorem call_preferred (hz : r.zone = zone) :
    ∃ after, LeavesTried s.regions zone r pre.length after ∧
      pmmAllocPageZone s zone = ({ s with regions := after }, r.pageAddr (r.mirrorPage w)) := by
  have first := allocPageFrom_of_gives (fun q => q.zone == zone) pre post (fun q hq hw => by
      obtain ⟨k, lt, hk⟩ := h.before hq
      exact h.tried k q hk (.inl ⟨hz, lt, beq_iff_eq.mp hw⟩)) (beq_iff_eq.mpr hz) h.gives
  rw [← h.split, h.answer, ← List.map_id post] at first
  have leaves := leavesTried_around zone (f := (·.passed fun q => q.zone == zone))
    (g := id) h.split (fun k q lt => by
      simp only [PmmRegion.passed, Tried, hz, lt, beq_iff_eq, true_and, ne_eq, not_true_eq_false,
        false_and, or_false]) (fun k q gt => by
      have untried : ¬ Tried zone r pre.length k q := by
        rintro (⟨-, lt, -⟩ | ⟨hne, -⟩)
        · omega
        · exact hne hz
      rw [if_neg untried]
      rfl)
  refine ⟨_, leaves, ?_⟩
  simp only [pmmAllocPageZone, hinit, Bool.not_true, Bool.false_eq_true, if_false, first]
  exact if_pos h.page

include hmade

/-- Any other giver ends the second pass, after a first one that has tried the whole zone. -/
theorem call_fallback (hz : r.zone ≠ zone) :
    ∃ after, LeavesTried s.regions zone r pre.length after ∧
      pmmAllocPageZone s zone = ({ s with regions := after }, r.pageAddr (r.mirrorPage w)) := by
  have first := allocPageFrom_of_none (fun q => q.zone == zone) s.regions fun q hq hw => by
      obtain ⟨k, hk⟩ := List.getElem?_of_mem hq
      exact h.tried k q hk (.inr ⟨hz, .inr (beq_iff_eq.mp hw)⟩)
  have made {q : PmmRegion} (hq : q ∈ pre) : q.shape.Made := by
    obtain ⟨k, -, hk⟩ := h.before hq
    exact hmade q (List.mem_of_getElem? hk)
  have preFails {q : PmmRegion} (hq : q ∈ pre) : q.gives = false := by
    obtain ⟨k, lt, hk⟩ := h.before hq
    exact h.tried k q hk (.inr ⟨hz, .inl lt⟩)
  have second := allocPageFrom_of_gives (fun _ => true) (pre.map (·.passed fun q => q.zone == zone))
    (post.map (·.passed fun q => q.zone == zone)) (fun q hq _ => by
      obtain ⟨p, hp, rfl⟩ := List.mem_map.mp hq
      rw [gives_passed (made hp)]
      exact preFails hp) rfl h.gives
  have twice : (pre.map (·.passed fun q => q.zone == zone)).map (·.passed fun _ => true) =
      pre.map PmmRegion.visited := by
    rw [List.map_map]
    exact List.map_congr_left fun p hp => passed_passed (made hp)
  have other : r.passed (fun q => q.zone == zone) = r := by
    rw [PmmRegion.passed, if_neg fun hw => hz (beq_iff_eq.mp hw)]
  rw [twice, h.answer] at second
  have leaves := leavesTried_around zone (f := PmmRegion.visited)
    (g := (·.passed fun q => q.zone == zone)) h.split
    (fun k q lt => (if_pos (.inr ⟨hz, .inl lt⟩)).symm) (fun k q gt => by
      have far : ¬ k < pre.length := Nat.not_lt_of_gt gt
      simp only [PmmRegion.passed, Tried, hz, far, beq_iff_eq, false_and, false_or, ne_eq,
        not_false_eq_true, true_and])
  refine ⟨_, leaves, ?_⟩
  have between : s.regions.map (·.passed fun q => q.zone == zone) =
      pre.map (·.passed fun q => q.zone == zone) ++
        r :: post.map (·.passed fun q => q.zone == zone) := by
    rw [h.split, List.map_append, List.map_cons, other]
  simp only [pmmAllocPageZone, hinit, Bool.not_true, Bool.false_eq_true, if_false, first, between,
    second, ne_eq, not_true_eq_false]

/-- A call answers the page of its giver, and leaves marked the regions it tried before that. -/
theorem call :
    ∃ after, LeavesTried s.regions zone r pre.length after ∧
      pmmAllocPageZone s zone = ({ s with regions := after }, r.pageAddr (r.mirrorPage w)) := by
  by_cases hz : r.zone = zone
  · exact h.call_preferred hinit hz
  · exact h.call_fallback hmade hinit hz

end Giver

end Call

end Unics
