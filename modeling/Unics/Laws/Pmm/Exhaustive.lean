import Unics.Laws.Pmm.Ownership

/-!
# When a single-page search misses nothing

`pmm_alloc_page_zone` should take a clear page of the zone if there is one, else a clear page of
another region, and answer null only when every page is taken. What it does instead follows the
index it counts from the wrong end of a word, in two ways. Where it stops, that index may name a
page that is taken. And it may pass over a word with a clear page in it, when the index lies behind
the region's last page (`PmmRegion.Hides`); this happens in the last word only, and only when the
page count is no multiple of 64. `pmmAllocPageZone_exhaustive_iff` says that nothing else goes
wrong, for any bitmaps and hints.
-/

namespace Unics

open Unics.Lib

/-- Some page of a region with `want` is clear. -/
def HasClear (regions : List PmmRegion) (want : PmmRegion → Prop) : Prop :=
  ∃ r ∈ regions, want r ∧ ∃ i < r.pages.toNat, testBit64 r.bitmap i = false

/-- The call takes one page, of a region and an index with `want`. -/
def TakesPage (s : Pmm) (res : Pmm × UIntPtr) (want : PmmRegion → Nat → Prop) : Prop :=
  ∃ pre r post i, s.regions = pre ++ r :: post ∧ i < r.pages.toNat ∧ want r i ∧
    res = ({ s with regions := pre ++ r.takePage i :: post }, r.pageAddr i)

/-- What an exhaustive search does, which prefers one zone. -/
structure SearchesAll (s : Pmm) (zone : PmmZone) (res : Pmm × UIntPtr) : Prop where
  preferred : HasClear s.regions (·.zone = zone) →
    TakesPage s res fun r i => r.zone = zone ∧ testBit64 r.bitmap i = false
  fallback : ¬ HasClear s.regions (·.zone = zone) → HasClear s.regions (fun _ => True) →
    TakesPage s res fun r i => r.zone ≠ zone ∧ testBit64 r.bitmap i = false
  null_iff : res.2 = null ↔ ¬ HasClear s.regions fun _ => True
  /-- Whatever is answered is a page, and not an index behind the last one. -/
  inside : res.2 ≠ null → TakesPage s res fun _ _ => True

/-- A word with a clear page in it, whose counted index lies behind the region's last page. -/
def PmmRegion.Hides (r : PmmRegion) (w : Nat) : Prop :=
  r.pages.toNat ≤ r.mirrorPage w ∧ ∃ i < r.pages.toNat, i / 64 = w ∧ testBit64 r.bitmap i = false

/-- In the regions that the search passes over from end to end, no word hides a page. -/
def NothingHidden (s : Pmm) (zone : PmmZone) : Prop :=
  (stopRegion (fun r => r.zone == zone) s.regions = none →
    ∀ r ∈ s.regions, r.zone = zone → ∀ w, ¬ r.Hides w) ∧
  (pageStop s.regions zone = none → ∀ r ∈ s.regions, ∀ w, ¬ r.Hides w)

/-! ## Passing over a region -/

section Region

variable {r : PmmRegion}

/-- The two loops visit every word. -/
theorem PmmRegion.mem_searchOrder {w : Nat} (hw : w < r.bitmapSize.toNat) : w ∈ r.searchOrder := by
  rw [PmmRegion.searchOrder, List.mem_append, List.mem_range'_1, List.mem_range]
  omega

/-- A word with a clear bit is not full. -/
theorem bitmapWord_ne_allOnes {bitmap : List (BitVec 64)} {i : Nat}
    (hclear : testBit64 bitmap i = false) : bitmapWord bitmap (i / 64) ≠ BitVec.allOnes 64 := by
  intro hfull
  have bit : (bitmapWord bitmap (i / 64)).getLsbD (i % 64) = false := by
    rw [testBit64_eq] at hclear
    exact hclear
  have low : i % 64 < 64 := Nat.mod_lt i (by decide)
  rw [hfull, BitVec.getLsbD_allOnes, decide_eq_true low] at bit
  cases bit

/-- A region that the search passes over has a clear page exactly when one of its words hides it. -/
theorem PmmRegion.clear_iff_hides (hwf : r.shape.Wf) (hstop : r.stopWord = none) :
    (∃ i < r.pages.toNat, testBit64 r.bitmap i = false) ↔ ∃ w, r.Hides w := by
  constructor
  · rintro ⟨i, hi, hclear⟩
    have words : r.bitmapSize.toNat = r.bitmap.length := hwf.words
    have visited : i / 64 ∈ r.searchOrder := by
      apply r.mem_searchOrder
      rw [words]
      exact hwf.word_lt hi
    have passed := List.find?_eq_none.mp hstop (i / 64) visited
    refine ⟨i / 64, Nat.le_of_not_lt fun hlt => passed ?_, i, hi, rfl, hclear⟩
    rw [PmmRegion.stopsAt, bne_iff_ne.mpr (bitmapWord_ne_allOnes hclear), decide_eq_true hlt]
    rfl
  · rintro ⟨w, -, i, hi, -, hclear⟩
    exact ⟨i, hi, hclear⟩

end Region

/-! ## Passing over a list -/

section Passes

variable {regions : List PmmRegion} {want : PmmRegion → Bool} {zone : PmmZone} {r : PmmRegion}
  {w : Nat}

theorem stopRegion_eq_none :
    stopRegion want regions = none ↔ ∀ r ∈ regions, want r = true → r.stopWord = none := by
  rw [stopRegion, List.findSome?_eq_none_iff]
  refine forall₂_congr fun r _ => ?_
  by_cases hw : want r = true
  · rw [if_pos hw, Option.map_eq_none_iff]
    exact ⟨fun h _ => h, fun h => h hw⟩
  · rw [if_neg hw]
    exact iff_of_true rfl fun h => absurd h hw

theorem stopRegion_want (h : stopRegion want regions = some (r, w)) : want r = true := by
  obtain ⟨q, -, heq⟩ := List.exists_of_findSome?_eq_some h
  by_cases hw : want q = true
  · rw [if_pos hw] at heq
    obtain ⟨v, -, pair⟩ := Option.map_eq_some_iff.mp heq
    rw [← (Prod.mk.inj pair).1]
    exact hw
  · rw [if_neg hw] at heq
    cases heq

/-- The search stops in the zone exactly when its first pass stops. -/
theorem pageStop_zone (h : pageStop regions zone = some (r, w)) :
    r.zone = zone ↔ stopRegion (fun r => r.zone == zone) regions ≠ none := by
  obtain ⟨mem, stops⟩ := pageStop_eq_some h
  constructor
  · intro hzone hnone
    have none := stopRegion_eq_none.mp hnone r mem (beq_iff_eq.mpr hzone)
    rw [stops] at none
    cases none
  · intro hsome
    obtain ⟨found, hfound⟩ := Option.ne_none_iff_exists'.mp hsome
    rw [pageStop, hfound, Option.some_or] at h
    obtain rfl := Option.some.inj h
    exact beq_iff_eq.mp (stopRegion_want hfound)

/-- Regions that hide nothing and stop no search have no clear page. -/
theorem not_hasClear {P : PmmRegion → Prop} (hwf : ∀ r ∈ regions, r.shape.Wf)
    (hstop : ∀ r ∈ regions, P r → r.stopWord = none)
    (hhides : ∀ r ∈ regions, P r → ∀ w, ¬ r.Hides w) : ¬ HasClear regions P := by
  rintro ⟨r, hr, hp, hclear⟩
  obtain ⟨w, hw⟩ := (r.clear_iff_hides (hwf r hr) (hstop r hr hp)).mp hclear
  exact hhides r hr hp w hw

end Passes

/-! ## The call -/

/-- A write that changes one element, read as a write at two places, is at one place. -/
theorem replaced_unique {α : Type*} {pre pre' post post' : List α} {a b a' b' : α}
    (hold : pre ++ a :: post = pre' ++ a' :: post') (hnew : pre ++ b :: post = pre' ++ b' :: post')
    (hne : a' ≠ b') : pre = pre' ∧ a = a' ∧ b = b' ∧ post = post' := by
  induction pre generalizing pre' with
  | nil =>
    cases pre' with
    | nil =>
      obtain ⟨rfl, rfl⟩ := List.cons.inj hold
      obtain ⟨rfl, -⟩ := List.cons.inj hnew
      exact ⟨rfl, rfl, rfl, rfl⟩
    | cons x pre' =>
      have tails := (List.cons.inj hold).2.symm.trans (List.cons.inj hnew).2
      exact absurd (List.cons.inj (List.append_cancel_left tails)).1 hne
  | cons x pre ih =>
    cases pre' with
    | nil => exact absurd ((List.cons.inj hold).1.symm.trans (List.cons.inj hnew).1) hne
    | cons x' pre' =>
      obtain ⟨rfl, rest⟩ := List.cons.inj hold
      obtain ⟨rfl, same⟩ := ih rest (List.cons.inj hnew).2
      exact ⟨rfl, same⟩

section Call

variable {s : Pmm} {pre post : List PmmRegion} {r : PmmRegion} {m : Nat}

/-- Taking a clear page changes the region. -/
theorem PmmRegion.takePage_ne {i : Nat} (hwf : r.shape.Wf) (hi : i < r.pages.toNat)
    (hclear : testBit64 r.bitmap i = false) : r ≠ r.takePage i := by
  intro same
  have marked : testBit64 (r.takePage i).bitmap i = true := by
    rw [PmmRegion.takePage, testBit64_setBit64 (hwf.word_lt hi), decide_eq_true rfl, Bool.true_or]
  rw [← same, hclear] at marked
  cases marked

/-- The page that a call takes, where it could be read as taking a clear one, is that one. -/
theorem TakesPage.of_taken {P : PmmRegion → Prop} (hwf : ∀ r ∈ s.regions, r.shape.Wf)
    (hold : s.regions = pre ++ r :: post) {p : UIntPtr}
    (h : TakesPage s ({ s with regions := pre ++ r.takePage m :: post }, p)
      fun r i => P r ∧ testBit64 r.bitmap i = false) :
    P r ∧ testBit64 r.bitmap m = false := by
  obtain ⟨pre', q, post', i, hold', hi, ⟨hp, hclear⟩, hres⟩ := h
  have wf : q.shape.Wf := hwf q (by rw [hold']; exact List.mem_append_right pre' List.mem_cons_self)
  have hnew := congrArg Pmm.regions (Prod.mk.inj hres).1
  obtain ⟨-, rfl, same, -⟩ :=
    replaced_unique (hold.symm.trans hold') hnew (PmmRegion.takePage_ne wf hi hclear)
  refine ⟨hp, ?_⟩
  -- after the call bit `i` is set, so it is the one that was taken
  have bits : testBit64 (setBit64 r.bitmap m) i = testBit64 (setBit64 r.bitmap i) i := by
    have bitmaps : (r.takePage m).bitmap = (r.takePage i).bitmap := by rw [same]
    exact congrArg (testBit64 · i) bitmaps
  by_cases hword : m / 64 < r.bitmap.length
  · rw [testBit64_setBit64 hword, testBit64_setBit64 (wf.word_lt hi), hclear, decide_eq_true rfl,
      Bool.or_false, Bool.or_false] at bits
    rw [of_decide_eq_true bits]
    exact hclear
  · have out : setBit64 r.bitmap m = r.bitmap := List.set_eq_of_length_le (Nat.le_of_not_lt hword)
    rw [out, testBit64_setBit64 (wf.word_lt hi), hclear, decide_eq_true rfl] at bits
    cases bits

/-- Where the search stops, it is exhaustive exactly when the mirror image is clear and, if it has
left the zone, the zone hides nothing. -/
theorem searchesAll_stopped {zone : PmmZone} {w : Nat} (hwf : ∀ r ∈ s.regions, r.shape.Wf)
    (hstop : pageStop s.regions zone = some (r, w)) (hold : s.regions = pre ++ r :: post)
    (hres : pmmAllocPageZone s zone =
      ({ s with regions := pre ++ r.takePage (r.mirrorPage w) :: post },
        r.pageAddr (r.mirrorPage w))) :
    SearchesAll s zone (pmmAllocPageZone s zone) ↔ MirrorClear s zone ∧ NothingHidden s zone := by
  obtain ⟨mem, stops⟩ := pageStop_eq_some hstop
  have inside := PmmRegion.mirrorPage_lt stops
  have some_page := (hwf r mem).pageAddr_ne_null inside
  have mirror : MirrorClear s zone ↔ testBit64 r.bitmap (r.mirrorPage w) = false := by
    rw [testBit64_mirrorPage, MirrorClear, mirrorBit, hstop]
  have inZone := pageStop_zone hstop
  have zoneStops (hnone : stopRegion (fun r => r.zone == zone) s.regions = none) :
      ∀ q ∈ s.regions, q.zone = zone → q.stopWord = none := fun q hq hz =>
    stopRegion_eq_none.mp hnone q hq (beq_iff_eq.mpr hz)
  rw [hres, mirror]
  constructor
  · intro h
    have anyClear : HasClear s.regions fun _ => True := by
      by_contra hnone
      exact some_page (h.null_iff.mpr hnone)
    by_cases hzone : HasClear s.regions (·.zone = zone)
    · obtain ⟨rz, clear⟩ := (h.preferred hzone).of_taken hwf hold
      refine ⟨clear, fun hnone => absurd hnone (inZone.mp rz), fun hnone => ?_⟩
      rw [hstop] at hnone
      cases hnone
    · obtain ⟨-, clear⟩ := (h.fallback hzone anyClear).of_taken hwf hold
      refine ⟨clear, fun _ q hq hz v hides => ?_, fun hnone => ?_⟩
      · obtain ⟨-, i, hi, -, hclear⟩ := hides
        exact hzone ⟨q, hq, hz, i, hi, hclear⟩
      · rw [hstop] at hnone
        cases hnone
  · rintro ⟨clear, hidden, -⟩
    have takes {want : PmmRegion → Nat → Prop} (hwant : want r (r.mirrorPage w)) :
        TakesPage s ({ s with regions := pre ++ r.takePage (r.mirrorPage w) :: post },
          r.pageAddr (r.mirrorPage w)) want :=
      ⟨pre, r, post, r.mirrorPage w, hold, inside, hwant, rfl⟩
    refine ⟨fun hzone => takes ⟨?_, clear⟩, fun hzone _ => takes ⟨?_, clear⟩, ?_,
      fun _ => takes trivial⟩
    · apply inZone.mpr
      intro hnone
      exact not_hasClear hwf (zoneStops hnone) (hidden hnone) hzone
    · intro hz
      exact hzone ⟨r, mem, hz, r.mirrorPage w, inside, clear⟩
    · exact iff_of_false some_page fun hnone => hnone ⟨r, mem, trivial, _, inside, clear⟩

/-- Where the search does not stop, it is exhaustive exactly when no region hides a page. -/
theorem searchesAll_passed {zone : PmmZone} (hwf : ∀ r ∈ s.regions, r.shape.Wf)
    (hstop : pageStop s.regions zone = none) (hres : pmmAllocPageZone s zone = (s, null)) :
    SearchesAll s zone (pmmAllocPageZone s zone) ↔ MirrorClear s zone ∧ NothingHidden s zone := by
  have mirror : MirrorClear s zone := by rw [MirrorClear, mirrorBit, hstop]
  have stops : ∀ r ∈ s.regions, True → r.stopWord = none := fun r hr _ =>
    stopRegion_eq_none.mp (Option.or_eq_none_iff.mp hstop).2 r hr rfl
  rw [hres]
  constructor
  · intro h
    have none := h.null_iff.mp rfl
    have hidden : ∀ r ∈ s.regions, ∀ w, ¬ r.Hides w := by
      rintro r hr w ⟨-, i, hi, -, hclear⟩
      exact none ⟨r, hr, trivial, i, hi, hclear⟩
    exact ⟨mirror, fun _ r hr _ => hidden r hr, fun _ => hidden⟩
  · rintro ⟨-, -, hidden⟩
    have none := not_hasClear hwf stops fun r hr _ => hidden hstop r hr
    refine ⟨?_, fun _ hany => absurd hany none, iff_of_true rfl none, fun hne => absurd rfl hne⟩
    rintro ⟨r, hr, -, hclear⟩
    exact absurd ⟨r, hr, trivial, hclear⟩ none

end Call

/-- For every list of regions away from address 0, whatever their bitmaps and hints: a single-page
call searches all of it exactly when, where the search stops, the mirror image of the highest clear
bit is clear, and the regions it has passed over hide no page. -/
theorem pmmAllocPageZone_exhaustive_iff {s : Pmm} (hinit : s.regions ≠ [] → s.initialized = true)
    (hwf : ∀ r ∈ s.regions, r.shape.Wf) (zone : PmmZone) :
    SearchesAll s zone (pmmAllocPageZone s zone) ↔ MirrorClear s zone ∧ NothingHidden s zone := by
  by_cases hon : s.initialized = true
  · have spec := pmmAllocPageZone_spec hon hwf zone
    cases hstop : pageStop s.regions zone with
    | none =>
      rw [hstop] at spec
      exact searchesAll_passed hwf hstop spec
    | some stop =>
      obtain ⟨r, w⟩ := stop
      rw [hstop] at spec
      obtain ⟨pre, post, hold, hres⟩ := spec
      exact searchesAll_stopped hwf hstop hold hres
  · have empty : s.regions = [] := by
      by_contra hne
      exact hon (hinit hne)
    have hstop : pageStop s.regions zone = none := by rw [empty]; rfl
    exact searchesAll_passed hwf hstop
      (pmmAllocPageZone_uninitialized (Bool.not_eq_true _ ▸ hon) zone)

/-- 16 pages of the zone, with the given bits. -/
def sixteenPages (word : BitVec 64) : Pmm :=
  { regions :=
      [{ base := 0x100000, pages := 16, bitmap := [word], bitmapSize := 1, lastAlloc := 0,
         zone := .normal }]
    initialized := true }

theorem sixteenPages_wf (word : BitVec 64) : ∀ r ∈ (sixteenPages word).regions, r.shape.Wf := by
  intro r hr
  obtain rfl := List.mem_singleton.mp hr
  show PmmShape.Wf { base := 0x100000, pages := 16, bitmapSize := 1, words := 1 }
  exact ⟨by decide, by decide, by decide, rfl, by decide⟩

/-- A region that nothing was taken from. -/
theorem pmmAllocPageZone_exhaustive_iff_fresh :
    SearchesAll (sixteenPages 0) .normal (pmmAllocPageZone (sixteenPages 0) .normal) ↔
      MirrorClear (sixteenPages 0) .normal ∧ NothingHidden (sixteenPages 0) .normal :=
  pmmAllocPageZone_exhaustive_iff (fun _ => rfl) (sixteenPages_wf 0) .normal

/-- A region whose 16 pages are all taken: the highest clear bit of its word is padding, so the
search stops and hands out page 0 once more. -/
theorem pmmAllocPageZone_not_exhaustive :
    ¬ ∀ (s : Pmm) (zone : PmmZone), (s.regions ≠ [] → s.initialized = true) →
      (∀ r ∈ s.regions, r.shape.Wf) → SearchesAll s zone (pmmAllocPageZone s zone) := by
  intro hall
  have h := hall (sixteenPages 0xFFFF) .normal (fun _ => rfl) (sixteenPages_wf 0xFFFF)
  have full : ¬ HasClear (sixteenPages 0xFFFF).regions fun _ => True := by
    rintro ⟨r, hr, -, i, hi, hclear⟩
    obtain rfl := List.mem_singleton.mp hr
    have all : ∀ i < 16, testBit64 [0xFFFF] i = true := by decide
    rw [all i hi] at hclear
    cases hclear
  have answer := h.null_iff.mpr full
  revert answer
  decide

end Unics
