import Unics.Laws.Pmm.Bits

/-!
# The pages of the region list

A region is a base, a number of pages and a bitmap. What no operation but `pmm_add_region` changes
is its shape, and a region list is well formed when its list of shapes is (`LayoutWf`): every region
is page aligned, lies above address 0 and below 4 GiB, has a bit for each page, and no page belongs
to two regions.

`PageBit regions p b` reads the allocator by address: `p` is a page of some region and its bit is
`b`. Over a well-formed list a page has one bit (`PageBit.unique`), and each operation is described
by what it does to these bits.
-/

namespace Unics

open Unics.Lib

theorem toNat_pmmPageSize : pmmPageSize.toNat = 4096 := rfl

/-- The address of the page `i` places after `p`, short of the end of the address space. -/
theorem toNat_add_pages {p : UIntPtr} {i : Nat} (h : p.toNat + 4096 * i < 2 ^ 32) :
    (p + BitVec.ofNat 32 i * pmmPageSize).toNat = p.toNat + 4096 * i := by
  have small : i < 2 ^ 32 := by omega
  rw [BitVec.toNat_add, BitVec.toNat_mul, BitVec.toNat_ofNat, Nat.mod_eq_of_lt small,
    toNat_pmmPageSize]
  omega

/-- The page some places after another page of the region. -/
theorem pageAddr_add (r : PmmRegion) (start i : Nat) :
    r.pageAddr start + BitVec.ofNat 32 i * pmmPageSize = r.pageAddr (start + i) := by
  unfold PmmRegion.pageAddr
  rw [BitVec.ofNat_add, BitVec.add_mul, BitVec.add_assoc]

/-! ## Shapes -/

/-- What `pmm_add_region` settles about a region for good. -/
structure PmmShape where
  base : UIntPtr
  pages : SizeT
  bitmapSize : SizeT
  words : Nat
  deriving DecidableEq

/-- The address of a page of the region. -/
def PmmShape.pageAddr (h : PmmShape) (i : Nat) : UIntPtr := h.base + BitVec.ofNat 32 i * pmmPageSize

/-- `p` is the address of a page of the region. -/
def PmmShape.HasPage (h : PmmShape) (p : UIntPtr) : Prop := ∃ i < h.pages.toNat, h.pageAddr i = p

/-- A region that holds together on its own. -/
structure PmmShape.Wf (h : PmmShape) : Prop where
  aligned : h.base.toNat % 4096 = 0
  pos : 0 < h.base.toNat
  fits : h.base.toNat + 4096 * h.pages.toNat ≤ 2 ^ 32
  words : h.bitmapSize.toNat = h.words
  cover : h.pages.toNat ≤ 64 * h.words

/-- The shape of a region. -/
def PmmRegion.shape (r : PmmRegion) : PmmShape :=
  { base := r.base, pages := r.pages, bitmapSize := r.bitmapSize, words := r.bitmap.length }

/-- The shapes of a region list. -/
def layout (regions : List PmmRegion) : List PmmShape := regions.map PmmRegion.shape

@[simp] theorem layout_append (as bs : List PmmRegion) :
    layout (as ++ bs) = layout as ++ layout bs := List.map_append

@[simp] theorem layout_cons (r : PmmRegion) (rs : List PmmRegion) :
    layout (r :: rs) = r.shape :: layout rs := rfl

/-- A region list that holds together: well-formed regions, no page in two of them. -/
structure LayoutWf (l : List PmmShape) : Prop where
  wf : ∀ h ∈ l, h.Wf
  disjoint : l.Pairwise fun a b => ∀ p, a.HasPage p → ¬ b.HasPage p

theorem LayoutWf.of_mem {regions : List PmmRegion} (hwf : LayoutWf (layout regions))
    {r : PmmRegion} (hr : r ∈ regions) : r.shape.Wf :=
  hwf.wf _ (List.mem_map_of_mem hr)

/-- What a layout says of its regions, another list with the same layout has too. -/
theorem shapes_of_layout {P : PmmShape → Prop} {before after : List PmmRegion}
    (h : layout after = layout before) (hp : ∀ r ∈ before, P r.shape) : ∀ r ∈ after, P r.shape := by
  intro r hr
  have mem : r.shape ∈ layout after := List.mem_map_of_mem hr
  rw [h] at mem
  obtain ⟨q, hq, heq⟩ := List.mem_map.mp mem
  rw [← heq]
  exact hp q hq

/-- Page addresses of a well-formed region do not wrap. -/
theorem PmmShape.Wf.toNat_pageAddr {h : PmmShape} (hwf : h.Wf) {i : Nat} (hi : i < h.pages.toNat) :
    (h.pageAddr i).toNat = h.base.toNat + 4096 * i := by
  have fits := hwf.fits
  exact toNat_add_pages (by omega)

/-- Distinct page indices have distinct addresses. -/
theorem PmmShape.Wf.pageAddr_inj {h : PmmShape} (hwf : h.Wf) {i j : Nat} (hi : i < h.pages.toNat)
    (hj : j < h.pages.toNat) (heq : h.pageAddr i = h.pageAddr j) : i = j := by
  have := congrArg BitVec.toNat heq
  rw [hwf.toNat_pageAddr hi, hwf.toNat_pageAddr hj] at this
  omega

/-- No page of a well-formed region is the null pointer. -/
theorem PmmShape.Wf.pageAddr_ne_null {h : PmmShape} (hwf : h.Wf) {i : Nat}
    (hi : i < h.pages.toNat) : h.pageAddr i ≠ null := by
  intro heq
  have := congrArg BitVec.toNat heq
  have pos := hwf.pos
  rw [hwf.toNat_pageAddr hi, toNat_null] at this
  omega

/-- The word of a page's bit lies inside the bitmap. -/
theorem PmmShape.Wf.word_lt {h : PmmShape} (hwf : h.Wf) {i : Nat} (hi : i < h.pages.toNat) :
    i / 64 < h.words := by
  have cover := hwf.cover
  omega

/-- Two regions of a well-formed list that share a page are the same. -/
theorem LayoutWf.shape_eq {regions : List PmmRegion} (hwf : LayoutWf (layout regions))
    {r r' : PmmRegion} (hr : r ∈ regions) (hr' : r' ∈ regions) {p : UIntPtr}
    (hp : r.shape.HasPage p) (hp' : r'.shape.HasPage p) : r = r' := by
  let Apart (a b : PmmRegion) : Prop := a = b ∨ ∀ p, a.shape.HasPage p → ¬ b.shape.HasPage p
  have apart : regions.Pairwise Apart :=
    (List.pairwise_map.mp hwf.disjoint).imp fun h => Or.inr h
  have flipped : regions.Pairwise (flip Apart) := apart.imp fun h =>
    h.imp Eq.symm fun h p hb ha => h p ha hb
  have all := List.Pairwise.forall_of_forall_of_flip (R := Apart) (fun _ _ => Or.inl rfl) apart
    flipped
  rcases all hr hr' with heq | h
  · exact heq
  · exact absurd hp' (h p hp)

/-! ## Bits by address -/

/-- `p` is a page of the region and its bit is `b`. -/
def PmmRegion.PageBit (r : PmmRegion) (p : UIntPtr) (b : Bool) : Prop :=
  ∃ i < r.pages.toNat, r.pageAddr i = p ∧ testBit64 r.bitmap i = b

/-- `p` is a page of some region and its bit is `b`. -/
def PageBit (regions : List PmmRegion) (p : UIntPtr) (b : Bool) : Prop :=
  ∃ r ∈ regions, r.PageBit p b

theorem PmmRegion.PageBit.hasPage {r : PmmRegion} {p : UIntPtr} {b : Bool} (h : r.PageBit p b) :
    r.shape.HasPage p := by
  obtain ⟨i, hi, hp, _⟩ := h
  exact ⟨i, hi, hp⟩

theorem PmmRegion.PageBit.unique {r : PmmRegion} (hwf : r.shape.Wf) {p : UIntPtr} {b b' : Bool}
    (h : r.PageBit p b) (h' : r.PageBit p b') : b = b' := by
  obtain ⟨i, hi, hp, rfl⟩ := h
  obtain ⟨j, hj, hp', rfl⟩ := h'
  rw [hwf.pageAddr_inj hi hj (hp.trans hp'.symm)]

/-- Over a well-formed list a page has one bit. -/
theorem PageBit.unique {regions : List PmmRegion} (hwf : LayoutWf (layout regions)) {p : UIntPtr}
    {b b' : Bool} (h : PageBit regions p b) (h' : PageBit regions p b') : b = b' := by
  obtain ⟨r, hr, hbit⟩ := h
  obtain ⟨r', hr', hbit'⟩ := h'
  obtain rfl := hwf.shape_eq hr hr' hbit.hasPage hbit'.hasPage
  exact hbit.unique (hwf.of_mem hr) hbit'

theorem pageBit_append {as bs : List PmmRegion} {p : UIntPtr} {b : Bool} :
    PageBit (as ++ bs) p b ↔ PageBit as p b ∨ PageBit bs p b := by
  simp only [PageBit, List.mem_append, or_and_right, exists_or]

theorem pageBit_cons {r : PmmRegion} {rs : List PmmRegion} {p : UIntPtr} {b : Bool} :
    PageBit (r :: rs) p b ↔ r.PageBit p b ∨ PageBit rs p b := by
  simp only [PageBit, List.mem_cons, or_and_right, exists_or, exists_eq_left]

theorem PageBit.of_region {pre post : List PmmRegion} {r : PmmRegion} {p : UIntPtr} {b : Bool}
    (h : r.PageBit p b) : PageBit (pre ++ r :: post) p b :=
  pageBit_append.mpr (.inr (pageBit_cons.mpr (.inl h)))

/-! ## Setting and clearing -/

/-- `set_bit_64` inside the bitmap sets that bit and no other. -/
theorem testBit64_setBit64 {bitmap : List (BitVec 64)} {i j : Nat} (hi : i / 64 < bitmap.length) :
    testBit64 (setBit64 bitmap i) j = (decide (i = j) || testBit64 bitmap j) := by
  rw [setBit64_eq, testBit64_eq, testBit64_eq]
  exact Bitmap.get_set hi (by decide)

/-- `clear_bit_64` clears that bit and no other. Outside the bitmap it changes nothing of it. -/
theorem testBit64_clearBit64 {bitmap : List (BitVec 64)} {i j : Nat} :
    testBit64 (clearBit64 bitmap i) j = (!decide (i = j) && testBit64 bitmap j) := by
  rw [clearBit64_eq, testBit64_eq, testBit64_eq]
  by_cases hi : i / 64 < bitmap.length
  · exact Bitmap.get_clear hi (by decide)
  · rw [Bitmap.clear, List.set_eq_of_length_le (by omega)]
    by_cases hij : i = j
    · subst hij
      rw [Bitmap.get, List.getD_eq_default _ _ (by omega)]
      simp
    · simp [hij]

@[simp] theorem length_setBit64 (bitmap : List (BitVec 64)) (i : Nat) :
    (setBit64 bitmap i).length = bitmap.length := List.length_set

@[simp] theorem length_clearBit64 (bitmap : List (BitVec 64)) (i : Nat) :
    (clearBit64 bitmap i).length = bitmap.length := List.length_set

@[simp] theorem length_setBits (bitmap : List (BitVec 64)) (startPage count : Nat) :
    (setBits bitmap startPage count).length = bitmap.length := by
  unfold setBits
  induction count generalizing startPage bitmap with
  | zero => rfl
  | succ n ih => rw [List.range'_succ, List.foldl_cons, ih, length_setBit64]

/-- The marking loop of `pmm_alloc_pages_zone` sets the bits of its range and no other. -/
theorem testBit64_setBits {bitmap : List (BitVec 64)} {startPage count j : Nat}
    (hfit : startPage + count ≤ 64 * bitmap.length) :
    testBit64 (setBits bitmap startPage count) j =
      (decide (startPage ≤ j ∧ j < startPage + count) || testBit64 bitmap j) := by
  unfold setBits
  induction count generalizing startPage bitmap with
  | zero =>
    have : ¬ (startPage ≤ j ∧ j < startPage + 0) := by omega
    rw [decide_eq_false this, Bool.false_or]
    rfl
  | succ n ih =>
    rw [List.range'_succ, List.foldl_cons, ih (by rw [length_setBit64]; omega),
      testBit64_setBit64 (by omega), ← Bool.or_assoc]
    congr 1
    rw [← Bool.decide_or]
    exact decide_eq_decide.mpr (by omega)

@[simp] theorem length_clearBits (bitmap : List (BitVec 64)) (startPage count : SizeT) :
    (clearBits bitmap startPage count).length = bitmap.length := by
  unfold clearBits
  generalize List.range count.toNat = indices
  induction indices generalizing bitmap with
  | nil => rfl
  | cons i is ih => rw [List.foldl_cons, ih, length_clearBit64]

/-- The clearing loop of `pmm_free_pages` clears the bits of its indices and no other. -/
theorem testBit64_clearBits {bitmap : List (BitVec 64)} {startPage count : SizeT} {j : Nat} :
    testBit64 (clearBits bitmap startPage count) j = true ↔
      testBit64 bitmap j = true ∧
        ∀ i < count.toNat, (startPage + BitVec.ofNat 32 i).toNat ≠ j := by
  unfold clearBits
  simp only [← List.mem_range (n := count.toNat)]
  generalize List.range count.toNat = indices
  induction indices generalizing bitmap with
  | nil => simp
  | cons i is ih =>
    rw [List.foldl_cons, ih, testBit64_clearBit64]
    simp only [Bool.and_eq_true, Bool.not_eq_true', decide_eq_false_iff_not, List.mem_cons,
      forall_eq_or_imp]
    constructor
    · rintro ⟨⟨hne, hbit⟩, hall⟩
      exact ⟨hbit, hne, hall⟩
    · rintro ⟨hbit, hne, hall⟩
      exact ⟨⟨hne, hbit⟩, hall⟩

end Unics
