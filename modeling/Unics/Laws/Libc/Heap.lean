import Mathlib.Data.Set.Lattice
import Mathlib.Order.CompletePartialOrder
import Unics.Lib.Run
import Unics.Lib.Words
import Unics.Libc.Stdlib

/-!
# The blocks of the heap

A request that fits moves `heap_end` up over a size header and a block, and changes nothing below
(`HeapGrows`). As long as every request fits, the blocks and their headers are apart, `heap_end`
never falls, and `realloc` carries the bytes over. Nothing in the source makes a request fit: the
size is rounded up and added to `heap_end` without a check.
-/

namespace Unics

open Unics.Lib

/-! ## Memory -/

theorem toNat_offset {p : UIntPtr} {i : Nat} (h : p.toNat + i < 2 ^ 32) :
    (p + BitVec.ofNat 32 i).toNat = p.toNat + i := by
  rw [BitVec.toNat_add, BitVec.toNat_ofNat, Nat.mod_eq_of_lt (by omega : i < 2 ^ 32),
    Nat.mod_eq_of_lt h]

section Memory

variable {memory : Ram} {a p : UIntPtr}

theorem store_same (c : UInt8) : memory.store p c p = c := if_pos rfl

theorem store_other (h : a ≠ p) (c : UInt8) : memory.store p c a = memory a := if_neg h

theorem storeSize_outside {size : SizeT} (hp : p.toNat + 4 ≤ 2 ^ 32)
    (ha : a.toNat < p.toNat ∨ p.toNat + 4 ≤ a.toNat) : memory.storeSize p size a = memory a := by
  have other : ∀ i < 4, a ≠ p + BitVec.ofNat 32 i := by
    rintro i hi rfl
    rw [toNat_offset (by omega)] at ha
    omega
  have first : a ≠ p := by
    rintro rfl
    omega
  rw [Ram.storeSize, store_other (other 3 (by omega)), store_other (other 2 (by omega)),
    store_other (other 1 (by omega)), store_other first]

/-- A size depends on its four bytes. -/
theorem loadSize_congr {other : Ram} (hp : p.toNat + 4 ≤ 2 ^ 32)
    (h : ∀ a, p.toNat ≤ a.toNat → a.toNat < p.toNat + 4 → memory a = other a) :
    memory.loadSize p = other.loadSize p := by
  have byte : ∀ i < 4, memory (p + BitVec.ofNat 32 i) = other (p + BitVec.ofNat 32 i) := by
    intro i hi
    have place := toNat_offset (p := p) (i := i) (by omega)
    exact h _ (by omega) (by omega)
  have first : memory p = other p := h p (Nat.le_refl _) (by omega)
  rw [Ram.loadSize, Ram.loadSize, byte 3 (by omega), byte 2 (by omega), byte 1 (by omega), first]

theorem loadSize_storeSize (size : SizeT) : (memory.storeSize p size).loadSize p = size := by
  have other : ∀ i j : BitVec 32, i ≠ j → p + i ≠ p + j := by
    intro i j hij heq
    exact hij ((BitVec.add_right_inj p).mp heq)
  have first : ∀ i : BitVec 32, 0 ≠ i → p ≠ p + i := by
    intro i hi heq
    exact other 0 i hi ((BitVec.add_zero p).trans heq)
  rw [Ram.loadSize, Ram.storeSize, store_same, store_other (other 2#32 3#32 (by decide)),
    store_same, store_other (other 1#32 3#32 (by decide)),
    store_other (other 1#32 2#32 (by decide)), store_same, store_other (first 3#32 (by decide)),
    store_other (first 2#32 (by decide)), store_other (first 1#32 (by decide)), store_same]
  have high : size.extractLsb' 24 8 ++ size.extractLsb' 16 8 = size.extractLsb' 16 16 :=
    BitVec.extractLsb'_append_extractLsb'_eq_extractLsb' rfl
  have middle : size.extractLsb' 16 16 ++ size.extractLsb' 8 8 = size.extractLsb' 8 24 :=
    BitVec.extractLsb'_append_extractLsb'_eq_extractLsb' rfl
  have low : size.extractLsb' 8 24 ++ size.extractLsb' 0 8 = size.extractLsb' 0 32 :=
    BitVec.extractLsb'_append_extractLsb'_eq_extractLsb' rfl
  calc size.extractLsb' 24 8 ++ size.extractLsb' 16 8 ++ size.extractLsb' 8 8 ++
        size.extractLsb' 0 8
      = size.extractLsb' 16 16 ++ size.extractLsb' 8 8 ++ size.extractLsb' 0 8 := by rw [high]
    _ = size.extractLsb' 8 24 ++ size.extractLsb' 0 8 := by rw [middle]
    _ = size.extractLsb' 0 32 := low
    _ = size := BitVec.extractLsb'_eq_self

theorem writeLoop_outside {value : Ram → SizeT → UInt8} {n : Nat} (hp : p.toNat + n ≤ 2 ^ 32)
    (ha : a.toNat < p.toNat ∨ p.toNat + n ≤ a.toNat) :
    memory.writeLoop value p n a = memory a := by
  induction n with
  | zero => rfl
  | succ n ih =>
    have other : a ≠ p + BitVec.ofNat 32 n := by
      rintro rfl
      rw [toNat_offset (by omega)] at ha
      omega
    rw [Ram.writeLoop, store_other other]
    exact ih (by omega) (by omega)

/-- A copy upwards. -/
theorem writeLoop_copy {src : UIntPtr} {n i : Nat} (hsrc : src.toNat + n ≤ p.toNat)
    (hp : p.toNat + n ≤ 2 ^ 32) (hi : i < n) :
    memory.writeLoop (fun memory i => memory (src + i)) p n (p + BitVec.ofNat 32 i) =
      memory (src + BitVec.ofNat 32 i) := by
  induction n with
  | zero => exact absurd hi (Nat.not_lt_zero i)
  | succ n ih =>
    rw [Ram.writeLoop]
    by_cases hlast : i = n
    · subst hlast
      have place := toNat_offset (p := src) (i := i) (by omega)
      rw [store_same]
      exact writeLoop_outside (by omega) (.inl (by omega))
    · have here := toNat_offset (p := p) (i := i) (by omega)
      have last := toNat_offset (p := p) (i := n) (by omega)
      have other : p + BitVec.ofNat 32 i ≠ p + BitVec.ofNat 32 n := by
        intro heq
        have same := congrArg BitVec.toNat heq
        omega
      rw [store_other other]
      exact ih (by omega) (by omega) (by omega)

end Memory

/-! ## What a request does -/

/-- There is room for a request: nothing is asked for, or the size rounded up and its header end
below the last address. -/
def HeapRoom (h : HeapArea) (size : Nat) : Prop :=
  size = 0 ∨ h.heapEnd.toNat + (size + 3) / 4 * 4 + 4 < 2 ^ 32

/-- `heap_end` has moved up over a size header and a block, and nothing below has changed. -/
structure HeapGrows (before : HeapArea) (address : UIntPtr) (requested : Nat) (after : HeapArea) :
    Prop where
  address_eq : address.toNat = before.heapEnd.toNat + 4
  size : requested ≤ (after.memory.loadSize (address - 4)).toNat
  below : address.toNat + (after.memory.loadSize (address - 4)).toNat ≤ after.heapEnd.toNat
  same : ∀ a, a.toNat < before.heapEnd.toNat → after.memory a = before.memory a

theorem HeapGrows.ne_null {before after : HeapArea} {address : UIntPtr} {requested : Nat}
    (h : HeapGrows before address requested after) : address ≠ null := by
  rintro rfl
  have four := h.address_eq
  rw [toNat_null] at four
  omega

/-- What a request gives back: null, and nothing has changed, or a new block. -/
def HeapAnswers (before : HeapArea) (requested : Nat) (result : UIntPtr × HeapArea) : Prop :=
  result = (null, before) ∨ HeapGrows before result.1 requested result.2

theorem toNat_roundUp (size : SizeT) (h : (size.toNat + 3) / 4 * 4 < 2 ^ 32) :
    ((size + 4 - 1) &&& ~~~(4 - 1) : SizeT).toNat = (size.toNat + 3) / 4 * 4 := by
  have mask : (4 - 1 : SizeT).toNat = 2 ^ 2 - 1 := by decide
  have sum : (size + 4 - 1).toNat = size.toNat + 3 := by bv_omega
  have whole := toNat_and_not_mask (x := size + 4 - 1) mask
  rw [sum] at whole
  exact whole

theorem malloc_zero (h : HeapArea) : malloc h 0 = (null, h) := if_pos rfl

theorem malloc_grows {h : HeapArea} {size : SizeT} (hsize : size ≠ 0)
    (hroom : HeapRoom h size.toNat) :
    HeapGrows h (malloc h size).1 size.toNat (malloc h size).2 := by
  have asked : size.toNat ≠ 0 := fun h => hsize (BitVec.eq_of_toNat_eq h)
  have fits := hroom.resolve_left asked
  have rounded := toNat_roundUp size (by omega)
  have inside : h.heapEnd ≠ -1 := by
    intro hend
    have top : h.heapEnd.toNat = 2 ^ 32 - 1 := congrArg BitVec.toNat hend
    omega
  unfold malloc sbrk
  rw [if_neg hsize]
  dsimp only
  rw [if_neg inside]
  generalize ((size + 4 - 1) &&& ~~~(4 - 1) : SizeT) = whole at rounded ⊢
  have address : (h.heapEnd + 4).toNat = h.heapEnd.toNat + 4 :=
    toNat_offset (p := h.heapEnd) (i := 4) (by omega)
  have header : (h.memory.storeSize h.heapEnd whole).loadSize (h.heapEnd + 4 - 4) = whole := by
    rw [BitVec.add_sub_cancel, loadSize_storeSize]
  have newEnd : (h.heapEnd + (whole + 4)).toNat =
      h.heapEnd.toNat + (size.toNat + 3) / 4 * 4 + 4 := by bv_omega
  refine ⟨address, ?_, ?_, ?_⟩
  · rw [header, rounded]
    omega
  · rw [header, rounded, address, newEnd]
    omega
  · intro a ha
    exact storeSize_outside (by omega) (.inl ha)

theorem malloc_answers {h : HeapArea} {size : SizeT} (hroom : HeapRoom h size.toNat) :
    HeapAnswers h size.toNat (malloc h size) := by
  by_cases hsize : size = 0
  · subst hsize
    exact .inl (malloc_zero h)
  · exact .inr (malloc_grows hsize hroom)

/-- Stores into the block change neither its header nor what is below. -/
theorem HeapGrows.write {before after : HeapArea} {address : UIntPtr} {requested n : Nat}
    (h : HeapGrows before address requested after) (value : Ram → SizeT → UInt8)
    (hn : n ≤ requested) :
    HeapGrows before address requested
      { after with memory := after.memory.writeLoop value address n } := by
  have address_eq := h.address_eq
  have below := h.below
  have size := h.size
  have heapEnd := after.heapEnd.isLt
  have header : (address - 4).toNat = before.heapEnd.toNat := by bv_omega
  have kept : ∀ a, a.toNat < address.toNat →
      after.memory.writeLoop value address n a = after.memory a :=
    fun a ha => writeLoop_outside (by omega) (.inl ha)
  have same : (after.memory.writeLoop value address n).loadSize (address - 4) =
      after.memory.loadSize (address - 4) :=
    loadSize_congr (by omega) fun a _ ha => kept a (by omega)
  refine ⟨address_eq, ?_, ?_, ?_⟩
  · rw [same]
    exact size
  · rw [same]
    exact below
  · intro a ha
    exact (kept a (by omega)).trans (h.same a ha)

/-- The product is what the division check lets through. -/
theorem toNat_totalSize {num size : SizeT} (h : num * size / num = size) :
    (num * size).toNat = num.toNat * size.toNat := by
  have quotient : (num * size).toNat / num.toNat = size.toNat := by
    rw [← BitVec.toNat_udiv, h]
  have least : num.toNat * size.toNat ≤ (num * size).toNat := by
    rw [← quotient]
    exact Nat.mul_div_le _ _
  have wrapped : (num * size).toNat = num.toNat * size.toNat % 2 ^ 32 := BitVec.toNat_mul num size
  exact Nat.le_antisymm (wrapped ▸ Nat.mod_le _ _) least

theorem calloc_answers {h : HeapArea} {num size : SizeT}
    (hroom : num.toNat * size.toNat < 2 ^ 32 → HeapRoom h (num.toNat * size.toNat)) :
    HeapAnswers h (num.toNat * size.toNat) (calloc h num size) := by
  unfold calloc
  dsimp only
  split
  · exact .inl rfl
  · next hcheck =>
    have total : (num * size).toNat = num.toNat * size.toNat := by
      by_cases hnum : num = 0
      · subst hnum
        have zero : 0 * size = 0 := BitVec.zero_mul
        rw [zero]
        exact (Nat.zero_mul size.toNat).symm
      · exact toNat_totalSize (not_not.mp fun h => hcheck ⟨hnum, h⟩)
    rw [← total] at hroom ⊢
    rcases malloc_answers (hroom (num * size).isLt) with hzero | hgrows
    · rw [hzero]
      exact .inl (if_pos rfl)
    · rw [if_neg hgrows.ne_null]
      exact .inr (hgrows.write _ (Nat.le_refl _))

theorem realloc_zero {h : HeapArea} {ptr : UIntPtr} (hptr : ptr ≠ null) :
    realloc h ptr 0 = (null, h) := by
  rw [realloc, if_neg hptr, if_pos rfl]
  rfl

theorem realloc_eq {h : HeapArea} {ptr : UIntPtr} {size : SizeT} (hptr : ptr ≠ null)
    (hsize : size ≠ 0) (hroom : HeapRoom h size.toNat) :
    realloc h ptr size = ((malloc h size).1,
      { (malloc h size).2 with
        memory := (malloc h size).2.memory.writeLoop (fun memory i => memory (ptr + i))
          (malloc h size).1 (min (h.memory.loadSize (ptr - 4)).toNat size.toNat) }) := by
  have copied : (if h.memory.loadSize (ptr - 4) < size then h.memory.loadSize (ptr - 4)
      else size).toNat = min (h.memory.loadSize (ptr - 4)).toNat size.toNat := by
    split
    · next hlt => exact (Nat.min_eq_left (Nat.le_of_lt hlt)).symm
    · next hlt => exact (Nat.min_eq_right (Nat.le_of_not_lt hlt)).symm
  rw [realloc, if_neg hptr, if_neg hsize]
  dsimp only
  rw [if_neg (malloc_grows hsize hroom).ne_null, copied]
  rfl

theorem realloc_answers {h : HeapArea} {ptr : UIntPtr} {size : SizeT}
    (hroom : HeapRoom h size.toNat) : HeapAnswers h size.toNat (realloc h ptr size) := by
  by_cases hptr : ptr = null
  · rw [realloc, if_pos hptr]
    exact malloc_answers hroom
  by_cases hsize : size = 0
  · subst hsize
    exact .inl (realloc_zero hptr)
  · rw [realloc_eq hptr hsize hroom]
    exact .inr ((malloc_grows hsize hroom).write _ (Nat.min_le_right _ _))

/-! ## Runs -/

/-- The size that stands in the header of a block. -/
def HeapRun.header (r : HeapRun) (b : HeapBlock) : Nat :=
  (r.heap.memory.loadSize (b.address - 4)).toNat

/-- The addresses of the bytes that were asked for. -/
def HeapBlock.bytes (b : HeapBlock) : Set UIntPtr :=
  {a | ∃ i < b.requested, a = b.address + BitVec.ofNat 32 i}

/-- The addresses of the size header. -/
def HeapBlock.sizeHeader (b : HeapBlock) : Set UIntPtr :=
  {a | ∃ i < 4, a = b.address - 4 + BitVec.ofNat 32 i}

/-- Neither block overlaps the other or its header. -/
structure HeapApart (b c : HeapBlock) : Prop where
  blocks : Disjoint b.bytes c.bytes
  left : Disjoint b.bytes c.sizeHeader
  right : Disjoint c.bytes b.sizeHeader

/-- Every result is a block of at least the requested size below `heap_end`, and no block overlaps
another one or a header. -/
structure HeapSound (r : HeapRun) : Prop where
  size : ∀ b ∈ r.blocks, b.requested ≤ r.header b
  below : ∀ b ∈ r.blocks, b.address.toNat + r.header b ≤ r.heap.heapEnd.toNat
  own : ∀ b ∈ r.blocks, Disjoint b.bytes b.sizeHeader
  apart : r.blocks.Pairwise HeapApart

/-- What a request does: `heap_end` does not decrease, and the result of `realloc` begins with the
bytes of the old block. -/
structure HeapKeeps (r : HeapRun) (request : HeapRequest) : Prop where
  heapEnd : r.heap.heapEnd ≤ (r.step request).heap.heapEnd
  copied : ∀ block size b, request = .realloc block size → r.blocks[block]? = some b →
    (realloc r.heap b.address size).1 ≠ null → ∀ i < min b.requested size.toNat,
      (r.step request).heap.memory ((realloc r.heap b.address size).1 + BitVec.ofNat 32 i) =
        r.heap.memory (b.address + BitVec.ofNat 32 i)

/-- A request is for nothing, or fits. A product that overflows is refused. -/
def HeapFits (r : HeapRun) : HeapRequest → Prop
  | .malloc size => HeapRoom r.heap size.toNat
  | .calloc num size =>
    num.toNat * size.toNat < 2 ^ 32 → HeapRoom r.heap (num.toNat * size.toNat)
  | .realloc _ size => HeapRoom r.heap size.toNat
  | .free _ => True
  | .store _ _ _ => True

/-- The blocks stand one above the other, each behind its header. -/
structure HeapOk (r : HeapRun) : Prop where
  low : ∀ b ∈ r.blocks, 4 ≤ b.address.toNat
  size : ∀ b ∈ r.blocks, b.requested ≤ r.header b
  below : ∀ b ∈ r.blocks, b.address.toNat + r.header b ≤ r.heap.heapEnd.toNat
  order : r.blocks.Pairwise fun b c => b.address.toNat + b.requested + 4 ≤ c.address.toNat

section Invariant

variable {r : HeapRun}

theorem HeapOk.toNat_header (h : HeapOk r) {b : HeapBlock} (hb : b ∈ r.blocks) :
    (b.address - 4).toNat = b.address.toNat - 4 := by
  have low := h.low b hb
  bv_omega

theorem HeapOk.toNat_byte (h : HeapOk r) {b : HeapBlock} (hb : b ∈ r.blocks) {i : Nat}
    (hi : i < b.requested) : (b.address + BitVec.ofNat 32 i).toNat = b.address.toNat + i := by
  have size := h.size b hb
  have below := h.below b hb
  have heapEnd := r.heap.heapEnd.isLt
  exact toNat_offset (by omega)

/-- The addresses of a block and of its header, as numbers. -/
theorem HeapOk.of_mem_bytes (h : HeapOk r) {b : HeapBlock} (hb : b ∈ r.blocks) {a : UIntPtr}
    (ha : a ∈ b.bytes) :
    b.address.toNat ≤ a.toNat ∧ a.toNat < b.address.toNat + b.requested := by
  obtain ⟨i, hi, rfl⟩ := ha
  rw [h.toNat_byte hb hi]
  omega

theorem HeapOk.of_mem_sizeHeader (h : HeapOk r) {b : HeapBlock} (hb : b ∈ r.blocks) {a : UIntPtr}
    (ha : a ∈ b.sizeHeader) :
    b.address.toNat - 4 ≤ a.toNat ∧ a.toNat < b.address.toNat := by
  obtain ⟨i, hi, rfl⟩ := ha
  have low := h.low b hb
  have header := h.toNat_header hb
  have address := b.address.isLt
  rw [toNat_offset (by omega), header]
  omega

theorem HeapOk.sound (h : HeapOk r) : HeapSound r := by
  have own : ∀ b ∈ r.blocks, Disjoint b.bytes b.sizeHeader := by
    intro b hb
    refine Set.disjoint_left.mpr fun a ha hheader => ?_
    have first := h.of_mem_bytes hb ha
    have second := h.of_mem_sizeHeader hb hheader
    omega
  refine ⟨h.size, h.below, own, h.order.imp_of_mem ?_⟩
  intro b c hb hc horder
  refine ⟨?_, ?_, ?_⟩
  all_goals refine Set.disjoint_left.mpr fun a hfirst hsecond => ?_
  · have first := h.of_mem_bytes hb hfirst
    have second := h.of_mem_bytes hc hsecond
    omega
  · have first := h.of_mem_bytes hb hfirst
    have second := h.of_mem_sizeHeader hc hsecond
    omega
  · have first := h.of_mem_bytes hc hfirst
    have second := h.of_mem_sizeHeader hb hsecond
    omega

/-- The header of a block is below `heap_end`. -/
theorem HeapOk.header_eq (h : HeapOk r) {heap : HeapArea}
    (hsame : ∀ a, a.toNat < r.heap.heapEnd.toNat → heap.memory a = r.heap.memory a)
    {b : HeapBlock} (hb : b ∈ r.blocks) (blocks : List HeapBlock) :
    HeapRun.header ⟨heap, blocks⟩ b = r.header b := by
  have low := h.low b hb
  have below := h.below b hb
  have place := h.toNat_header hb
  have address := b.address.isLt
  exact congrArg BitVec.toNat (loadSize_congr (by omega) fun a _ ha => hsame a (by omega))

/-- A new block above the others. -/
theorem HeapOk.push (h : HeapOk r) {heap : HeapArea} {address : UIntPtr} {requested : Nat}
    (hgrows : HeapGrows r.heap address requested heap) :
    HeapOk ⟨heap, r.blocks ++ [⟨address, requested⟩]⟩ := by
  have place := hgrows.address_eq
  have below := hgrows.below
  have grown : r.heap.heapEnd.toNat ≤ heap.heapEnd.toNat := by omega
  have kept : ∀ b ∈ r.blocks, HeapRun.header ⟨heap, r.blocks ++ [⟨address, requested⟩]⟩ b =
      r.header b := fun b hb => h.header_eq hgrows.same hb _
  refine ⟨?_, ?_, ?_, ?_⟩
  · have low : 4 ≤ address.toNat := by omega
    exact List.forall_mem_append.mpr ⟨h.low, List.forall_mem_singleton.mpr low⟩
  · refine List.forall_mem_append.mpr ⟨fun b hb => ?_, List.forall_mem_singleton.mpr hgrows.size⟩
    rw [kept b hb]
    exact h.size b hb
  · refine List.forall_mem_append.mpr ⟨fun b hb => ?_, List.forall_mem_singleton.mpr below⟩
    rw [kept b hb]
    exact Nat.le_trans (h.below b hb) grown
  · refine List.pairwise_append.mpr ⟨h.order, List.pairwise_singleton _ _, fun b hb c hc => ?_⟩
    obtain rfl := List.mem_singleton.mp hc
    have size := h.size b hb
    have old := h.below b hb
    have behind : b.address.toNat + b.requested + 4 ≤ address.toNat := by omega
    exact behind

theorem HeapOk.handOut (h : HeapOk r) {result : UIntPtr × HeapArea} {requested : Nat}
    (hanswers : HeapAnswers r.heap requested result) : HeapOk (r.handOut result requested) := by
  rcases hanswers with rfl | hgrows
  · exact h
  · rw [HeapRun.handOut, if_neg hgrows.ne_null]
    exact h.push hgrows

theorem heapEnd_handOut {result : UIntPtr × HeapArea} {requested : Nat}
    (hanswers : HeapAnswers r.heap requested result) :
    r.heap.heapEnd ≤ (r.handOut result requested).heap.heapEnd := by
  rcases hanswers with rfl | hgrows
  · exact BitVec.le_refl _
  · have place := hgrows.address_eq
    have below := hgrows.below
    have result_heap : (r.handOut result requested).heap = result.2 := rfl
    rw [result_heap, BitVec.le_def]
    omega

/-- A byte of a block is in no header. -/
theorem HeapOk.byte_outside (h : HeapOk r) {b c : HeapBlock} (hb : b ∈ r.blocks)
    (hc : c ∈ r.blocks) {i : Nat} (hi : i < b.requested) :
    b.address.toNat + i < c.address.toNat - 4 ∨ c.address.toNat ≤ b.address.toNat + i := by
  have ordered : b = c ∨ b.address.toNat + b.requested + 4 ≤ c.address.toNat ∨
      c.address.toNat + c.requested + 4 ≤ b.address.toNat := by
    refine List.Pairwise.forall_of_forall_of_flip (R := fun b c : HeapBlock => b = c ∨
      b.address.toNat + b.requested + 4 ≤ c.address.toNat ∨
        c.address.toNat + c.requested + 4 ≤ b.address.toNat) ?_ ?_ ?_ hb hc
    · exact fun b _ => .inl rfl
    · exact h.order.imp fun horder => .inr (.inl horder)
    · exact h.order.imp fun horder => .inr (.inr horder)
  rcases ordered with rfl | horder | horder
  · exact .inr (Nat.le_add_right _ _)
  · exact .inl (by omega)
  · exact .inr (by omega)

/-- A store of the program meets no header. -/
theorem HeapOk.store (h : HeapOk r) (block offset : Nat) (value : UInt8) :
    HeapOk (r.store block offset value) := by
  unfold HeapRun.store
  cases hblock : r.blocks[block]? with
  | none => exact h
  | some b =>
    dsimp only
    split
    · next hoffset =>
      have hb := List.mem_of_getElem? hblock
      have place := h.toNat_byte hb hoffset
      have kept : ∀ c ∈ r.blocks, (r.heap.memory.store (b.address + BitVec.ofNat 32 offset)
          value).loadSize (c.address - 4) = r.heap.memory.loadSize (c.address - 4) := by
        intro c hc
        have header := h.toNat_header hc
        have low := h.low c hc
        have address := c.address.isLt
        have outside := h.byte_outside hb hc hoffset
        refine loadSize_congr (by omega) fun a hfirst hlast => store_other ?_ value
        rintro rfl
        omega
      refine ⟨h.low, fun c hc => ?_, fun c hc => ?_, h.order⟩
      · rw [HeapRun.header, kept c hc]
        exact h.size c hc
      · rw [HeapRun.header, kept c hc]
        exact h.below c hc
    · exact h

theorem HeapOk.step (h : HeapOk r) {request : HeapRequest} (hfits : HeapFits r request) :
    HeapOk (r.step request) := by
  cases request with
  | malloc size => exact h.handOut (malloc_answers hfits)
  | calloc num size => exact h.handOut (calloc_answers hfits)
  | realloc block size => exact h.handOut (realloc_answers hfits)
  | free block => exact h
  | store block offset value => exact h.store block offset value

/-- The new block begins with the bytes of the old one. -/
theorem HeapOk.copied (h : HeapOk r) {b : HeapBlock} (hb : b ∈ r.blocks) {size : SizeT}
    (hsize : size ≠ 0) (hroom : HeapRoom r.heap size.toNat) {i : Nat}
    (hi : i < min b.requested size.toNat) :
    (realloc r.heap b.address size).2.memory
        ((realloc r.heap b.address size).1 + BitVec.ofNat 32 i) =
      r.heap.memory (b.address + BitVec.ofNat 32 i) := by
  have low := h.low b hb
  have old := h.size b hb
  have below := h.below b hb
  have hptr : b.address ≠ null := by
    intro hnull
    rw [hnull, toNat_null] at low
    omega
  have grows := malloc_grows hsize hroom
  have place := grows.address_eq
  have new := grows.size
  have inside := grows.below
  have heapEnd := (malloc r.heap size).2.heapEnd.isLt
  have byte := h.toNat_byte hb (i := i) (by omega)
  rw [HeapRun.header] at old below
  rw [realloc_eq hptr hsize hroom]
  exact (writeLoop_copy (by omega) (by omega) (by omega)).trans (grows.same _ (by omega))

theorem HeapOk.keeps (h : HeapOk r) {request : HeapRequest} (hfits : HeapFits r request) :
    HeapKeeps r request := by
  refine ⟨?_, ?_⟩
  · cases request with
    | malloc size => exact heapEnd_handOut (malloc_answers hfits)
    | calloc num size => exact heapEnd_handOut (calloc_answers hfits)
    | realloc block size => exact heapEnd_handOut (realloc_answers hfits)
    | free block => exact BitVec.le_refl _
    | store block offset value =>
      have same : (r.store block offset value).heap.heapEnd = r.heap.heapEnd := by
        unfold HeapRun.store
        split
        · split
          · rfl
          · rfl
        · rfl
      exact BitVec.le_of_eq same.symm
  · rintro block size b rfl hblock hnew i hi
    have pointer : r.pointer block = b.address := by rw [HeapRun.pointer, hblock]
    have hsize : size ≠ 0 := by
      rintro rfl
      have zero : (0 : SizeT).toNat = 0 := BitVec.toNat_zero
      omega
    have copied := h.copied (List.mem_of_getElem? hblock) hsize hfits hi
    rw [← copied, HeapRun.step, pointer]
    rfl

end Invariant

/-- As long as every request fits, the blocks are sound in every state of a run, and every request
keeps the heap. -/
theorem heap_run (memory : Ram) (heapEnd : UIntPtr) (requests : List HeapRequest)
    (h : EveryStep HeapRun.step HeapFits (heapStart memory heapEnd) requests) :
    EveryState HeapRun.step HeapSound (heapStart memory heapEnd) requests ∧
      EveryStep HeapRun.step HeapKeeps (heapStart memory heapEnd) requests := by
  have start : HeapOk (heapStart memory heapEnd) :=
    ⟨List.forall_mem_nil _, List.forall_mem_nil _, List.forall_mem_nil _, .nil⟩
  have step : ∀ r request, HeapOk r → HeapFits r request → HeapOk (r.step request) :=
    fun _ _ hok hfits => hok.step hfits
  exact ⟨h.everyState step (fun _ hok => hok.sound) start,
    EveryStep.mono step (fun _ _ hok hfits => hok.keeps hfits) start h⟩

/-- Every kind of request: a block is filled, grown and freed, there is one for an array, one for no
bytes, and one for an array that is too large. -/
def heapRequests : List HeapRequest :=
  [.malloc 6, .store 0 5 120, .calloc 3 4, .realloc 0 20, .free 0, .malloc 0,
    .calloc 0x10000 0x10000]

theorem heap_run_requests :
    EveryState HeapRun.step HeapSound (heapStart (fun _ => 0) 0x100000) heapRequests ∧
      EveryStep HeapRun.step HeapKeeps (heapStart (fun _ => 0) 0x100000) heapRequests :=
  heap_run (fun _ => 0) 0x100000 heapRequests
    ⟨.inr (by decide), trivial, fun _ => .inr (by decide +kernel), .inr (by decide +kernel),
      trivial, .inl rfl, fun hfits => absurd hfits (by decide), trivial⟩

/-- A request for 0xFFFFFFF0 bytes moves `heap_end` down, and one for 0xFFFFFFFF bytes is answered
with a block of size 0. -/
theorem heap_run_fails :
    ¬ EveryStep HeapRun.step HeapKeeps (heapStart (fun _ => 0) 0x100000) [.malloc 0xFFFFFFF0] ∧
      ¬ EveryState HeapRun.step HeapSound (heapStart (fun _ => 0) 0x100000)
        [.malloc 0xFFFFFFFF] := by
  constructor
  · intro h
    exact absurd h.1.heapEnd (by decide)
  · intro h
    have block : (⟨0x100004, 0xFFFFFFFF⟩ : HeapBlock) ∈
        ((heapStart (fun _ => 0) 0x100000).step (.malloc 0xFFFFFFFF)).blocks := by decide
    exact absurd (h.last.size _ block) (by decide)

end Unics
