import Unics.Lib.Lomuto
import Unics.Libc.Sorting
import Unics.Lib.Bisect

/-!
# Sorting and searching
-/

namespace Unics

open Unics.Lib

/-!
## Sorting an array

As long as the array lies in the address space, the addresses that `quicksort` computes do not wrap
and its accesses stay within the array. The elements go where those of the quicksort on a table go
(`quicksort_ends`), so they are rearranged, and sorted if `compare` is a total preorder.
-/

section Qsort

variable {σ : Type}

/-! ### Elements -/

/-- The bytes of the `j`th element. -/
def elementBytes (size : SizeT) (base : Buffer) (j : Nat) : List UInt8 :=
  (List.range size.toNat).map fun i => base (j * size.toNat + i)

theorem length_elementBytes (size : SizeT) (base : Buffer) (j : Nat) :
    (elementBytes size base j).length = size.toNat := by
  rw [elementBytes, List.length_map, List.length_range]

/-- What `compare` is given. -/
abbrev ElementOf (size : SizeT) := { bytes : List UInt8 // bytes.length = size.toNat }

def elementAt (size : SizeT) (base : Buffer) (j : Nat) : ElementOf size :=
  ⟨elementBytes size base j, length_elementBytes size base j⟩

/-- The array, element by element. -/
def elementsOf (num size : SizeT) (base : Buffer) : List (List UInt8) :=
  (List.range num.toNat).map (elementBytes size base)

section Places

variable {num size : SizeT} {base : Buffer}

theorem element_fits (size : SizeT) {j : Nat} (hj : j < num.toNat) :
    j * size.toNat + size.toNat ≤ num.toNat * size.toNat := by
  rw [← Nat.succ_mul]
  exact Nat.mul_le_mul_right _ hj

/-- The address of an element does not wrap. -/
theorem toNat_element (hfits : num.toNat * size.toNat ≤ 2 ^ 32) {j : SizeT}
    (hj : j.toNat < num.toNat) : (j * size).toNat = j.toNat * size.toNat := by
  have inside := element_fits size hj
  refine BitVec.toNat_mul_of_lt ?_
  by_cases hzero : size.toNat = 0
  · rw [hzero]
    exact Nat.two_pow_pos 32
  · omega

theorem loadElement_eq (hfits : num.toNat * size.toNat ≤ 2 ^ 32) {j : SizeT}
    (hj : j.toNat < num.toNat) :
    loadElement (num.toNat * size.toNat) base (j * size) size =
      some (elementBytes size base j.toNat) := by
  have inside := element_fits size hj
  rw [loadElement, toNat_element hfits hj]
  refine mapM_eq_map fun i hi => loadChar_of_lt base ?_
  have within := List.mem_range.mp hi
  omega

end Places

/-! ### Exchanging -/

/-- `m` bytes at `a` and at `b` exchanged. -/
def exchange (a b m : Nat) (base : Buffer) : Buffer := fun x =>
  if a ≤ x ∧ x < a + m then base (b + (x - a))
  else if b ≤ x ∧ x < b + m then base (a + (x - b)) else base x

section Exchange

variable {n a b m : Nat} {base : Buffer}

/-- Two places are one place, or `m` bytes at each are apart. -/
def SameOrApart (a b m : Nat) : Prop := a = b ∨ a + m ≤ b ∨ b + m ≤ a

theorem exchange_succ (h : SameOrApart a b (m + 1)) :
    Function.update (Function.update (exchange a b m base) (a + m) (base (b + m))) (b + m)
      (base (a + m)) = exchange a b (m + 1) base := by
  funext x
  unfold SameOrApart at h
  by_cases hb : x = b + m
  · subst hb
    rw [Function.update_self, exchange]
    by_cases hsame : a = b
    · subst hsame
      rw [if_pos (by omega), Nat.add_sub_cancel_left]
    · rw [if_neg (by omega), if_pos (by omega), Nat.add_sub_cancel_left]
  rw [Function.update_of_ne hb]
  by_cases ha : x = a + m
  · subst ha
    rw [Function.update_self, exchange, if_pos (by omega), Nat.add_sub_cancel_left]
  rw [Function.update_of_ne ha, exchange, exchange]
  have left : a ≤ x ∧ x < a + (m + 1) ↔ a ≤ x ∧ x < a + m := by omega
  have right : b ≤ x ∧ x < b + (m + 1) ↔ b ≤ x ∧ x < b + m := by omega
  simp only [left, right]

/-- The byte that comes next has not been touched. -/
theorem exchange_next (base : Buffer) (h : SameOrApart a b (m + 1)) :
    exchange a b m base (a + m) = base (a + m) ∧ exchange a b m base (b + m) = base (b + m) := by
  unfold SameOrApart at h
  constructor
  · rw [exchange, if_neg (by omega), if_neg (by omega)]
  · rw [exchange, if_neg (by omega), if_neg (by omega)]

theorem swapElements_eq {p q : SizeT} (h : SameOrApart p.toNat q.toNat m) (hp : p.toNat + m ≤ n)
    (hq : q.toNat + m ≤ n) :
    swapElements n base p q m = some (exchange p.toNat q.toNat m base) := by
  induction m with
  | zero =>
    have nothing : exchange p.toNat q.toNat 0 base = base := by
      funext x
      rw [exchange, if_neg (by omega), if_neg (by omega)]
    rw [nothing]
    rfl
  | succ m ih =>
    have before : SameOrApart p.toNat q.toNat m := by
      unfold SameOrApart at h ⊢
      omega
    obtain ⟨hleft, hright⟩ := exchange_next base h
    rw [swapElements, ih before (by omega) (by omega), ← exchange_succ h]
    simp only [Option.bind_eq_bind, Option.bind_some]
    rw [loadChar_of_lt _ (by omega), loadChar_of_lt _ (by omega), hleft, hright]
    simp only [Option.bind_some]
    rw [storeChar_of_lt _ _ (by omega)]
    exact storeChar_of_lt _ _ (by omega)

end Exchange

/-- A byte of an element is no byte of another one. -/
theorem element_eq_iff {i k t z : Nat} (ht : t < z) :
    i * z ≤ k * z + t ∧ k * z + t < i * z + z ↔ k = i := by
  constructor
  · rintro ⟨hfirst, hlast⟩
    by_contra hne
    rcases Nat.lt_or_gt_of_ne hne with hlt | hgt
    · have apart := Nat.mul_le_mul_right z hlt
      rw [Nat.succ_mul] at apart
      omega
    · have apart := Nat.mul_le_mul_right z hgt
      rw [Nat.succ_mul] at apart
      omega
  · rintro rfl
    omega

theorem sameOrApart_mul (i j z : Nat) : SameOrApart (i * z) (j * z) z := by
  rcases Nat.lt_trichotomy i j with hlt | rfl | hgt
  · have apart := Nat.mul_le_mul_right z hlt
    rw [Nat.succ_mul] at apart
    exact .inr (.inl apart)
  · exact .inl rfl
  · have apart := Nat.mul_le_mul_right z hgt
    rw [Nat.succ_mul] at apart
    exact .inr (.inr apart)

theorem elementAt_exchange (size : SizeT) (base : Buffer) (i j : Nat) :
    elementAt size (exchange (i * size.toNat) (j * size.toNat) size.toNat base) =
      swapAt (elementAt size base) i j := by
  funext k
  by_cases hi : k = i
  · subst hi
    rw [swapAt_left]
    refine Subtype.ext (List.map_congr_left fun t ht => ?_)
    rw [exchange, if_pos ((element_eq_iff (List.mem_range.mp ht)).mpr rfl), Nat.add_sub_cancel_left]
  by_cases hj : k = j
  · subst hj
    rw [swapAt_right]
    refine Subtype.ext (List.map_congr_left fun t ht => ?_)
    have other := mt (element_eq_iff (List.mem_range.mp ht)).mp hi
    rw [exchange, if_neg other, if_pos ((element_eq_iff (List.mem_range.mp ht)).mpr rfl),
      Nat.add_sub_cancel_left]
  rw [swapAt_other _ hi hj]
  refine Subtype.ext (List.map_congr_left fun t ht => ?_)
  have left := mt (element_eq_iff (List.mem_range.mp ht)).mp hi
  have right := mt (element_eq_iff (List.mem_range.mp ht)).mp hj
  rw [exchange, if_neg left, if_neg right]

/-! ### The same quicksort -/

/-- `compare` on elements, as a test. -/
def lessBy (size : SizeT) (compare : Comparator σ) (s : σ) (a b : ElementOf size) : Bool × σ :=
  (decide ((compare s a.1 b.1).1 < 0), (compare s a.1 b.1).2)

section Refinement

variable {num size high : SizeT} {compare : Comparator σ} {s : σ} {base : Buffer}

theorem swapElements_swapAt (base : Buffer) (hfits : num.toNat * size.toNat ≤ 2 ^ 32)
    {i j : SizeT} (hi : i.toNat < num.toNat) (hj : j.toNat < num.toNat) :
    Ends (swapElements (num.toNat * size.toNat) base (i * size) (j * size) size.toNat)
      fun base' => elementAt size base' = swapAt (elementAt size base) i.toNat j.toNat := by
  have ifits := element_fits size hi
  have jfits := element_fits size hj
  rw [← toNat_element hfits hi] at ifits
  rw [← toNat_element hfits hj] at jfits
  have apart := sameOrApart_mul i.toNat j.toNat size.toNat
  rw [← toNat_element hfits hi, ← toNat_element hfits hj] at apart
  refine ⟨_, swapElements_eq apart ifits jfits, ?_⟩
  rw [toNat_element hfits hi, toNat_element hfits hj]
  exact elementAt_exchange size base i.toNat j.toNat

theorem partitionLoop_ends (compare : Comparator σ) (s : σ) (base : Buffer)
    (hfits : num.toNat * size.toNat ≤ 2 ^ 32) (hhigh : high.toNat < num.toNat) {m : Nat}
    {i j : SizeT} (hij : i.toNat ≤ j.toNat) (hj : j.toNat + m = high.toNat) :
    Ends (partitionLoop (num.toNat * size.toNat) high size compare i j s base) fun r =>
      lomutoLoop (lessBy size compare) high.toNat m j.toNat i.toNat s (elementAt size base) =
        (r.1.toNat, r.2.1, elementAt size r.2.2) := by
  induction m generalizing i j s base with
  | zero =>
    have stop : ¬ j < high := by bv_omega
    rw [partitionLoop, dif_neg stop]
    exact ends_some.mpr rfl
  | succ m ih =>
    have turn : j < high := by bv_omega
    have jnext : (j + 1).toNat = j.toNat + 1 := by bv_omega
    have inext : (i + 1).toNat = i.toNat + 1 := by bv_omega
    rw [partitionLoop, dif_pos turn, loadElement_eq hfits (by omega), loadElement_eq hfits hhigh,
      lomutoLoop]
    simp only [Option.bind_eq_bind, Option.bind_some]
    by_cases hless : (compare s (elementBytes size base j.toNat)
      (elementBytes size base high.toNat)).1 < 0
    · have answer : (lessBy size compare s (elementAt size base j.toNat)
          (elementAt size base high.toNat)).1 = true := decide_eq_true hless
      rw [if_pos hless, if_pos answer]
      refine (swapElements_swapAt base hfits (by omega) (by omega)).bind fun base₁ helements => ?_
      rw [← helements, ← jnext, ← inext]
      exact ih _ _ (by omega) (by omega)
    · have answer : ¬ (lessBy size compare s (elementAt size base j.toNat)
          (elementAt size base high.toNat)).1 = true := fun h => hless (of_decide_eq_true h)
      rw [if_neg hless, if_neg answer, ← jnext]
      exact ih _ _ (by omega) (by omega)

theorem partition_ends (compare : Comparator σ) (s : σ) (base : Buffer)
    (hfits : num.toNat * size.toNat ≤ 2 ^ 32) (hhigh : high.toNat < num.toNat) {low : SizeT}
    (hlow : low.toNat ≤ high.toNat) :
    Ends (partition (num.toNat * size.toNat) low high size compare s base) fun r =>
      lomuto (lessBy size compare) low.toNat (high.toNat + 1) s (elementAt size base) =
        (r.1.toNat, r.2.1, elementAt size r.2.2) := by
  have length : low.toNat + (high.toNat - low.toNat) = high.toNat := by omega
  have last := (lomutoLoop_rearranges (lessBy size compare) s (elementAt size base)
    (Nat.le_refl low.toNat) length).2.1
  rw [partition]
  refine (partitionLoop_ends compare s base hfits hhigh (Nat.le_refl low.toNat) length).bind ?_
  rintro ⟨i, s₁, base₁⟩ htable
  rw [htable] at last
  refine (swapElements_swapAt base₁ hfits (Nat.lt_of_le_of_lt last hhigh) hhigh).bind ?_
  intro base₂ helements
  refine ends_some.mpr ?_
  rw [lomuto, Nat.add_sub_cancel, htable, helements]

/-- A quicksort of the places from `low` to before `hi`: `high` is the last of them, if there is
one. -/
theorem quicksort_ends (hfits : num.toNat * size.toNat ≤ 2 ^ 32) {low : SizeT} {fuel hi : Nat}
    (hhi : hi = high.toNat + 1) (hnum : hi ≤ num.toNat) (hlow : low.toNat ≤ hi)
    (hfuel : hi - low.toNat < fuel) :
    Ends (quicksort (num.toNat * size.toNat) size compare fuel low high s base) fun r =>
      sortPlaces (lessBy size compare) fuel low.toNat hi s (elementAt size base) =
        (r.1, elementAt size r.2) := by
  induction fuel generalizing low high hi s base with
  | zero => exact absurd hfuel (Nat.not_lt_zero _)
  | succ fuel ih =>
    rw [quicksort, sortPlaces]
    by_cases hlt : low < high
    · have many : low.toNat + 1 < hi := by bv_omega
      obtain ⟨hfirst, hend, -⟩ := lomuto_rearranges (lessBy size compare) s (elementAt size base)
        (by omega : low.toNat < high.toNat + 1)
      rw [if_pos hlt, if_pos many, hhi]
      refine (partition_ends compare s base hfits (by omega) (by omega)).bind ?_
      rintro ⟨pi, s₁, base₁⟩ htable
      rw [htable] at hfirst hend ⊢
      dsimp only at hfirst hend ⊢
      have left : Ends (if 0 < pi then quicksort (num.toNat * size.toNat) size compare fuel low
            (pi - 1) s₁ base₁ else some (s₁, base₁)) fun r =>
          sortPlaces (lessBy size compare) fuel low.toNat pi.toNat s₁ (elementAt size base₁) =
            (r.1, elementAt size r.2) := by
        by_cases hpi : 0 < pi
        · have last : pi.toNat = (pi - 1).toNat + 1 := by bv_omega
          rw [if_pos hpi]
          exact ih last (by omega) hfirst (by omega)
        · have zero : pi.toNat = 0 := by bv_omega
          rw [if_neg hpi, sortPlaces_of_le _ _ _ _ (by omega)]
          exact ends_some.mpr rfl
      refine left.bind ?_
      rintro ⟨s₂, base₂⟩ hleft
      have next : (pi + 1).toNat = pi.toNat + 1 := by bv_omega
      rw [hleft, ← next]
      exact ih rfl (by omega) (by omega) (by omega)
    · have few : ¬ low.toNat + 1 < hi := by bv_omega
      rw [if_neg hlt, if_neg few]
      exact ends_some.mpr rfl

/-- The answer does not depend on the depth. -/
theorem quicksort_deeper {n fuel : Nat} {low : SizeT} {r : σ × Buffer}
    (h : quicksort n size compare fuel low high s base = some r) :
    quicksort n size compare (fuel + 1) low high s base = some r := by
  induction fuel generalizing low high s base r with
  | zero => cases h
  | succ fuel ih =>
    rw [quicksort] at h ⊢
    by_cases hlt : low < high
    · rw [if_pos hlt] at h ⊢
      obtain ⟨⟨pi, s₁, base₁⟩, hpart, h⟩ := Option.bind_eq_some_iff.mp h
      obtain ⟨⟨s₂, base₂⟩, hleft, hright⟩ := Option.bind_eq_some_iff.mp h
      rw [hpart]
      simp only [Option.bind_eq_bind, Option.bind_some]
      by_cases hpi : 0 < pi
      · rw [if_pos hpi] at hleft ⊢
        rw [ih hleft]
        exact ih hright
      · rw [if_neg hpi] at hleft ⊢
        rw [hleft]
        exact ih hright
    · rw [if_neg hlt] at h ⊢
      exact h

theorem qsort_ends (compare : Comparator σ) (s : σ) (base : Buffer)
    (hfits : num.toNat * size.toNat ≤ 2 ^ 32) {fuel : Nat} (hfuel : num.toNat < fuel) :
    Ends (qsort (num.toNat * size.toNat) num size compare fuel s base) fun r =>
      sortPlaces (lessBy size compare) fuel 0 num.toNat s (elementAt size base) =
        (r.1, elementAt size r.2) := by
  rw [qsort]
  by_cases hmany : 1 < num
  · have last : num.toNat = (num - 1).toNat + 1 := by bv_omega
    rw [if_pos hmany]
    exact quicksort_ends hfits last (Nat.le_refl _) (Nat.zero_le _) hfuel
  · have few : num.toNat ≤ 0 + 1 := by bv_omega
    rw [if_neg hmany, sortPlaces_of_le _ _ _ _ few]
    exact ends_some.mpr rfl

theorem qsort_deeper {n fuel : Nat} {r : σ × Buffer}
    (h : qsort n num size compare fuel s base = some r) :
    qsort n num size compare (fuel + 1) s base = some r := by
  rw [qsort] at h ⊢
  by_cases hmany : 1 < num
  · rw [if_pos hmany] at h ⊢
    exact quicksort_deeper h
  · rw [if_neg hmany] at h ⊢
    exact h

end Refinement

/-! ### Sorted -/

theorem elementsOf_eq (num size : SizeT) (base : Buffer) :
    elementsOf num size base = ((List.range num.toNat).map (elementAt size base)).map (·.1) := by
  rw [List.map_map]
  rfl


/-- `compare` answers by a total preorder on the elements, whatever its state is. -/
structure ComparesBy (size : SizeT) (compare : Comparator σ) (le : List UInt8 → List UInt8 → Prop) :
    Prop where
  total : ∀ a b, a.length = size.toNat → b.length = size.toNat → le a b ∨ le b a
  trans : ∀ a b c, a.length = size.toNat → b.length = size.toNat → c.length = size.toNat →
    le a b → le b c → le a c
  answer : ∀ s a b, a.length = size.toNat → b.length = size.toNat →
    ((compare s a b).1 < 0 ↔ ¬ le b a)

theorem ComparesBy.goesBy {size : SizeT} {compare : Comparator σ}
    {le : List UInt8 → List UInt8 → Prop} (h : ComparesBy size compare le) :
    GoesBy (lessBy size compare) fun a b => le a.1 b.1 :=
  fun s a b => decide_eq_true_iff.trans (h.answer s a.1 b.1 a.2 b.2)

/-- `qsort` ends and stays within the array, whatever `compare` answers. The elements are the same
ones, and in order if `compare` has one. -/
theorem qsort_sorts (num size : SizeT) (hfits : num.toNat * size.toNat ≤ 2 ^ 32)
    (compare : Comparator σ) (s : σ) (base : Buffer) :
    ∃ s' base',
      (∀ fuel, num.toNat < fuel → qsort (num.toNat * size.toNat) num size compare fuel s base =
        some (s', base')) ∧
      (elementsOf num size base').Perm (elementsOf num size base) ∧
      ∀ le, ComparesBy size compare le → (elementsOf num size base').Pairwise le := by
  obtain ⟨⟨s', base'⟩, hqsort, htable⟩ := qsort_ends compare s base hfits
    (Nat.lt_add_one num.toNat)
  refine ⟨s', base', fun fuel hfuel => ?_, ?_, fun le hle => ?_⟩
  · induction fuel, hfuel using Nat.le_induction with
    | base => exact hqsort
    | succ fuel _ ih => exact qsort_deeper ih
  · have moves := sortPlaces_rearranges (lessBy size compare) (num.toNat + 1) 0 num.toNat s
      (elementAt size base)
    rw [htable] at moves
    rw [elementsOf_eq, elementsOf_eq]
    exact moves.map_range.map (·.1)
  · have depth : num.toNat - 0 ≤ num.toNat + 1 := Nat.le_succ num.toNat
    have sorted := sortPlaces_sorted hle.goesBy (fun a b => hle.total a.1 b.1 a.2 b.2)
      (fun a b c => hle.trans a.1 b.1 c.1 a.2 b.2 c.2) s (elementAt size base) depth
    rw [htable] at sorted
    refine List.pairwise_map.mpr (List.pairwise_lt_range.imp_of_mem fun {i j} _ hj hij => ?_)
    exact sorted i j (Nat.zero_le i) hij (List.mem_range.mp hj)

/-- Five elements of two bytes, by the first of them; two are alike. -/
theorem qsort_sorts_five :
    ∃ base', (∀ fuel, 5 < fuel → ∃ s', qsort 10 5 2
        (fun s a b => ((a.headD 0).toNat - (b.headD 0).toNat, s)) fuel ()
          (fun i => [5, 0, 3, 1, 9, 2, 3, 3, 1, 4].getD i 0) = some (s', base')) ∧
      (elementsOf 5 2 base').Pairwise fun a b => (a.headD 0).toNat ≤ (b.headD 0).toNat := by
  obtain ⟨s', base', hqsort, -, hsorted⟩ := qsort_sorts 5 2 (by decide)
    (fun s a b => ((a.headD 0).toNat - (b.headD 0).toNat, s)) ()
    (fun i => [5, 0, 3, 1, 9, 2, 3, 3, 1, 4].getD i 0)
  refine ⟨base', fun fuel hfuel => ⟨s', hqsort fuel hfuel⟩, hsorted _ ⟨?_, ?_, ?_⟩⟩
  · exact fun a b _ _ => Nat.le_total _ _
  · exact fun a b c _ _ _ => Nat.le_trans
  · intro s a b _ _
    dsimp only
    omega

end Qsort

/-!
## What a search finds

The loop of `bsearch` halves the places of the array as the bisection of a table does
(`bsearchLoop_ends`). So it ends and reads elements of the array only, whatever `compare` answers,
and in a sorted array it finds an element that compares equal if there is one.
-/

section Bsearch

variable {σ κ : Type}

/-- What `compare` answers at a place of the array. -/
def askAt (key : κ) (base : Buffer) (size : SizeT) (compare : σ → κ → List UInt8 → Int × σ) (s : σ)
    (k : Nat) : Int × σ :=
  compare s key (elementBytes size base k)

/-- The pointer to the element at a place. -/
def pointerTo (size : SizeT) (k : Nat) : SizeT := BitVec.ofNat 32 k * size

theorem bsearchLoop_ends {num size : SizeT} (hfits : num.toNat * size.toNat ≤ 2 ^ 32) (key : κ)
    (base : Buffer) (compare : σ → κ → List UInt8 → Int × σ) {low high : SizeT} (s : σ)
    (hhigh : high.toNat ≤ num.toNat) :
    Ends (bsearchLoop (num.toNat * size.toNat) key base size compare low high s) fun r =>
      r.1 = (bisect (askAt key base size compare) s low.toNat high.toNat).1.map
        (pointerTo size) := by
  fun_induction bsearchLoop (num.toNat * size.toNat) key base size compare low high s with
  | case1 low high s hlt mid ihLeft ihRight =>
    have order : low.toNat < high.toNat := BitVec.lt_def.mp hlt
    have middle : mid.toNat = low.toNat + (high.toNat - low.toNat) / 2 := toNat_mid hlt
    have next : (mid + 1).toNat = mid.toNat + 1 := by bv_omega
    have pointer : mid * size = pointerTo size mid.toNat := by
      rw [pointerTo, BitVec.ofNat_toNat, BitVec.setWidth_eq]
    have asked : compare s key (elementBytes size base mid.toNat) =
        askAt key base size compare s mid.toNat := rfl
    rw [loadElement_eq hfits (by omega), bisect, dif_pos order, ← middle]
    simp only [Option.bind_eq_bind, Option.bind_some]
    have left := ihLeft (elementBytes size base mid.toNat) (by omega)
    have right := ihRight (elementBytes size base mid.toNat) hhigh
    rw [asked] at left right ⊢
    split
    · exact ends_some.mpr (congrArg some pointer)
    · split
      · exact left
      · rw [next] at right
        exact right
  | case2 low high s hlt =>
    rw [bisect, dif_neg (mt BitVec.lt_def.mpr hlt)]
    exact ends_some.mpr rfl

/-- `compare` answers by a function of the element, whatever its state is, and the array is sorted
by it. -/
structure SortedFor (num size : SizeT) (key : κ) (base : Buffer)
    (compare : σ → κ → List UInt8 → Int × σ) (order : List UInt8 → Int) : Prop where
  answer : ∀ s, ∀ k < num.toNat,
    (compare s key (elementBytes size base k)).1 = order (elementBytes size base k)
  sorted : Falls (fun k => order (elementBytes size base k)) num.toNat

/-- A pointer to an element of the array. -/
def PointsTo (num size : SizeT) (p : SizeT) (k : Nat) : Prop :=
  k < num.toNat ∧ p.toNat = k * size.toNat

theorem pointsTo_pointerTo {num size : SizeT} (hfits : num.toNat * size.toNat ≤ 2 ^ 32) {k : Nat}
    (hk : k < num.toNat) : PointsTo num size (pointerTo size k) k := by
  have place : (BitVec.ofNat 32 k).toNat = k := by
    have bound := num.isLt
    rw [BitVec.toNat_ofNat, Nat.mod_eq_of_lt (by omega)]
  have address := toNat_element hfits (j := BitVec.ofNat 32 k) (by omega)
  rw [place] at address
  exact ⟨hk, address⟩

/-- `bsearch` ends and reads elements of the array only, whatever `compare` answers, and what it
returns points to one of them. In a sorted array that one compares equal, and it is found whenever
there is one. -/
theorem bsearch_finds (num size : SizeT) (hfits : num.toNat * size.toNat ≤ 2 ^ 32) (key : κ)
    (base : Buffer) (compare : σ → κ → List UInt8 → Int × σ) (s : σ) :
    Ends (bsearch (num.toNat * size.toNat) key base num size compare s) fun r =>
      (∀ p, r.1 = some p → ∃ k, PointsTo num size p k) ∧
        ∀ order, SortedFor num size key base compare order →
          (∀ p, r.1 = some p →
            ∃ k, PointsTo num size p k ∧ order (elementBytes size base k) = 0) ∧
          ((∃ p, r.1 = some p) ↔ ∃ k < num.toNat, order (elementBytes size base k) = 0) := by
  refine (bsearchLoop_ends hfits key base compare s (Nat.le_refl _)).mono fun r hr => ?_
  have zero : (0 : SizeT).toNat = 0 := BitVec.toNat_zero
  rw [zero] at hr
  have found : ∀ p, r.1 = some p → ∃ k, PointsTo num size p k ∧
      ∃ t, (askAt key base size compare t k).1 = 0 := by
    intro p hp
    obtain ⟨k, hk, rfl⟩ := Option.map_eq_some_iff.mp (hr.symm.trans hp)
    obtain ⟨-, hhigh, hzero⟩ := bisect_sound hk
    exact ⟨k, pointsTo_pointerTo hfits hhigh, hzero⟩
  refine ⟨fun p hp => ?_, fun order h => ⟨fun p hp => ?_, ?_⟩⟩
  · obtain ⟨k, hpoints, -⟩ := found p hp
    exact ⟨k, hpoints⟩
  · obtain ⟨k, hpoints, t, hzero⟩ := found p hp
    exact ⟨k, hpoints, (h.answer t k hpoints.1).symm.trans hzero⟩
  · rw [← bisect_isSome_iff h.sorted h.answer s, hr]
    constructor
    · rintro ⟨p, hp⟩
      obtain ⟨k, hk, -⟩ := Option.map_eq_some_iff.mp hp
      exact ⟨k, hk⟩
    · rintro ⟨k, hk⟩
      exact ⟨pointerTo size k, congrArg (Option.map (pointerTo size)) hk⟩

/-- Two elements of one byte, and the key 7. -/
theorem bsearch_finds_two :
    Ends (bsearch 2 7 (fun i => if i = 0 then 3 else 7) 2 1
        (fun s key e => ((key : Nat) - (e.headD 0).toNat, s)) ()) fun r => ∃ p, r.1 = some p := by
  refine (bsearch_finds 2 1 (by decide) 7 (fun i => if i = 0 then 3 else 7)
    (fun s key e => ((key : Nat) - (e.headD 0).toNat, s)) ()).mono fun r hr => ?_
  refine (hr.2 (fun e => (7 : Nat) - (e.headD 0).toNat) ⟨fun _ _ _ => rfl, ?_⟩).2.mpr
    ⟨1, by decide, by decide⟩
  intro i j hij hj
  have two : (2 : SizeT).toNat = 2 := rfl
  obtain ⟨rfl, rfl⟩ : i = 0 ∧ j = 1 := by omega
  decide

end Bsearch

end Unics
