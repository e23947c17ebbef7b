import Mathlib.Algebra.BigOperators.Group.List.Basic
import Unics.Lib.TrialDivision
import Unics.Lib.Words
import Unics.Bin.Numbers
import Unics.Laws.Libc.Numbers

/-!
# The factors that are printed

What has been printed multiplied by what is left is the number, and what is left has no prime factor
below the divisor that is tried. The square of the divisor fits in an `int` up to 46340, so that the
loop must not come to 46341: it does not if the number is less than the square of 46339, or has a
smaller prime factor, by which it is divided in time (`TrialFits`).
-/

namespace Unics

open Unics.Lib

/-- The loop is over before a square overflows. -/
def TrialFits (m : ℕ) : Prop := m < 46339 * 46339 ∨ ∃ p, p.Prime ∧ p ∣ m ∧ p < 46339

/-! ## Words -/

section Words

variable {a b : BitVec 32}

theorem msb_of_lt (h : a.toNat < 2 ^ 31) : a.msb = false :=
  BitVec.msb_eq_false_iff_two_mul_lt.mpr (by omega)

theorem srem_eq_zero_iff (ha : a.toNat < 2 ^ 31) (hb : b.toNat < 2 ^ 31) :
    a.srem b = 0 ↔ b.toNat ∣ a.toNat := by
  rw [← BitVec.toNat_inj, toNat_srem_of_nonneg (msb_of_lt ha) (msb_of_lt hb)]
  exact Nat.dvd_iff_mod_eq_zero.symm

theorem toNat_sdiv (ha : a.toNat < 2 ^ 31) (hb : b.toNat < 2 ^ 31) :
    (a.sdiv b).toNat = a.toNat / b.toNat :=
  toNat_sdiv_of_nonneg (msb_of_lt ha) (msb_of_lt hb)

theorem toInt_of_lt (h : a.toNat < 2 ^ 31) : a.toInt = a.toNat :=
  BitVec.toInt_eq_toNat_of_msb (msb_of_lt h)

theorem sle_iff (ha : a.toNat < 2 ^ 31) (hb : b.toNat < 2 ^ 31) :
    a.sle b = true ↔ a.toNat ≤ b.toNat := by
  rw [BitVec.sle_eq_decide, decide_eq_true_iff, toInt_of_lt ha, toInt_of_lt hb]
  omega

theorem slt_iff (ha : a.toNat < 2 ^ 31) (hb : b.toNat < 2 ^ 31) :
    a.slt b = true ↔ a.toNat < b.toNat := by
  rw [BitVec.slt_eq_decide, decide_eq_true_iff, toInt_of_lt ha, toInt_of_lt hb]
  omega

theorem mulInt_of_lt (ha : a.toNat < 2 ^ 31) (hb : b.toNat < 2 ^ 31)
    (h : a.toNat * b.toNat < 2 ^ 31) : mulInt a b = some (a * b) := by
  refine if_neg (Bool.eq_false_iff.mp ?_)
  rw [BitVec.smulOverflow, toInt_of_lt ha, toInt_of_lt hb, ← Int.natCast_mul, Bool.or_eq_false_iff]
  exact ⟨decide_eq_false (by omega), decide_eq_false (by omega)⟩

theorem mulInt_of_ge (ha : a.toNat < 2 ^ 31) (hb : b.toNat < 2 ^ 31)
    (h : 2 ^ 31 ≤ a.toNat * b.toNat) : mulInt a b = none := by
  refine if_pos ?_
  rw [BitVec.smulOverflow, toInt_of_lt ha, toInt_of_lt hb, ← Int.natCast_mul, Bool.or_eq_true_iff]
  exact .inl (decide_eq_true (by omega))

theorem toNat_mul_of_lt (h : a.toNat * b.toNat < 2 ^ 31) : (a * b).toNat = a.toNat * b.toNat := by
  rw [BitVec.toNat_mul]
  exact Nat.mod_eq_of_lt (by omega)

theorem addInt_of_lt (h : a.toNat + b.toNat < 2 ^ 31) : addInt a b = some (a + b) := by
  refine if_neg (Bool.eq_false_iff.mp ?_)
  rw [BitVec.saddOverflow, toInt_of_lt (a := a) (by omega), toInt_of_lt (a := b) (by omega),
    Bool.or_eq_false_iff]
  exact ⟨decide_eq_false (by omega), decide_eq_false (by omega)⟩

theorem toNat_add_of_lt (h : a.toNat + b.toNat < 2 ^ 31) : (a + b).toNat = a.toNat + b.toNat := by
  rw [BitVec.toNat_add]
  exact Nat.mod_eq_of_lt (by omega)

end Words

/-! ## What has been printed -/

/-- The factors that have been printed are primes in order, and the line shows them. -/
structure FactorLine (s : Factoring) (ps : List ℕ) : Prop where
  primes : ∀ p ∈ ps, p.Prime
  sorted : ps.Pairwise (· ≤ ·)
  line : s.line = [32].intercalate (ps.map (numeral 10))
  printed : s.printed = !ps.isEmpty

theorem intercalate_concat (sep : List UInt8) (l : List (List UInt8)) (x : List UInt8) :
    sep.intercalate (l ++ [x]) = sep.intercalate l ++ ((if l = [] then [] else sep) ++ x) := by
  induction l with
  | nil => exact List.append_nil x
  | cons y l ih =>
    cases l with
    | nil =>
      show y ++ (sep ++ (x ++ [])) = y ++ [] ++ (sep ++ x)
      rw [List.append_nil, List.append_nil]
    | cons z l =>
      show y ++ (sep ++ sep.intercalate ((z :: l) ++ [x])) =
        y ++ (sep ++ sep.intercalate (z :: l)) ++ (sep ++ x)
      rw [ih, if_neg (List.cons_ne_nil z l), List.append_assoc, List.append_assoc]

/-- One more prime that is not below the others. -/
theorem FactorLine.put {s : Factoring} {ps : List ℕ} (h : FactorLine s ps) {p : ℕ} (hp : p.Prime)
    (hle : ∀ q ∈ ps, q ≤ p) : FactorLine (s.put (numeral 10 p)) (ps ++ [p]) where
  primes q hq := by
    rcases List.mem_append.mp hq with hq | hq
    · exact h.primes q hq
    · exact List.mem_singleton.mp hq ▸ hp
  sorted := by
    refine List.pairwise_append.mpr ⟨h.sorted, List.pairwise_singleton _ _, fun q hq r hr => ?_⟩
    rw [List.mem_singleton.mp hr]
    exact hle q hq
  line := by
    rw [List.map_append, List.map_singleton, intercalate_concat, ← h.line]
    refine congrArg (s.line ++ ·) (congrArg (· ++ numeral 10 p) ?_)
    rw [h.printed]
    cases ps with
    | nil => rfl
    | cons q ps => rfl
  printed := by
    have some_factor : (ps ++ [p]).isEmpty = false := List.isEmpty_eq_false_iff.mpr
      (List.append_ne_nil_of_right_ne_nil ps (List.cons_ne_nil p []))
    rw [some_factor]
    rfl

/-- The line does not depend on where the code is. -/
theorem FactorLine.congr {s t : Factoring} {ps : List ℕ} (h : FactorLine s ps)
    (hline : t.line = s.line) (hprinted : t.printed = s.printed) : FactorLine t ps :=
  ⟨h.primes, h.sorted, hline.trans h.line, hprinted.trans h.printed⟩

/-! ## One turn -/

/-- The divisor `i` is tried. -/
structure Trial (m : ℕ) (ps : List ℕ) (s : Factoring) : Prop where
  prod : ps.prod * s.n.toNat = m
  odd : s.n.toNat % 2 = 1
  divisor : s.i.toNat % 2 = 1
  three : 3 ≤ s.i.toNat
  rough : Rough s.i.toNat s.n.toNat

/-- What is known at each place of the code. -/
inductive FactorPlace (m : ℕ) (ps : List ℕ) (s : Factoring) : Prop
  | twos : s.phase = .twos → ps.prod * s.n.toNat = m → (∀ p ∈ ps, p = 2) → FactorPlace m ps s
  | test : s.phase = .test → Trial m ps s → s.i.toNat ≤ 46339 → (∀ p ∈ ps, p < s.i.toNat) →
      FactorPlace m ps s
  | inner : s.phase = .inner → Trial m ps s → s.i.toNat ≤ 46337 → (∀ p ∈ ps, p ≤ s.i.toNat) →
      FactorPlace m ps s
  | remaining : s.phase = .remaining → ps.prod * s.n.toNat = m →
      s.n.toNat = 1 ∨ s.n.toNat.Prime ∧ (∀ p ∈ ps, p ≤ s.n.toNat) → FactorPlace m ps s
  | finished : s.phase = .finished → ps.prod = m → FactorPlace m ps s

def FactorInv (m : ℕ) (s : Factoring) : Prop := ∃ ps, FactorLine s ps ∧ FactorPlace m ps s

/-- What is left of the work: less with each turn. -/
def factorRank (s : Factoring) : ℕ :=
  match s.phase with
  | .twos => s.n.toNat * 200000 + 150000
  | .test => s.n.toNat * 200000 + (50000 - s.i.toNat) * 2 + 1
  | .inner => s.n.toNat * 200000 + (50000 - s.i.toNat) * 2
  | .remaining => 1
  | .finished => 0

section Turn

variable {m : ℕ} {s : Factoring} {ps : List ℕ}

theorem factorRank_twos (h : s.phase = .twos) : factorRank s = s.n.toNat * 200000 + 150000 := by
  rw [factorRank, h]

theorem factorRank_test (h : s.phase = .test) :
    factorRank s = s.n.toNat * 200000 + (50000 - s.i.toNat) * 2 + 1 := by
  rw [factorRank, h]

theorem factorRank_inner (h : s.phase = .inner) :
    factorRank s = s.n.toNat * 200000 + (50000 - s.i.toNat) * 2 := by
  rw [factorRank, h]

theorem factorRank_remaining (h : s.phase = .remaining) : factorRank s = 1 := by
  rw [factorRank, h]

theorem pos_of_prod {x n : ℕ} (hpos : 0 < m) (h : x * n = m) : 0 < x ∧ 0 < n ∧ n ≤ m := by
  subst h
  have hx := Nat.pos_of_mul_pos_right hpos
  have hn := Nat.pos_of_mul_pos_left hpos
  exact ⟨hx, hn, Nat.le_mul_of_pos_left n hx⟩

/-! What the turns do. -/

theorem factorTurn_even (hphase : s.phase = .twos) (h : s.n.srem 2 = 0) :
    factorTurn s = some { s.put [50] with n := s.n.sdiv 2 } := by
  unfold factorTurn
  rw [hphase]
  exact if_pos h

theorem factorTurn_odd (hphase : s.phase = .twos) (h : ¬ s.n.srem 2 = 0) :
    factorTurn s = some { s with i := 3, phase := .test } := by
  unfold factorTurn
  rw [hphase]
  exact if_neg h

theorem factorTurn_square (hphase : s.phase = .test) (hi : s.i.toNat < 2 ^ 31)
    (h : s.i.toNat * s.i.toNat < 2 ^ 31) :
    factorTurn s = some { s with phase := if (s.i * s.i).sle s.n then .inner else .remaining } := by
  unfold factorTurn
  rw [hphase]
  dsimp only
  rw [mulInt_of_lt hi hi h]
  rfl

theorem factorTurn_overflow (hphase : s.phase = .test) (hi : s.i.toNat < 2 ^ 31)
    (h : 2 ^ 31 ≤ s.i.toNat * s.i.toNat) : factorTurn s = none := by
  unfold factorTurn
  rw [hphase]
  dsimp only
  rw [mulInt_of_ge hi hi h]
  rfl

theorem factorTurn_divides (hphase : s.phase = .inner) (h : s.n.srem s.i = 0) :
    factorTurn s = some { s.put (numText s.i 10) with n := s.n.sdiv s.i } := by
  unfold factorTurn
  rw [hphase]
  exact if_pos h

theorem factorTurn_next (hphase : s.phase = .inner) (h : ¬ s.n.srem s.i = 0)
    (hi : s.i.toNat + (2 : BitVec 32).toNat < 2 ^ 31) :
    factorTurn s = some { s with i := s.i + 2, phase := .test } := by
  unfold factorTurn
  rw [hphase]
  dsimp only
  rw [if_neg h, addInt_of_lt hi]
  rfl

/-- A turn of the loop for the factor 2. -/
theorem factorTurn_twos (hm : m < 2 ^ 31) (hpos : 0 < m) (hline : FactorLine s ps)
    (hphase : s.phase = .twos) (hprod : ps.prod * s.n.toNat = m) (hps : ∀ p ∈ ps, p = 2) :
    ∃ t, factorTurn s = some t ∧ FactorInv m t ∧ factorRank t < factorRank s := by
  obtain ⟨-, hn, hnm⟩ := pos_of_prod hpos hprod
  have two : (2 : BitVec 32).toNat = 2 := rfl
  have even : s.n.srem 2 = 0 ↔ 2 ∣ s.n.toNat := srem_eq_zero_iff (b := 2) (by omega) (by decide)
  have rank := factorRank_twos hphase
  by_cases h : 2 ∣ s.n.toNat
  · have half : (s.n.sdiv 2).toNat = s.n.toNat / 2 := toNat_sdiv (b := 2) (by omega) (by decide)
    have text : [50] = numeral 10 2 := by
      rw [numeral, if_neg (by decide), Nat.digits_of_lt 10 2 (by decide) (by decide)]
      rfl
    refine ⟨_, factorTurn_even hphase (even.mpr h), ⟨ps ++ [2], ?_, .twos hphase ?_ ?_⟩, ?_⟩
    · rw [text]
      exact (hline.put Nat.prime_two fun q hq => Nat.le_of_eq (hps q hq)).congr rfl rfl
    · show (ps ++ [2]).prod * (s.n.sdiv 2).toNat = m
      rw [List.prod_append, List.prod_singleton, half, Nat.mul_assoc, Nat.mul_div_cancel' h, hprod]
    · intro p hp
      rcases List.mem_append.mp hp with hp | hp
      · exact hps p hp
      · exact List.mem_singleton.mp hp
    · refine Nat.lt_of_le_of_lt (Nat.le_of_eq (factorRank_twos hphase)) ?_
      show (s.n.sdiv 2).toNat * 200000 + 150000 < _
      omega
  · refine ⟨_, factorTurn_odd hphase (mt even.mp h),
      ⟨ps, hline.congr rfl rfl, .test rfl ?_ ?_ ?_⟩, ?_⟩
    · refine ⟨hprod, (by omega : s.n.toNat % 2 = 1), (by decide : (3 : BitVec 32).toNat % 2 = 1),
        Nat.le_refl 3, fun p hp hpn => ?_⟩
      have ne_two : p ≠ 2 := by
        rintro rfl
        exact h hpn
      exact Nat.lt_of_le_of_ne hp.two_le ne_two.symm
    · exact (by decide : (3 : BitVec 32).toNat ≤ 46339)
    · intro p hp
      rw [hps p hp]
      exact (by decide : 2 < (3 : BitVec 32).toNat)
    · rw [rank]
      show s.n.toNat * 200000 + (50000 - 3) * 2 + 1 < _
      omega

/-- The test lets the divisor 46339 pass only if nothing has been divided out. -/
theorem TrialFits.divisor_le (hfits : TrialFits m) (hm : m < 2 ^ 31) (hpos : 0 < m)
    (htrial : Trial m ps s) (hle : s.i.toNat ≤ 46339)
    (hsquare : s.i.toNat * s.i.toNat ≤ s.n.toNat) : s.i.toNat ≤ 46337 := by
  obtain ⟨hps, hn, hnm⟩ := pos_of_prod hpos htrial.prod
  have odd := htrial.divisor
  by_contra hgt
  have last : s.i.toNat = 46339 := by omega
  rw [last] at hsquare
  have whole : s.n.toNat = m := by
    have one : ps.prod = 1 := by
      by_contra hne
      have double : 2 * s.n.toNat ≤ ps.prod * s.n.toNat := Nat.mul_le_mul_right _ (by omega)
      rw [htrial.prod] at double
      omega
    rw [← htrial.prod, one, Nat.one_mul]
  rcases hfits with hlt | ⟨p, hp, hdvd, hlt⟩
  · omega
  · have ge := htrial.rough p hp (whole ▸ hdvd)
    omega

/-- The test of the outer loop. -/
theorem factorTurn_test (hm : m < 2 ^ 31) (hpos : 0 < m) (hfits : TrialFits m)
    (hline : FactorLine s ps) (hphase : s.phase = .test) (htrial : Trial m ps s)
    (hle : s.i.toNat ≤ 46339) (hps : ∀ p ∈ ps, p < s.i.toNat) :
    ∃ t, factorTurn s = some t ∧ FactorInv m t ∧ factorRank t < factorRank s := by
  obtain ⟨-, hn, hnm⟩ := pos_of_prod hpos htrial.prod
  have square : s.i.toNat * s.i.toNat < 2 ^ 31 := by
    have bound := Nat.mul_le_mul hle hle
    omega
  have product := toNat_mul_of_lt square
  have rank := factorRank_test hphase
  refine ⟨_, factorTurn_square hphase (by omega) square, ⟨ps, hline.congr rfl rfl, ?_⟩, ?_⟩
  · by_cases h : s.i.toNat * s.i.toNat ≤ s.n.toNat
    · have within : (s.i * s.i).sle s.n = true := by
        rw [sle_iff (by omega) (by omega), product]
        exact h
      refine .inner (if_pos within) ⟨htrial.prod, htrial.odd, htrial.divisor, htrial.three,
        htrial.rough⟩ (hfits.divisor_le (s := s) hm hpos htrial hle h)
        fun p hp => Nat.le_of_lt (hps p hp)
    · have beyond : ¬ (s.i * s.i).sle s.n = true := by
        rw [sle_iff (by omega) (by omega), product]
        exact h
      refine .remaining (if_neg beyond) htrial.prod ?_
      refine (htrial.rough.eq_one_or_prime hn (Nat.lt_of_not_le h)).imp id fun hprime => ?_
      refine ⟨hprime, fun p hp => (Nat.le_of_lt (hps p hp)).trans ?_⟩
      exact htrial.rough _ hprime (Nat.dvd_refl _)
  · rw [rank]
    by_cases h : (s.i * s.i).sle s.n = true
    · rw [if_pos h]
      exact Nat.lt_succ_self _
    · rw [if_neg h]
      show 1 < _
      omega

/-- A turn of the loop for a divisor that divides. -/
theorem factorTurn_divided (hm : m < 2 ^ 31) (hpos : 0 < m) (hline : FactorLine s ps)
    (hphase : s.phase = .inner) (htrial : Trial m ps s) (hle : s.i.toNat ≤ 46337)
    (hps : ∀ p ∈ ps, p ≤ s.i.toNat) (h : s.i.toNat ∣ s.n.toNat) :
    ∃ t, factorTurn s = some t ∧ FactorInv m t ∧ factorRank t < factorRank s := by
  obtain ⟨-, hn, hnm⟩ := pos_of_prod hpos htrial.prod
  have odd := htrial.odd
  have three := htrial.three
  have divides : s.n.srem s.i = 0 := (srem_eq_zero_iff (by omega) (by omega)).mpr h
  have quotient : (s.n.sdiv s.i).toNat = s.n.toNat / s.i.toNat := toNat_sdiv (by omega) (by omega)
  have exact_div := Nat.mul_div_cancel' h
  have smaller : s.n.toNat / s.i.toNat < s.n.toNat := Nat.div_lt_self hn (by omega)
  have prime := htrial.rough.prime_of_dvd (by omega) h
  have text : numText s.i 10 = numeral 10 s.i.toNat :=
    (numText_eq_numeral_iff (b := 10) (by decide) (by decide) s.i).mpr (by omega)
  refine ⟨_, factorTurn_divides hphase divides, ⟨ps ++ [s.i.toNat], ?_, .inner hphase ⟨?_, ?_,
    htrial.divisor, three, ?_⟩ hle ?_⟩, ?_⟩
  · rw [text]
    exact (hline.put prime hps).congr rfl rfl
  · show (ps ++ [s.i.toNat]).prod * (s.n.sdiv s.i).toNat = m
    rw [List.prod_append, List.prod_singleton, quotient, Nat.mul_assoc, exact_div, htrial.prod]
  · show (s.n.sdiv s.i).toNat % 2 = 1
    rw [quotient]
    by_contra heven
    have factor : 2 ∣ s.n.toNat := by
      rw [← exact_div]
      exact Dvd.dvd.mul_left (Nat.dvd_of_mod_eq_zero (by omega)) _
    omega
  · show Rough s.i.toNat (s.n.sdiv s.i).toNat
    rw [quotient]
    exact htrial.rough.of_dvd (Nat.div_dvd_of_dvd h)
  · intro p hp
    rcases List.mem_append.mp hp with hp | hp
    · exact hps p hp
    · exact Nat.le_of_eq (List.mem_singleton.mp hp)
  · refine Nat.lt_of_le_of_lt (Nat.le_of_eq (factorRank_inner hphase)) ?_
    rw [factorRank_inner hphase]
    show (s.n.sdiv s.i).toNat * 200000 + (50000 - s.i.toNat) * 2 < _
    omega

/-- The loop goes on to the next divisor. -/
theorem factorTurn_undivided (hm : m < 2 ^ 31) (hpos : 0 < m) (hline : FactorLine s ps)
    (hphase : s.phase = .inner) (htrial : Trial m ps s) (hle : s.i.toNat ≤ 46337)
    (hps : ∀ p ∈ ps, p ≤ s.i.toNat) (h : ¬ s.i.toNat ∣ s.n.toNat) :
    ∃ t, factorTurn s = some t ∧ FactorInv m t ∧ factorRank t < factorRank s := by
  obtain ⟨-, hn, hnm⟩ := pos_of_prod hpos htrial.prod
  have odd := htrial.odd
  have three := htrial.three
  have hdivisor := htrial.divisor
  have divides : ¬ s.n.srem s.i = 0 := mt (srem_eq_zero_iff (by omega) (by omega)).mp h
  have two : (2 : BitVec 32).toNat = 2 := rfl
  have sum : s.i.toNat + (2 : BitVec 32).toNat < 2 ^ 31 := by omega
  have next := toNat_add_of_lt sum
  rw [two] at next
  have rough : Rough (s.i.toNat + 2) s.n.toNat := by
    refine (htrial.rough.succ h).succ fun heven => ?_
    have factor : 2 ∣ s.n.toNat := (Nat.dvd_of_mod_eq_zero (by omega)).trans heven
    omega
  refine ⟨_, factorTurn_next hphase divides sum,
    ⟨ps, hline.congr rfl rfl, .test rfl ⟨htrial.prod, odd, ?_, ?_, ?_⟩ ?_ ?_⟩, ?_⟩
  · show (s.i + 2).toNat % 2 = 1
    omega
  · show 3 ≤ (s.i + 2).toNat
    omega
  · show Rough (s.i + 2).toNat s.n.toNat
    rw [next]
    exact rough
  · show (s.i + 2).toNat ≤ 46339
    omega
  · intro p hp
    show p < (s.i + 2).toNat
    have below := hps p hp
    omega
  · rw [factorRank_inner hphase]
    show s.n.toNat * 200000 + (50000 - (s.i + 2).toNat) * 2 + 1 < _
    omega

/-- The factor that remains. -/
theorem factorTurn_remaining (hm : m < 2 ^ 31) (hpos : 0 < m) (hline : FactorLine s ps)
    (hphase : s.phase = .remaining) (hprod : ps.prod * s.n.toNat = m)
    (hlast : s.n.toNat = 1 ∨ s.n.toNat.Prime ∧ (∀ p ∈ ps, p ≤ s.n.toNat)) :
    ∃ t, factorTurn s = some t ∧ FactorInv m t ∧ factorRank t < factorRank s := by
  obtain ⟨-, hn, hnm⟩ := pos_of_prod hpos hprod
  have one : (1 : BitVec 32).toNat = 1 := rfl
  have above : (1 : BitVec 32).slt s.n = true ↔ 1 < s.n.toNat :=
    slt_iff (a := 1) (by decide) (by omega)
  have rank := factorRank_remaining hphase
  unfold factorTurn
  rw [hphase]
  dsimp only
  rcases hlast with hone | ⟨hprime, hps⟩
  · have no : ¬ (1 : BitVec 32).slt s.n = true := by
      rw [above]
      omega
    rw [if_neg no]
    refine ⟨_, rfl, ⟨ps, hline.congr rfl rfl, .finished rfl ?_⟩, by rw [rank]; exact Nat.one_pos⟩
    rw [← hprod, hone, Nat.mul_one]
  · have text : numText s.n 10 = numeral 10 s.n.toNat :=
      (numText_eq_numeral_iff (b := 10) (by decide) (by decide) s.n).mpr (by omega)
    rw [if_pos (above.mpr hprime.one_lt), text]
    refine ⟨_, rfl, ⟨ps ++ [s.n.toNat], (hline.put hprime hps).congr rfl rfl, .finished rfl ?_⟩,
      by rw [rank]; exact Nat.one_pos⟩
    rw [List.prod_append, List.prod_singleton, hprod]

/-- Every turn goes through and keeps the invariant. -/
theorem factorTurn_inv (hm : m < 2 ^ 31) (hpos : 0 < m) (hfits : TrialFits m)
    (h : FactorInv m s) (hdone : s.done = false) :
    ∃ t, factorTurn s = some t ∧ FactorInv m t ∧ factorRank t < factorRank s := by
  obtain ⟨ps, hline, hplace⟩ := h
  cases hplace with
  | twos hphase hprod hps => exact factorTurn_twos hm hpos hline hphase hprod hps
  | test hphase htrial hle hps => exact factorTurn_test hm hpos hfits hline hphase htrial hle hps
  | inner hphase htrial hle hps =>
    by_cases h : s.i.toNat ∣ s.n.toNat
    · exact factorTurn_divided hm hpos hline hphase htrial hle hps h
    · exact factorTurn_undivided hm hpos hline hphase htrial hle hps h
  | remaining hphase hprod hlast => exact factorTurn_remaining hm hpos hline hphase hprod hlast
  | finished hphase _ => exact absurd hphase (of_decide_eq_false hdone)

end Turn

/-- At the end all factors have been printed. -/
theorem FactorPlace.prod_of_done {m : ℕ} {ps : List ℕ} {s : Factoring} (h : FactorPlace m ps s)
    (hdone : s.done = true) : ps.prod = m := by
  have hend : s.phase = .finished := of_decide_eq_true hdone
  cases h with
  | finished _ hprod => exact hprod
  | twos hphase _ _ => cases hphase.symm.trans hend
  | test hphase _ _ _ => cases hphase.symm.trans hend
  | inner hphase _ _ _ => cases hphase.symm.trans hend
  | remaining hphase _ _ => cases hphase.symm.trans hend

/-! ## The overflow -/

/-- A number that is not divided before 46339 is tried keeps the loop going up to there. -/
inductive FactorStuck (m : ℕ) (s : Factoring) : Prop
  | twos : s.phase = .twos → s.n.toNat = m → FactorStuck m s
  | test : s.phase = .test → s.n.toNat = m → s.i.toNat % 2 = 1 → 3 ≤ s.i.toNat →
      s.i.toNat ≤ 46339 → FactorStuck m s
  | inner : s.phase = .inner → s.n.toNat = m → s.i.toNat % 2 = 1 → 3 ≤ s.i.toNat →
      s.i.toNat ≤ 46337 → FactorStuck m s
  | last : s.phase = .inner → s.i.toNat = 46339 → FactorStuck m s
  | overflow : s.phase = .test → s.i.toNat = 46341 → FactorStuck m s

section Stuck

variable {m : ℕ} {s t : Factoring}

/-- No divisor up to 46338 divides. -/
theorem not_dvd_of_rough (hrough : Rough 46339 m) {i : ℕ} (hi : 2 ≤ i) (hle : i ≤ 46338) :
    ¬ i ∣ m := by
  intro hdvd
  have smallest := Nat.minFac_prime (Nat.ne_of_gt hi)
  have ge := hrough i.minFac smallest ((Nat.minFac_dvd i).trans hdvd)
  have le := Nat.minFac_le (n := i) (by omega)
  omega

theorem factorTurn_stuck (hm : m < 2 ^ 31) (hlarge : 46339 * 46339 ≤ m) (hrough : Rough 46339 m)
    (h : FactorStuck m s) (hturn : factorTurn s = some t) : FactorStuck m t := by
  have two : (2 : BitVec 32).toNat = 2 := rfl
  cases h with
  | twos hphase hn =>
    have odd : ¬ s.n.srem 2 = 0 := by
      rw [srem_eq_zero_iff (b := 2) (by omega) (by decide), two, hn]
      exact not_dvd_of_rough hrough (by decide) (by decide)
    rw [factorTurn_odd hphase odd] at hturn
    obtain rfl := Option.some.inj hturn
    exact .test rfl hn (by decide : (3 : BitVec 32).toNat % 2 = 1) (Nat.le_refl 3)
      (by decide : (3 : BitVec 32).toNat ≤ 46339)
  | test hphase hn hodd hthree hle =>
    have bound := Nat.mul_le_mul hle hle
    have square : s.i.toNat * s.i.toNat < 2 ^ 31 := by omega
    have within : (s.i * s.i).sle s.n = true := by
      rw [sle_iff (by rw [toNat_mul_of_lt square]; omega) (by omega), toNat_mul_of_lt square]
      omega
    rw [factorTurn_square hphase (by omega) square, if_pos within] at hturn
    obtain rfl := Option.some.inj hturn
    rcases Nat.lt_or_ge s.i.toNat 46339 with hlt | hge
    · exact .inner rfl hn hodd hthree (by show s.i.toNat ≤ 46337; omega)
    · exact .last rfl (by show s.i.toNat = 46339; omega)
  | inner hphase hn hodd hthree hle =>
    have next := toNat_add_of_lt (a := s.i) (b := 2) (by omega)
    have no : ¬ s.n.srem s.i = 0 := by
      rw [srem_eq_zero_iff (by omega) (by omega), hn]
      exact not_dvd_of_rough hrough (by omega) (by omega)
    rw [factorTurn_next hphase no (by omega)] at hturn
    obtain rfl := Option.some.inj hturn
    exact .test rfl hn (by show (s.i + 2).toNat % 2 = 1; omega)
      (by show 3 ≤ (s.i + 2).toNat; omega) (by show (s.i + 2).toNat ≤ 46339; omega)
  | last hphase hi =>
    have next := toNat_add_of_lt (a := s.i) (b := 2) (by omega)
    by_cases h : s.n.srem s.i = 0
    · rw [factorTurn_divides hphase h] at hturn
      obtain rfl := Option.some.inj hturn
      exact .last hphase hi
    · rw [factorTurn_next hphase h (by omega)] at hturn
      obtain rfl := Option.some.inj hturn
      exact .overflow rfl (by show (s.i + 2).toNat = 46341; omega)
  | overflow hphase hi =>
    have square : 2 ^ 31 ≤ s.i.toNat * s.i.toNat := by
      rw [hi]
      decide
    rw [factorTurn_overflow hphase (by omega) square] at hturn
    exact absurd hturn (Option.some_ne_none t).symm

theorem FactorStuck.not_done (h : FactorStuck m s) : s.done = false := by
  cases h with
  | twos hphase _ => rw [Factoring.done, hphase]; rfl
  | test hphase _ _ _ _ => rw [Factoring.done, hphase]; rfl
  | inner hphase _ _ _ _ => rw [Factoring.done, hphase]; rfl
  | last hphase _ => rw [Factoring.done, hphase]; rfl
  | overflow hphase _ => rw [Factoring.done, hphase]; rfl

end Stuck

/-! ## The whole command -/

section Main

variable {m : ℕ} {n : BitVec 32}

/-- The loops come to their end. -/
theorem factor_ends (hm : m < 2 ^ 31) (hpos : 0 < m) (hfits : TrialFits m) (hn : n.toNat = m) :
    ∃ fuel s, turns Factoring.done factorTurn fuel (.start n) = some s ∧ s.done = true ∧
      FactorInv m s := by
  have start : FactorInv m (.start n) :=
    ⟨[], ⟨fun p hp => absurd hp List.not_mem_nil, .nil, rfl, rfl⟩,
      .twos rfl ((Nat.one_mul _).trans hn) fun p hp => absurd hp List.not_mem_nil⟩
  obtain ⟨s, hs⟩ := turns_ends factorRank (fun s => factorTurn_inv hm hpos hfits) start
    (Nat.le_refl _)
  exact ⟨_, s, hs⟩

/-- The loops do not come to their end. -/
theorem factor_never_ends (hm : m < 2 ^ 31) (hfits : ¬ TrialFits m) (hn : n.toNat = m) {fuel : ℕ}
    {s : Factoring} (hrun : turns Factoring.done factorTurn fuel (.start n) = some s) :
    s.done = false := by
  obtain ⟨hlarge, hno⟩ := not_or.mp hfits
  have rough : Rough 46339 m := by
    intro p hp hdvd
    by_contra hlt
    exact hno ⟨p, hp, hdvd, Nat.lt_of_not_le hlt⟩
  have stuck : FactorStuck m s := turns_invariant (I := FactorStuck m)
    (fun s t h _ => factorTurn_stuck hm (Nat.le_of_not_lt hlarge) rough h) (.twos rfl hn) hrun
  exact stuck.not_done

/-- The loops are over in time for all numbers but the primes from the square of 46339 on. -/
theorem trialFits_iff (hm : m < 2 ^ 31) (htwo : 2 ≤ m) :
    TrialFits m ↔ m < 46339 * 46339 ∨ ¬ m.Prime := by
  refine or_congr_right' fun hlarge => ⟨fun ⟨p, hp, hdvd, hlt⟩ hprime => ?_, fun hno => ?_⟩
  · have same := (Nat.prime_dvd_prime_iff_eq hp hprime).mp hdvd
    omega
  · have prime := Nat.minFac_prime (n := m) (by omega)
    have square := Nat.minFac_sq_le_self (by omega) hno
    rw [Nat.pow_two] at square
    have small : m.minFac < 46341 := by
      by_contra hge
      have bound := Nat.mul_le_mul (Nat.le_of_not_lt hge) (Nat.le_of_not_lt hge)
      omega
    -- neither 46339 = 149 * 311 nor 46340 is a prime
    have not_last : m.minFac ≠ 46339 := fun h => by
      rw [h] at prime
      exact Nat.not_prime_mul (a := 149) (b := 311) (by decide) (by decide) prime
    have not_even : m.minFac ≠ 46340 := fun h => by
      rw [h] at prime
      exact Nat.not_prime_mul (a := 2) (b := 23170) (by decide) (by decide) prime
    exact ⟨m.minFac, prime, Nat.minFac_dvd m, by omega⟩

/-- The output is the factors of the absolute value in order, behind what is said of the number. -/
def FactorPrints (n : BitVec 32) (out : List UInt8) : Prop :=
  ∃ ps : List ℕ, (∀ p ∈ ps, p.Prime) ∧ ps.Pairwise (· ≤ ·) ∧ ps.prod = n.toInt.natAbs ∧
    out = (if n.slt 0 then text "Negative number entered. Using absolute value.\n" else []) ++
      text "Prime factors of " ++ numeral 10 n.toInt.natAbs ++ text " are: " ++
        [32].intercalate (ps.map (numeral 10)) ++ text "\n"

theorem factorAbs_intMin : factorAbs (BitVec.intMin 32) = none := by decide

theorem factorAbs_eq (hmin : n ≠ BitVec.intMin 32) :
    ∃ a, factorAbs n = some a ∧ a.toNat = n.toInt.natAbs ∧ a.toNat < 2 ^ 31 := by
  have low := BitVec.le_toInt n
  have high := BitVec.toInt_lt (x := n)
  unfold factorAbs
  by_cases hneg : n.slt 0 = true
  · have negative : n.toInt < 0 := by
      rw [BitVec.slt_eq_decide, decide_eq_true_iff] at hneg
      exact hneg
    have no_overflow : ¬ n.negOverflow = true := by
      rw [BitVec.negOverflow, beq_iff_eq]
      intro h
      exact hmin (BitVec.eq_of_toInt_eq (h.trans (by decide)))
    have value := toInt_neg_eq_natAbs negative hmin
    have unsigned := toInt_eq_toNat_of_nonneg (x := -n) (by omega)
    have below := BitVec.toInt_lt (x := -n)
    refine ⟨-n, ?_, by omega, by omega⟩
    rw [if_pos hneg]
    exact if_neg no_overflow
  · have positive : 0 ≤ n.toInt := by
      rw [BitVec.slt_eq_decide, decide_eq_true_iff] at hneg
      exact Int.not_lt.mp hneg
    have unsigned := toInt_eq_toNat_of_nonneg positive
    exact ⟨n, if_neg hneg, by omega, by omega⟩

/-- The command for a number that can be negated and is not 0, 1 or -1. -/
theorem factorMain_eq {a : BitVec 32} (habs : factorAbs n = some a) (htwo : 2 ≤ a.toNat)
    (hlt : a.toNat < 2 ^ 31) (fuel : ℕ) :
    factorMain fuel n =
      (turns Factoring.done factorTurn fuel (.start a)).bind fun s =>
        if s.done then
          some ((if n.slt 0 then text "Negative number entered. Using absolute value.\n" else []) ++
            text "Prime factors of " ++ numText a 10 ++ text " are: " ++ s.line ++ text "\n")
        else none := by
  have large : ¬ a.sle 1 = true := by
    rw [sle_iff (b := 1) hlt (by decide)]
    exact Nat.not_le.mpr htwo
  unfold factorMain
  rw [habs, Option.bind_eq_bind, Option.bind_some, if_neg large]
  rfl

theorem factorMain_of_none (habs : factorAbs n = none) (fuel : ℕ) : factorMain fuel n = none := by
  unfold factorMain
  rw [habs]
  rfl

/-- The command prints the factorisation if no operation overflows. -/
theorem factorMain_iff (hn : 2 ≤ n.toInt.natAbs) :
    (∃ fuel out, factorMain fuel n = some out ∧ FactorPrints n out) ↔
      n ≠ BitVec.intMin 32 ∧
        (n.toInt.natAbs < 46339 * 46339 ∨ ¬ n.toInt.natAbs.Prime) := by
  by_cases hmin : n = BitVec.intMin 32
  · subst hmin
    refine iff_of_false ?_ (fun h => h.1 rfl)
    rintro ⟨fuel, out, hout, -⟩
    rw [factorMain_of_none factorAbs_intMin] at hout
    exact Option.some_ne_none out hout.symm
  · obtain ⟨a, habs, hvalue, hlt⟩ := factorAbs_eq hmin
    rw [and_iff_right hmin, ← trialFits_iff (by omega) hn]
    constructor
    · rintro ⟨fuel, out, hout, -⟩
      by_contra hfits
      rw [factorMain_eq habs (by omega) hlt] at hout
      obtain ⟨s, hs, hend⟩ := Option.bind_eq_some_iff.mp hout
      rw [factor_never_ends (by omega) hfits hvalue hs] at hend
      exact Option.some_ne_none out hend.symm
    · intro hfits
      obtain ⟨fuel, s, hs, hdone, ps, hline, hplace⟩ :=
        factor_ends (by omega) (by omega) hfits hvalue
      have prod := hplace.prod_of_done hdone
      have shown : numText a 10 = numeral 10 n.toInt.natAbs := by
        rw [← hvalue]
        exact (numText_eq_numeral_iff (b := 10) (by decide) (by decide) a).mpr hlt
      refine ⟨fuel, _, ?_, ps, hline.primes, hline.sorted, prod, rfl⟩
      rw [factorMain_eq habs (by omega) hlt, hs, ← shown, ← hline.line]
      exact if_pos hdone

theorem factorMain_iff_six :
    (∃ fuel out, factorMain fuel 6 = some out ∧ FactorPrints 6 out) ↔
      (6 : BitVec 32) ≠ BitVec.intMin 32 ∧
        ((6 : BitVec 32).toInt.natAbs < 46339 * 46339 ∨ ¬ (6 : BitVec 32).toInt.natAbs.Prime) :=
  factorMain_iff (n := 6) (by decide)

/-- The most negative number cannot be negated. -/
theorem factorMain_intMin :
    2 ≤ (BitVec.intMin 32).toInt.natAbs ∧ ∀ fuel, factorMain fuel (BitVec.intMin 32) = none :=
  ⟨by decide, fun fuel => factorMain_of_none factorAbs_intMin fuel⟩

end Main

end Unics
