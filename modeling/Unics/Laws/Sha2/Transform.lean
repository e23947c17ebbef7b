import Mathlib.Data.List.Basic
import Unics.Drivers.Sha2

/-!
# The transform is the standard's compression

`sha256_transform` reads 64 bytes. It is `Sha256.compress` on them: the macros are the standard's
functions, the table holds the standard's constants, the two loops over `m` make the message
schedule, and the main loop is the 64 rounds.
-/

namespace Unics

open Unics.Lib

namespace Sha2

/-! ## Macros -/

theorem rotright_eq {x : BitVec 32} {n : Nat} (h : n < 32) : rotright x n = x.rotateRight n := by
  rw [BitVec.rotateRight_def, Nat.mod_eq_of_lt h]
  rfl

theorem ep0_eq (x : BitVec 32) : ep0 x = Sha256.bigSigma0 x := by
  rw [ep0, rotright_eq (by decide), rotright_eq (by decide), rotright_eq (by decide)]
  rfl

theorem ep1_eq (x : BitVec 32) : ep1 x = Sha256.bigSigma1 x := by
  rw [ep1, rotright_eq (by decide), rotright_eq (by decide), rotright_eq (by decide)]
  rfl

theorem sig0_eq (x : BitVec 32) : sig0 x = Sha256.smallSigma0 x := by
  rw [sig0, rotright_eq (by decide), rotright_eq (by decide)]
  rfl

theorem sig1_eq (x : BitVec 32) : sig1 x = Sha256.smallSigma1 x := by
  rw [sig1, rotright_eq (by decide), rotright_eq (by decide)]
  rfl

/-! ## Constants -/

/-- Trial division, for numbers below 18 squared. -/
theorem prime_iff_trial {n : Nat} (h : n < 312) :
    n.Prime ↔ 2 ≤ n ∧ ∀ m < 18, 2 ≤ m → m * m ≤ n → ¬ m ∣ n := by
  rw [Nat.prime_def_le_sqrt]
  refine and_congr_right fun _ => ⟨fun hall m _ h2 hsq => hall m h2 (Nat.le_sqrt.mpr hsq),
    fun hall m h2 hsq => ?_⟩
  have hsq := Nat.le_sqrt.mp hsq
  refine hall m ?_ h2 hsq
  by_contra hlt
  have : 18 * 18 ≤ m * m := Nat.mul_le_mul (by omega) (by omega)
  omega

theorem primes_eq : Sha256.primes =
    [2, 3, 5, 7, 11, 13, 17, 19, 23, 29, 31, 37, 41, 43, 47, 53, 59, 61, 67, 71, 73, 79, 83, 89, 97,
      101, 103, 107, 109, 113, 127, 131, 137, 139, 149, 151, 157, 163, 167, 173, 179, 181, 191, 193,
      197, 199, 211, 223, 227, 229, 233, 239, 241, 251, 257, 263, 269, 271, 277, 281, 283, 293, 307,
      311] := by
  have trial : Sha256.primes = (List.range 312).filter fun n =>
      decide (2 ≤ n ∧ ∀ m < 18, 2 ≤ m → m * m ≤ n → ¬ m ∣ n) :=
    List.filter_congr fun n hn => decide_eq_decide.mpr (prime_iff_trial (List.mem_range.mp hn))
  rw [trial]
  decide +kernel

/-- Every word of the table is the fraction of a cube root of a prime. -/
theorem k_eq {t : Nat} (h : t < 64) : k t = Sha256.k t := by
  have check : ∀ t < 64,
      (Nat.nthRoot 3 (Sha256.primes.getD t 0) * 2 ^ 32 + (k t).toNat) ^ 3 ≤
        Sha256.primes.getD t 0 * 2 ^ (32 * 3) ∧
      Sha256.primes.getD t 0 * 2 ^ (32 * 3) <
        (Nat.nthRoot 3 (Sha256.primes.getD t 0) * 2 ^ 32 + (k t).toNat + 1) ^ 3 := by
    rw [primes_eq]
    decide +kernel
  exact (Sha256.rootFraction_eq (check t h).1 (check t h).2).symm

/-- The words that `sha256_init` stores are the fractions of square roots of primes. -/
theorem initial_eq : (⟨0x6a09e667, 0xbb67ae85, 0x3c6ef372, 0xa54ff53a, 0x510e527f, 0x9b05688c,
    0x1f83d9ab, 0x5be0cd19⟩ : Sha256.Words) = Sha256.initial := by
  decide +kernel

/-! ## The message schedule -/

theorem toNat_word (b : UInt8) : (word b).toNat = b.toNat := by
  have := b.toNat_lt
  rw [word, BitVec.toNat_setWidth]
  exact Nat.mod_eq_of_lt (by show b.toNat < 2 ^ 32; omega)

/-- Four bytes shifted and combined are the word with these bytes. -/
theorem word_eq (b₀ b₁ b₂ b₃ : UInt8) :
    word b₀ <<< 24 ||| word b₁ <<< 16 ||| word b₂ <<< 8 ||| word b₃ =
      Sha256.word b₀ b₁ b₂ b₃ := by
  have h₀ := b₀.toNat_lt
  have h₁ := b₁.toNat_lt
  have h₂ := b₂.toNat_lt
  have h₃ := b₃.toNat_lt
  have shift : ∀ {b : UInt8} {n : Nat}, b.toNat < 2 ^ 8 → n ≤ 24 →
      (word b <<< n).toNat = b.toNat <<< n := by
    intro b n hb hn
    have pow : 2 ^ n ≤ 2 ^ 24 := Nat.pow_le_pow_right (by decide) hn
    have bound : b.toNat * 2 ^ n < 2 ^ 8 * 2 ^ 24 := Nat.mul_lt_mul_of_lt_of_le hb pow (by decide)
    rw [BitVec.toNat_shiftLeft, toNat_word, Nat.shiftLeft_eq]
    exact Nat.mod_eq_of_lt bound
  -- from the right, what is combined so far lies below the next byte's place
  have low : b₂.toNat <<< 8 + b₃.toNat < 2 ^ 16 := by
    rw [Nat.shiftLeft_eq]
    omega
  have high : b₁.toNat <<< 16 + (b₂.toNat <<< 8 + b₃.toNat) < 2 ^ 24 := by
    rw [Nat.shiftLeft_eq]
    omega
  refine BitVec.eq_of_toNat_eq ?_
  rw [BitVec.toNat_or, BitVec.toNat_or, BitVec.toNat_or, shift h₀ (by decide), shift h₁ (by decide),
    shift h₂ (by decide), toNat_word, Nat.or_assoc, Nat.or_assoc,
    ← Nat.shiftLeft_add_eq_or_of_lt h₃, ← Nat.shiftLeft_add_eq_or_of_lt low,
    ← Nat.shiftLeft_add_eq_or_of_lt high, Sha256.word, BitVec.toNat_ofNat, Nat.shiftLeft_eq,
    Nat.shiftLeft_eq, Nat.shiftLeft_eq]
  omega

/-- A word of the list that a function gives. -/
theorem getD_map_range {f : Nat → BitVec 32} {n i : Nat} (h : i < n) :
    ((List.range n).map f).getD i 0 = f i := by
  rw [List.getD_eq_getElem?_getD, List.getElem?_map, List.getElem?_range h]
  rfl

section Schedule

variable (data : Buffer)

/-- The bytes that the transform reads. -/
abbrev blockOf : List UInt8 := (List.range 64).map data

theorem load_eq : load data = (List.range 16).map (Sha256.schedule (blockOf data)) := by
  refine List.map_congr_left fun i hi => ?_
  have hi : i < 16 := List.mem_range.mp hi
  have byte : ∀ j, j < 64 → (blockOf data).getD j 0 = data j := by
    intro j hj
    rw [List.getD_eq_getElem?_getD, List.getElem?_map, List.getElem?_range hj]
    rfl
  rw [Sha256.schedule, if_pos hi, Sha256.blockWord, word_eq, byte _ (by omega), byte _ (by omega),
    byte _ (by omega), byte _ (by omega), Nat.mul_comm]

/-- After `n` turns the list has the first `16 + n` words of the schedule. -/
theorem extend_eq (n : Nat) :
    extend data n = (List.range (16 + n)).map (Sha256.schedule (blockOf data)) := by
  induction n with
  | zero => exact load_eq data
  | succ n ih =>
    unfold extend at ih ⊢
    rw [List.range'_concat, List.foldl_append, ih, Nat.add_succ, List.range_succ, List.map_append,
      Nat.one_mul]
    show _ ++ [_] = _ ++ [_]
    rw [getD_map_range (by omega), getD_map_range (by omega), getD_map_range (by omega),
      getD_map_range (by omega), sig0_eq, sig1_eq]
    conv_rhs => rw [Sha256.schedule, if_neg (by omega)]

end Schedule

end Sha2

/-! ## The rounds -/

/-- The transform compresses the block that it is given. -/
theorem sha256Transform_state (ctx : Sha256Ctx) (data : Buffer) :
    (sha256Transform ctx data).state = Sha256.compress ctx.state (Sha2.blockOf data) := by
  have rounds : (List.range 64).foldl (Sha2.turn (Sha2.extend data 48)) ctx.state =
      (List.range 64).foldl
        (fun v t => Sha256.round v (Sha256.k t) (Sha256.schedule (Sha2.blockOf data) t))
        ctx.state := by
    refine List.foldl_ext _ _ _ fun v t ht => ?_
    have ht : t < 64 := List.mem_range.mp ht
    rw [Sha2.turn, Sha2.extend_eq, Sha2.getD_map_range ht, Sha2.ep0_eq, Sha2.ep1_eq, Sha2.k_eq ht]
    rfl
  unfold sha256Transform Sha256.compress
  dsimp only
  rw [rounds]
  rfl

section Transform

variable (ctx : Sha256Ctx) (data : Buffer)

@[simp] theorem sha256Transform_fed :
    (sha256Transform ctx data).fed = ctx.fed ++ [Sha2.blockOf data] := by
  unfold sha256Transform
  rfl

@[simp] theorem sha256Transform_bitlen : (sha256Transform ctx data).bitlen = ctx.bitlen := by
  unfold sha256Transform
  rfl

@[simp] theorem sha256Transform_datalen : (sha256Transform ctx data).datalen = ctx.datalen := by
  unfold sha256Transform
  rfl

end Transform

end Unics
