import Mathlib.Analysis.SpecialFunctions.Pow.NthRootLemmas
import Mathlib.Data.Nat.Prime.Defs
import Mathlib.Order.Bounds.Basic

/-!
# SHA-256

The hash of FIPS 180-4 on messages of bytes, as the standard writes it: the padding, the message
schedule, the 64 rounds and the digest. The constants are not listed but computed, as the fractions
of the roots of primes that they stand for.

A program that hashes a message has fed blocks of 64 bytes to a compression, one after the other.
`hash_of_blocks` is what it owes: the blocks are the padded message, in order.
-/

namespace Unics.Lib.Sha256

abbrev Word := BitVec 32

/-! ## Functions and constants -/

def ch (x y z : Word) : Word := (x &&& y) ^^^ (~~~x &&& z)

def maj (x y z : Word) : Word := (x &&& y) ^^^ (x &&& z) ^^^ (y &&& z)

def bigSigma0 (x : Word) : Word := x.rotateRight 2 ^^^ x.rotateRight 13 ^^^ x.rotateRight 22

def bigSigma1 (x : Word) : Word := x.rotateRight 6 ^^^ x.rotateRight 11 ^^^ x.rotateRight 25

def smallSigma0 (x : Word) : Word := x.rotateRight 7 ^^^ x.rotateRight 18 ^^^ x >>> 3

def smallSigma1 (x : Word) : Word := x.rotateRight 17 ^^^ x.rotateRight 19 ^^^ x >>> 10

/-- The first 64 primes. -/
def primes : List Nat := (List.range 312).filter Nat.Prime

/-- The first 32 bits of the fractional part of the `r`th root of `p`. -/
def rootFraction (r p : Nat) : Word := BitVec.ofNat 32 (Nat.nthRoot r (p * 2 ^ (32 * r)))

/-- The constant of round `t`. -/
def k (t : Nat) : Word := rootFraction 3 (primes.getD t 0)

/-- Eight words: a hash value, or the working variables of a round. -/
structure Words where
  a : Word
  b : Word
  c : Word
  d : Word
  e : Word
  f : Word
  g : Word
  h : Word
  deriving DecidableEq, Repr

def Words.toList (s : Words) : List Word := [s.a, s.b, s.c, s.d, s.e, s.f, s.g, s.h]

def Words.add (s t : Words) : Words :=
  ⟨s.a + t.a, s.b + t.b, s.c + t.c, s.d + t.d, s.e + t.e, s.f + t.f, s.g + t.g, s.h + t.h⟩

/-- The initial hash value. -/
def initial : Words :=
  ⟨rootFraction 2 2, rootFraction 2 3, rootFraction 2 5, rootFraction 2 7, rootFraction 2 11,
    rootFraction 2 13, rootFraction 2 17, rootFraction 2 19⟩

/-- How a constant is checked: `n` is the whole part of the root. -/
theorem rootFraction_eq {r p n : Nat} {x : Word}
    (hle : (n * 2 ^ 32 + x.toNat) ^ r ≤ p * 2 ^ (32 * r))
    (hlt : p * 2 ^ (32 * r) < (n * 2 ^ 32 + x.toNat + 1) ^ r) : rootFraction r p = x := by
  rw [rootFraction, Nat.nthRoot_eq_of_le_of_lt hle hlt]
  refine BitVec.eq_of_toNat_eq ?_
  rw [BitVec.toNat_ofNat, Nat.mul_comm, Nat.mul_add_mod, Nat.mod_eq_of_lt x.isLt]

/-! ## Bytes -/

/-- The `n` bytes of a number, the most significant first. -/
def bigEndian (n x : Nat) : List UInt8 :=
  (List.range n).map fun i => UInt8.ofNat (x / 256 ^ (n - 1 - i))

/-- The word of four bytes. -/
def word (b₀ b₁ b₂ b₃ : UInt8) : Word :=
  BitVec.ofNat 32 (b₀.toNat * 2 ^ 24 + b₁.toNat * 2 ^ 16 + b₂.toNat * 2 ^ 8 + b₃.toNat)

/-- The bytes of a hash value. -/
def Words.bytes (s : Words) : List UInt8 := s.toList.flatMap fun x => bigEndian 4 x.toNat

/-! ## Compression -/

/-- Word `t` of a block. -/
def blockWord (block : List UInt8) (t : Nat) : Word :=
  word (block.getD (4 * t) 0) (block.getD (4 * t + 1) 0) (block.getD (4 * t + 2) 0)
    (block.getD (4 * t + 3) 0)

/-- The message schedule. -/
def schedule (block : List UInt8) (t : Nat) : Word :=
  if t < 16 then blockWord block t
  else
    smallSigma1 (schedule block (t - 2)) + schedule block (t - 7) +
      smallSigma0 (schedule block (t - 15)) + schedule block (t - 16)

/-- A round with its constant and its word of the schedule. -/
def round (s : Words) (kt wt : Word) : Words :=
  let t₁ := s.h + bigSigma1 s.e + ch s.e s.f s.g + kt + wt
  let t₂ := bigSigma0 s.a + maj s.a s.b s.c
  ⟨t₁ + t₂, s.a, s.b, s.c, s.d + t₁, s.e, s.f, s.g⟩

/-- The hash value after one more block. -/
def compress (s : Words) (block : List UInt8) : Words :=
  s.add ((List.range 64).foldl (fun v t => round v (k t) (schedule block t)) s)

/-! ## Padding -/

/-- How many zero bytes the padding of a message has. -/
def zeros (len : Nat) : Nat := (119 - len % 64) % 64

/-- The least number that fills the last block. -/
theorem zeros_isLeast (len : Nat) : IsLeast {z | 64 ∣ len + 1 + z + 8} (zeros len) := by
  unfold zeros
  constructor
  · show 64 ∣ len + 1 + (119 - len % 64) % 64 + 8
    omega
  · intro z hz
    have hz : 64 ∣ len + 1 + z + 8 := hz
    omega

/-- The message, one 0x80 byte, zero bytes, and the length in bits. -/
def pad (message : List UInt8) : List UInt8 :=
  message ++ 0x80 ::
    (List.replicate (zeros message.length) 0 ++ bigEndian 8 (8 * message.length))

/-- Blocks of 64 bytes. -/
def blocks (bytes : List UInt8) : List (List UInt8) :=
  (List.range (bytes.length / 64)).map fun i => (bytes.drop (64 * i)).take 64

/-- The hash of a message. -/
def hash (message : List UInt8) : List UInt8 :=
  ((blocks (pad message)).foldl compress initial).bytes

theorem length_flatten {bs : List (List UInt8)} (h : ∀ b ∈ bs, b.length = 64) :
    bs.flatten.length = 64 * bs.length := by
  induction bs with
  | nil => rfl
  | cons b bs ih =>
    rw [List.flatten_cons, List.length_append, List.length_cons, h b List.mem_cons_self,
      ih fun c hc => h c (List.mem_cons_of_mem b hc)]
    omega

/-- Blocks put together and cut again. -/
theorem blocks_flatten {bs : List (List UInt8)} (h : ∀ b ∈ bs, b.length = 64) :
    blocks bs.flatten = bs := by
  have count : bs.flatten.length / 64 = bs.length := by
    rw [length_flatten h, Nat.mul_div_cancel_left _ (by decide)]
  rw [blocks, count]
  clear count
  induction bs with
  | nil => rfl
  | cons b bs ih =>
    have len := h b List.mem_cons_self
    rw [List.length_cons, List.range_succ_eq_map, List.map_cons, List.map_map, List.flatten_cons]
    refine congrArg₂ List.cons ?_ ?_
    · rw [Nat.mul_zero, List.drop_zero, ← len, List.take_left]
    · refine Eq.trans (List.map_congr_left fun i _ => ?_)
        (ih fun c hc => h c (List.mem_cons_of_mem b hc))
      have skip : 64 * (i + 1) = b.length + 64 * i := by omega
      show ((b ++ bs.flatten).drop (64 * (i + 1))).take 64 = _
      rw [skip, List.drop_length_add_append]

/-- A program that has fed the blocks of the padded message has the hash. -/
theorem hash_of_blocks {message : List UInt8} {bs : List (List UInt8)}
    (hbytes : bs.flatten = pad message) (hlen : ∀ b ∈ bs, b.length = 64) :
    hash message = (bs.foldl compress initial).bytes := by
  rw [hash, ← hbytes, blocks_flatten hlen]

end Unics.Lib.Sha256
