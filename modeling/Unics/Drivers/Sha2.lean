import Mathlib.Logic.Function.Basic
import Unics.Types
import Unics.Lib.Sha256

/-!
# SHA-256, the driver

`usr/drivers/sha2.c`. The context has the hash value, the number of bits in the blocks so far, and
the bytes that do not fill a block yet. `state[0]` to `state[7]` are the fields `a` to `h`, the
names under which the transform loads them.

`fed` is no field of the source's: it records the blocks that `sha256_transform` was given, and no
function reads it.
-/

namespace Unics

open Unics.Lib

/-- `sha256_ctx`. -/
structure Sha256Ctx where
  state : Sha256.Words
  bitlen : BitVec 64
  data : Buffer
  datalen : SizeT
  fed : List (List UInt8)

/-! ## The transform -/

namespace Sha2

/-- The table `k`. -/
def table : List (BitVec 32) := [
  0x428a2f98, 0x71374491, 0xb5c0fbcf, 0xe9b5dba5,
  0x3956c25b, 0x59f111f1, 0x923f82a4, 0xab1c5ed5,
  0xd807aa98, 0x12835b01, 0x243185be, 0x550c7dc3,
  0x72be5d74, 0x80deb1fe, 0x9bdc06a7, 0xc19bf174,
  0xe49b69c1, 0xefbe4786, 0x0fc19dc6, 0x240ca1cc,
  0x2de92c6f, 0x4a7484aa, 0x5cb0a9dc, 0x76f988da,
  0x983e5152, 0xa831c66d, 0xb00327c8, 0xbf597fc7,
  0xc6e00bf3, 0xd5a79147, 0x06ca6351, 0x14292967,
  0x27b70a85, 0x2e1b2138, 0x4d2c6dfc, 0x53380d13,
  0x650a7354, 0x766a0abb, 0x81c2c92e, 0x92722c85,
  0xa2bfe8a1, 0xa81a664b, 0xc24b8b70, 0xc76c51a3,
  0xd192e819, 0xd6990624, 0xf40e3585, 0x106aa070,
  0x19a4c116, 0x1e376c08, 0x2748774c, 0x34b0bcb5,
  0x391c0cb3, 0x4ed8aa4a, 0x5b9cca4f, 0x682e6ff3,
  0x748f82ee, 0x78a5636f, 0x84c87814, 0x8cc70208,
  0x90befffa, 0xa4506ceb, 0xbef9a3f7, 0xc67178f2]

def k (i : Nat) : BitVec 32 := table.getD i 0

def rotright (word : BitVec 32) (bits : Nat) : BitVec 32 := word >>> bits ||| word <<< (32 - bits)

def ch (x y z : BitVec 32) : BitVec 32 := (x &&& y) ^^^ (~~~x &&& z)

def maj (x y z : BitVec 32) : BitVec 32 := (x &&& y) ^^^ (x &&& z) ^^^ (y &&& z)

def ep0 (x : BitVec 32) : BitVec 32 := rotright x 2 ^^^ rotright x 13 ^^^ rotright x 22

def ep1 (x : BitVec 32) : BitVec 32 := rotright x 6 ^^^ rotright x 11 ^^^ rotright x 25

def sig0 (x : BitVec 32) : BitVec 32 := rotright x 7 ^^^ rotright x 18 ^^^ x >>> 3

def sig1 (x : BitVec 32) : BitVec 32 := rotright x 17 ^^^ rotright x 19 ^^^ x >>> 10

/-- `(uint32_t)b`. -/
def word (b : UInt8) : BitVec 32 := b.toBitVec.setWidth 32

/-- The first 16 words of the message schedule, big endian. -/
def load (data : Buffer) : List (BitVec 32) :=
  (List.range 16).map fun i =>
    word (data (i * 4)) <<< 24 ||| word (data (i * 4 + 1)) <<< 16 |||
      word (data (i * 4 + 2)) <<< 8 ||| word (data (i * 4 + 3))

/-- The loop that extends the message schedule, with `n` turns. Turn `i` stores `m[i]`, the first
word that is not there yet. -/
def extend (data : Buffer) (n : Nat) : List (BitVec 32) :=
  (List.range' 16 n).foldl
    (fun m i =>
      m ++ [sig1 (m.getD (i - 2) 0) + m.getD (i - 7) 0 + sig0 (m.getD (i - 15) 0) +
        m.getD (i - 16) 0])
    (load data)

/-- A turn of the main compression loop. -/
def turn (m : List (BitVec 32)) (v : Sha256.Words) (i : Nat) : Sha256.Words :=
  let t1 := v.h + ep1 v.e + ch v.e v.f v.g + k i + m.getD i 0
  let t2 := ep0 v.a + maj v.a v.b v.c
  { h := v.g, g := v.f, f := v.e, e := v.d + t1, d := v.c, c := v.b, b := v.a, a := t1 + t2 }

end Sha2

@[irreducible] def sha256Transform (ctx : Sha256Ctx) (data : Buffer) : Sha256Ctx :=
  let m := Sha2.extend data 48
  let v := (List.range 64).foldl (Sha2.turn m) ctx.state
  { ctx with
    state :=
      { a := ctx.state.a + v.a, b := ctx.state.b + v.b, c := ctx.state.c + v.c
        d := ctx.state.d + v.d, e := ctx.state.e + v.e, f := ctx.state.f + v.f
        g := ctx.state.g + v.g, h := ctx.state.h + v.h }
    fed := ctx.fed ++ [(List.range 64).map data] }

/-! ## The interface -/

def sha256BlockSize : SizeT := 64

def sha256Init (ctx : Sha256Ctx) : Sha256Ctx :=
  { ctx with
    datalen := 0
    bitlen := 0
    state := ⟨0x6a09e667, 0xbb67ae85, 0x3c6ef372, 0xa54ff53a, 0x510e527f, 0x9b05688c, 0x1f83d9ab,
      0x5be0cd19⟩
    fed := [] }

/-- A turn of the loop of `sha256_update`. -/
def sha256PutByte (ctx : Sha256Ctx) (byte : UInt8) : Sha256Ctx :=
  let ctx :=
    { ctx with
      data := Function.update ctx.data ctx.datalen.toNat byte
      datalen := ctx.datalen + 1 }
  if ctx.datalen = sha256BlockSize then
    let ctx := sha256Transform ctx ctx.data
    { ctx with bitlen := ctx.bitlen + 512, datalen := 0 }
  else ctx

def sha256Update (ctx : Sha256Ctx) (data : Buffer) (len : SizeT) : Sha256Ctx :=
  (List.range len.toNat).foldl (fun ctx i => sha256PutByte ctx (data i)) ctx

/-- `data[i++] = 0x80; while (i < stop) data[i++] = 0x00;` -/
def sha256Mark (data : Buffer) (i stop : Nat) : Buffer :=
  (List.range' (i + 1) (stop - (i + 1))).foldl (fun data j => Function.update data j 0)
    (Function.update data i 0x80)

/-- The eight stores of the length, from `data[63]` down. -/
def sha256StoreLength (data : Buffer) (bitlen : BitVec 64) : Buffer :=
  (List.range 8).foldl
    (fun data j =>
      Function.update data (63 - j) (UInt8.ofBitVec ((bitlen >>> (8 * j)).setWidth 8)))
    data

/-- `sha256_final` up to the length. -/
def sha256PadData (ctx : Sha256Ctx) : Sha256Ctx :=
  let i := ctx.datalen.toNat
  if ctx.datalen < 56 then { ctx with data := sha256Mark ctx.data i 56 }
  else
    let ctx := { ctx with data := sha256Mark ctx.data i 64 }
    let ctx := sha256Transform ctx ctx.data
    { ctx with data := fun j => if j < 56 then 0 else ctx.data j }

/-- The bytes of a digest, four for each word. -/
def sha256Digest (state : Sha256.Words) : List UInt8 :=
  state.toList.flatMap fun x : BitVec 32 =>
    [UInt8.ofBitVec ((x >>> 24).setWidth 8), UInt8.ofBitVec ((x >>> 16).setWidth 8),
      UInt8.ofBitVec ((x >>> 8).setWidth 8), UInt8.ofBitVec (x.setWidth 8)]

/-- `sha256_final`: the context, and the digest. -/
def sha256Final (ctx : Sha256Ctx) : Sha256Ctx × List UInt8 :=
  let ctx := sha256PadData ctx
  let bitlen := ctx.bitlen + (ctx.datalen * 8).setWidth 64
  let ctx := { ctx with bitlen := bitlen, data := sha256StoreLength ctx.data bitlen }
  let ctx := sha256Transform ctx ctx.data
  (ctx, sha256Digest ctx.state)

/-- `sha256`. The context is a local variable, and holds anything at first. -/
def sha256 (ctx : Sha256Ctx) (data : Buffer) (len : SizeT) : List UInt8 :=
  (sha256Final (sha256Update (sha256Init ctx) data len)).2

end Unics
