import Unics.Types

/-!
# RC4

`usr/drivers/crypto/arc4.c`. Indices and bytes of the state are `u_int8_t`s, and what the source
masks with `RC4STATE - 1` wraps as bytes do. `src` and `dst` are one buffer or lie apart, so what a
turn of `rc4_crypt` reads is not yet written.
-/

namespace Unics

abbrev rc4State : Nat := 256

/-- `struct rc4_ctx`. -/
structure Rc4Ctx where
  x : UInt8
  y : UInt8
  state : Vector UInt8 rc4State

/-- `ctx->state[i]` -/
def rc4Load (state : Vector UInt8 rc4State) (i : UInt8) : UInt8 := state.get i.toFin

/-- `ctx->state[i] = c` -/
def rc4Store (state : Vector UInt8 rc4State) (i c : UInt8) : Vector UInt8 rc4State :=
  state.set i.toNat c i.toNat_lt

/-- `RC4SWAP`. -/
def rc4Swap (state : Vector UInt8 rc4State) (x y : UInt8) : Vector UInt8 rc4State :=
  let t := rc4Load state x
  rc4Store (rc4Store state x (rc4Load state y)) y t

/-! ## The key -/

/-- The second loop of `rc4_keysetup`, with `n` turns to go: a read past the key and a remainder of
a division by zero have no value. -/
def rc4KeyLoop (key : List UInt8) (klen : BitVec 32) :
    Nat → Nat → UInt8 → UInt8 → Vector UInt8 rc4State → Option (Vector UInt8 rc4State)
  | 0, _, _, _, state => some state
  | n + 1, i, x, y, state => do
    let k ← key[x.toNat]?
    let y := k + rc4Load state (UInt8.ofNat i) + y
    let state := rc4Swap state (UInt8.ofNat i) y
    -- the sum is an `int` and does not wrap before the remainder is taken
    if klen = 0 then none
    else rc4KeyLoop key klen n (i + 1) (UInt8.ofNat ((x.toNat + 1) % klen.toNat)) y state

/-- The key is the memory behind its pointer. -/
def rc4Keysetup (key : List UInt8) (klen : BitVec 32) : Option Rc4Ctx :=
  let start := .ofFn fun i => UInt8.ofNat i
  (rc4KeyLoop key klen rc4State 0 0 0 start).map fun state => { x := 0, y := 0, state }

/-! ## The stream -/

/-- What each turn of the other loops begins with. -/
def rc4Turn (ctx : Rc4Ctx) : Rc4Ctx :=
  let x := ctx.x + 1
  let y := rc4Load ctx.state x + ctx.y
  { x, y, state := rc4Swap ctx.state x y }

/-- The byte of the state that a turn takes. -/
def rc4Byte (ctx : Rc4Ctx) : UInt8 :=
  rc4Load ctx.state (rc4Load ctx.state ctx.x + rc4Load ctx.state ctx.y)

/-- The context, and what is stored in `dst`. -/
def rc4Crypt (ctx : Rc4Ctx) : List UInt8 → Rc4Ctx × List UInt8
  | [] => (ctx, [])
  | c :: src =>
    let ctx := rc4Turn ctx
    let (after, dst) := rc4Crypt ctx src
    (after, (c ^^^ rc4Byte ctx) :: dst)

def rc4GetbytesLoop (ctx : Rc4Ctx) : Nat → Rc4Ctx × List UInt8
  | 0 => (ctx, [])
  | n + 1 =>
    let ctx := rc4Turn ctx
    let (after, dst) := rc4GetbytesLoop ctx n
    (after, rc4Byte ctx :: dst)

def rc4Getbytes (ctx : Rc4Ctx) (len : BitVec 32) : Rc4Ctx × List UInt8 :=
  rc4GetbytesLoop ctx len.toNat

def rc4SkipLoop (ctx : Rc4Ctx) : Nat → Rc4Ctx
  | 0 => ctx
  | n + 1 => rc4SkipLoop (rc4Turn ctx) n

def rc4Skip (ctx : Rc4Ctx) (len : BitVec 32) : Rc4Ctx := rc4SkipLoop ctx len.toNat

/-! ## Calls -/

/-- A call of the three functions that use a context. -/
inductive Rc4Call where
  | crypt (src : List UInt8)
  | getbytes (len : BitVec 32)
  | skip (len : BitVec 32)

/-- The context after a call, and the bytes stored. -/
def rc4Call (ctx : Rc4Ctx) : Rc4Call → Rc4Ctx × List UInt8
  | .crypt src => rc4Crypt ctx src
  | .getbytes len => rc4Getbytes ctx len
  | .skip len => (rc4Skip ctx len, [])

def rc4Step (ctx : Rc4Ctx) (c : Rc4Call) : Rc4Ctx := (rc4Call ctx c).1

end Unics
