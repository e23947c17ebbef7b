import Unics.Laws.Sha2.Transform

/-!
# Streaming SHA-256 is the standard's

However a message is cut into calls of `sha256_update`, the blocks that were fed to the transform
and the bytes that wait in the context are the message so far (`Absorbed`). `sha256_final` completes
them to the padded message, in one block or two.

`sha256_streaming` is the result: the digest is that of FIPS 180-4 for every cutting of every
message of fewer than 2^61 bytes, so the one-shot `sha256` gives the same.
-/

namespace Unics

open Unics.Lib

/-- The bytes of a piece of a message. -/
def bytesOf (data : Buffer) (len : SizeT) : List UInt8 := (List.range len.toNat).map data

/-- The arguments of a call of `sha256_update`. -/
structure Sha256Piece where
  data : Buffer
  len : SizeT

/-- The message that the pieces make. -/
def messageOf (pieces : List Sha256Piece) : List UInt8 :=
  pieces.flatMap fun p => bytesOf p.data p.len

/-- The calls of `sha256_update`, one after the other. -/
def sha256Updates (ctx : Sha256Ctx) (pieces : List Sha256Piece) : Sha256Ctx :=
  pieces.foldl (fun ctx p => sha256Update ctx p.data p.len) ctx

/-- One byte more, at the end. -/
theorem map_update_last (data : Buffer) (n : Nat) (byte : UInt8) :
    (List.range (n + 1)).map (Function.update data n byte) = (List.range n).map data ++ [byte] := by
  rw [List.range_succ, List.map_append, List.map_singleton, Function.update_self]
  congr 1
  refine List.map_congr_left fun i hi => ?_
  exact Function.update_of_ne (Nat.ne_of_lt (List.mem_range.mp hi)) _ _

/-! ## The bytes so far -/

/-- The bytes that wait for a block. -/
def Sha256Ctx.pending (ctx : Sha256Ctx) : List UInt8 := bytesOf ctx.data ctx.datalen

/-- The state is the hash value of the blocks that were fed. -/
structure Chained (ctx : Sha256Ctx) : Prop where
  full : ∀ block ∈ ctx.fed, block.length = 64
  state : ctx.state = ctx.fed.foldl Sha256.compress Sha256.initial

/-- A transform compresses one block more. -/
theorem Chained.transform {ctx : Sha256Ctx} (h : Chained ctx) (data : Buffer) :
    Chained (sha256Transform ctx data) where
  full := by
    rw [sha256Transform_fed]
    intro block hblock
    rcases List.mem_append.mp hblock with old | new
    · exact h.full block old
    · rw [List.mem_singleton.mp new, List.length_map, List.length_range]
  state := by
    rw [sha256Transform_state, sha256Transform_fed, List.foldl_append, ← h.state]
    rfl

/-- The context has absorbed these bytes. -/
structure Absorbed (ctx : Sha256Ctx) (message : List UInt8) : Prop extends Chained ctx where
  message : message = ctx.fed.flatten ++ ctx.pending
  room : ctx.datalen.toNat < 64
  bitlen : ctx.bitlen = BitVec.ofNat 64 (512 * ctx.fed.length)

theorem absorbed_init (ctx : Sha256Ctx) : Absorbed (sha256Init ctx) [] where
  message := rfl
  full _ hb := absurd hb List.not_mem_nil
  room := (by decide : (0 : SizeT).toNat < 64)
  bitlen := rfl
  state := Sha2.initial_eq

/-- A block that is full is fed, and nothing waits. -/
theorem Chained.absorbed {ctx : Sha256Ctx} (h : Chained ctx)
    (hbits : ctx.bitlen = BitVec.ofNat 64 (512 * ctx.fed.length)) :
    Absorbed
      { sha256Transform ctx ctx.data with
        bitlen := (sha256Transform ctx ctx.data).bitlen + 512
        datalen := 0 }
      (ctx.fed.flatten ++ Sha2.blockOf ctx.data) := by
  refine ⟨⟨(h.transform ctx.data).full, (h.transform ctx.data).state⟩, ?_, ?_, ?_⟩
  · rw [sha256Transform_fed, List.flatten_append, List.flatten_singleton]
    exact (List.append_nil _).symm
  · show (0 : SizeT).toNat < 64
    decide
  · rw [sha256Transform_bitlen, sha256Transform_fed, List.length_append, List.length_singleton,
      Nat.mul_add, BitVec.ofNat_add, ← hbits]
    rfl

section Absorbed

variable {ctx : Sha256Ctx} {message : List UInt8}

/-- One byte more waits, or fills the block. -/
theorem Absorbed.putByte (h : Absorbed ctx message) (byte : UInt8) :
    Absorbed (sha256PutByte ctx byte) (message ++ [byte]) := by
  have room := h.room
  have next : (ctx.datalen + 1).toNat = ctx.datalen.toNat + 1 := by
    rw [BitVec.toNat_add, show (1 : SizeT).toNat = 1 from rfl]
    omega
  have waiting : (List.range (ctx.datalen.toNat + 1)).map
      (Function.update ctx.data ctx.datalen.toNat byte) = ctx.pending ++ [byte] :=
    map_update_last ctx.data ctx.datalen.toNat byte
  rw [h.message, List.append_assoc, ← waiting]
  unfold sha256PutByte
  dsimp only
  split
  · next hfull =>
    have count : ctx.datalen.toNat + 1 = 64 := by
      rw [← next, hfull]
      rfl
    rw [count]
    have chained : Chained
        { ctx with
          data := Function.update ctx.data ctx.datalen.toNat byte
          datalen := ctx.datalen + 1 } := ⟨h.full, h.state⟩
    exact chained.absorbed h.bitlen
  · next hnot =>
    refine ⟨⟨h.full, h.state⟩, ?_, ?_, h.bitlen⟩
    · rw [← next]
      rfl
    · show (ctx.datalen + 1).toNat < 64
      have ne : (ctx.datalen + 1).toNat ≠ 64 := fun heq => hnot (BitVec.eq_of_toNat_eq heq)
      omega

theorem Absorbed.update (h : Absorbed ctx message) (data : Buffer) (len : SizeT) :
    Absorbed (sha256Update ctx data len) (message ++ bytesOf data len) := by
  unfold sha256Update bytesOf
  induction len.toNat with
  | zero =>
    rw [List.range_zero, List.map_nil, List.append_nil]
    exact h
  | succ n ih =>
    rw [List.range_succ, List.foldl_append, List.map_append, ← List.append_assoc]
    exact ih.putByte (data n)

/-- However the bytes are cut. -/
theorem Absorbed.updates (h : Absorbed ctx message) (pieces : List Sha256Piece) :
    Absorbed (sha256Updates ctx pieces) (message ++ messageOf pieces) := by
  induction pieces generalizing ctx message with
  | nil =>
    rw [messageOf, List.flatMap_nil, List.append_nil]
    exact h
  | cons p pieces ih =>
    rw [messageOf, List.flatMap_cons, ← List.append_assoc]
    exact ih (h.update p.data p.len)

theorem Absorbed.length (h : Absorbed ctx message) :
    message.length = 64 * ctx.fed.length + ctx.datalen.toNat := by
  rw [h.message, List.length_append, Sha256.length_flatten h.full, Sha256Ctx.pending, bytesOf,
    List.length_map, List.length_range]

end Absorbed

/-! ## The padding -/

/-- The byte that a cast to `uint8_t` keeps after a shift. -/
theorem ofBitVec_shift {w : Nat} (x : BitVec w) (j : Nat) :
    UInt8.ofBitVec ((x >>> (8 * j)).setWidth 8) = UInt8.ofNat (x.toNat / 256 ^ j) := by
  refine UInt8.toNat_inj.mp ?_
  show ((x >>> (8 * j)).setWidth 8).toNat = _
  rw [BitVec.toNat_setWidth, BitVec.toNat_ushiftRight, Nat.shiftRight_eq_div_pow, Nat.pow_mul,
    UInt8.toNat_ofNat']

theorem sha256Digest_eq (state : Sha256.Words) : sha256Digest state = state.bytes := by
  unfold sha256Digest Sha256.Words.bytes
  congr 1
  funext x
  have low : UInt8.ofBitVec (x.setWidth 8) = UInt8.ofNat (x.toNat / 256 ^ 0) := by
    rw [← ofBitVec_shift x 0, Nat.mul_zero, BitVec.ushiftRight_zero]
  rw [ofBitVec_shift x 3, ofBitVec_shift x 2, ofBitVec_shift x 1, low]
  rfl

/-- The padding loop keeps what waits, and fills the buffer up to `stop`. -/
theorem sha256Mark_bytes (data : Buffer) {i stop : Nat} (h : i < stop) :
    (List.range stop).map (sha256Mark data i stop) =
      (List.range i).map data ++ 0x80 :: List.replicate (stop - i - 1) 0 := by
  have loop : ∀ n, (List.range (i + 1 + n)).map ((List.range' (i + 1) n).foldl
      (fun data j => Function.update data j 0) (Function.update data i 0x80)) =
        (List.range i).map data ++ 0x80 :: List.replicate n 0 := by
    intro n
    induction n with
    | zero => exact map_update_last data i 0x80
    | succ n ih =>
      rw [List.range'_concat, List.foldl_append, ← Nat.add_assoc, List.replicate_succ',
        ← List.cons_append, ← List.append_assoc, ← ih, Nat.one_mul]
      exact map_update_last _ (i + 1 + n) 0
  have turns := loop (stop - (i + 1))
  rw [Nat.add_sub_cancel' h] at turns
  rw [Nat.sub_sub]
  exact turns

/-- The buffer with the length stored ends in its bytes. -/
theorem sha256StoreLength_bytes (data : Buffer) (bitlen : BitVec 64) :
    Sha2.blockOf (sha256StoreLength data bitlen) =
      (List.range 56).map data ++ Sha256.bigEndian 8 bitlen.toNat := by
  have stored : ∀ n ≤ 8, ∀ j < 64, (List.range n).foldl
      (fun data j =>
        Function.update data (63 - j) (UInt8.ofBitVec ((bitlen >>> (8 * j)).setWidth 8))) data j =
        if 63 - j < n then UInt8.ofNat (bitlen.toNat / 256 ^ (63 - j)) else data j := by
    intro n hn j hj
    induction n with
    | zero => rfl
    | succ n ih =>
      rw [List.range_succ, List.foldl_append, List.foldl_cons, List.foldl_nil]
      by_cases here : j = 63 - n
      · have turn : 63 - j = n := by omega
        rw [here, Function.update_self, ← here, turn, if_pos (by omega), ofBitVec_shift]
      · rw [Function.update_of_ne here, ih (by omega)]
        refine if_congr ?_ rfl rfl
        omega
  have cut : List.range 64 = List.range 56 ++ (List.range 8).map (56 + ·) := by decide
  rw [Sha2.blockOf, cut, List.map_append, List.map_map]
  refine congrArg₂ (· ++ ·) ?_ ?_
  · refine List.map_congr_left fun j hj => ?_
    have hj : j < 56 := List.mem_range.mp hj
    rw [sha256StoreLength, stored 8 (by omega) j (by omega), if_neg (by omega)]
  · refine List.map_congr_left fun j hj => ?_
    have hj : j < 8 := List.mem_range.mp hj
    show sha256StoreLength data bitlen (56 + j) = _
    rw [sha256StoreLength, stored 8 (by omega) (56 + j) (by omega), if_pos (by omega)]
    congr 3
    omega

/-- The context after the first part of `sha256_final`: only the length is missing. -/
structure Padded (ctx : Sha256Ctx) (message : List UInt8) : Prop extends Chained ctx where
  bytes : ctx.fed.flatten ++ (List.range 56).map ctx.data =
    message ++ 0x80 :: List.replicate (Sha256.zeros message.length) 0
  bitlen : ctx.bitlen + (ctx.datalen * 8).setWidth 64 = BitVec.ofNat 64 (8 * message.length)

section Final

variable {ctx : Sha256Ctx} {message : List UInt8}

/-- The bits of the blocks and of the bytes that wait. -/
theorem Absorbed.bits (h : Absorbed ctx message) :
    ctx.bitlen + (ctx.datalen * 8).setWidth 64 = BitVec.ofNat 64 (8 * message.length) := by
  have room := h.room
  have tail : ((ctx.datalen * 8).setWidth 64).toNat = 8 * ctx.datalen.toNat := by
    rw [BitVec.toNat_setWidth, BitVec.toNat_mul, show (8 : SizeT).toNat = 8 from rfl]
    omega
  have tail : (ctx.datalen * 8).setWidth 64 = BitVec.ofNat 64 (8 * ctx.datalen.toNat) := by
    rw [← tail, BitVec.ofNat_toNat, BitVec.setWidth_eq]
  rw [h.bitlen, tail, ← BitVec.ofNat_add, h.length]
  congr 1
  omega

theorem Absorbed.padData (h : Absorbed ctx message) : Padded (sha256PadData ctx) message := by
  have room := h.room
  have len := h.length
  unfold sha256PadData
  dsimp only
  split
  · next hlt =>
    have hlt : ctx.datalen.toNat < 56 := hlt
    have count : 56 - ctx.datalen.toNat - 1 = Sha256.zeros message.length := by
      unfold Sha256.zeros
      omega
    refine ⟨⟨h.full, h.state⟩, ?_, h.bits⟩
    show _ ++ (List.range 56).map (sha256Mark _ _ _) = _
    rw [sha256Mark_bytes _ hlt, ← List.append_assoc, count]
    exact congrArg (· ++ _) h.message.symm
  · next hge =>
    have hge : ¬ ctx.datalen.toNat < 56 := hge
    have count : Sha256.zeros message.length = (64 - ctx.datalen.toNat - 1) + 56 := by
      unfold Sha256.zeros
      omega
    have marked : Chained { ctx with data := sha256Mark ctx.data ctx.datalen.toNat 64 } :=
      ⟨h.full, h.state⟩
    have fed := marked.transform (sha256Mark ctx.data ctx.datalen.toNat 64)
    have blank (data : Buffer) : (List.range 56).map (fun j => if j < 56 then 0 else data j) =
        List.replicate 56 0 := by
      rw [List.map_congr_left fun j hj => if_pos (List.mem_range.mp hj), List.map_const',
        List.length_range]
    refine ⟨⟨fed.full, fed.state⟩, ?_, ?_⟩
    · show _ ++ (List.range 56).map (fun j => if j < 56 then 0 else _) = _
      rw [blank, sha256Transform_fed, List.flatten_append, List.flatten_singleton,
        Sha2.blockOf, sha256Mark_bytes _ room, count, List.replicate_add, List.append_assoc,
        List.append_assoc, List.cons_append, ← List.append_assoc]
      exact congrArg (· ++ _) h.message.symm
    · rw [sha256Transform_bitlen, sha256Transform_datalen]
      exact h.bits

/-- The length fills the last block. -/
theorem Padded.final (h : Padded ctx message) (hlen : message.length < 2 ^ 61) {bits : BitVec 64}
    (hbits : bits = ctx.bitlen + (ctx.datalen * 8).setWidth 64) {data : Buffer}
    (hdata : data = sha256StoreLength ctx.data bits) :
    Chained (sha256Transform { ctx with bitlen := bits, data := data } data) ∧
      (sha256Transform { ctx with bitlen := bits, data := data } data).fed.flatten =
        Sha256.pad message := by
  have wide : bits.toNat = 8 * message.length := by
    rw [hbits, h.bitlen, BitVec.toNat_ofNat]
    omega
  have chained : Chained { ctx with bitlen := bits, data := data } := ⟨h.full, h.state⟩
  refine ⟨chained.transform data, ?_⟩
  rw [sha256Transform_fed, List.flatten_append, List.flatten_singleton, hdata,
    sha256StoreLength_bytes, wide, ← List.append_assoc, h.bytes, Sha256.pad, List.append_assoc]
  rfl

/-- What `sha256_final` leaves: the padded message was fed, and the digest is its hash value. -/
theorem Absorbed.final (h : Absorbed ctx message) (hlen : message.length < 2 ^ 61) :
    Chained (sha256Final ctx).1 ∧ (sha256Final ctx).1.fed.flatten = Sha256.pad message ∧
      (sha256Final ctx).2 = Sha256.hash message := by
  obtain ⟨chained, fed⟩ := h.padData.final hlen rfl rfl
  refine ⟨chained, fed, ?_⟩
  rw [Sha256.hash_of_blocks fed chained.full, ← chained.state]
  exact sha256Digest_eq _

end Final

/-! ## The digest -/

/-- The message of one piece. -/
theorem messageOf_singleton (data : Buffer) (len : SizeT) :
    messageOf [⟨data, len⟩] = bytesOf data len :=
  List.append_nil _

/-- However a message is cut, the blocks fed are the message, its padding and its length, each is
compressed as the standard says, and the digest is the standard's and that of the one-shot hash. -/
theorem sha256_streaming (ctx : Sha256Ctx) (pieces : List Sha256Piece)
    (hlen : (messageOf pieces).length < 2 ^ 61) :
    let message := messageOf pieces
    let final := sha256Final (sha256Updates (sha256Init ctx) pieces)
    final.2 = Sha256.hash message ∧
      (∀ (ctx : Sha256Ctx) (data : Buffer) (len : SizeT), bytesOf data len = message →
        sha256 ctx data len = final.2) ∧
      (∃ zeros, IsLeast {z | 64 ∣ message.length + 1 + z + 8} zeros ∧
        final.1.fed.flatten = message ++ 0x80 ::
          (List.replicate zeros 0 ++ Sha256.bigEndian 8 (8 * message.length))) ∧
      (∀ block ∈ final.1.fed, block.length = 64) ∧
      (∀ (ctx : Sha256Ctx) (data : Buffer),
        (sha256Transform ctx data).state = Sha256.compress ctx.state (Sha2.blockOf data) ∧
          (sha256Transform ctx data).fed = ctx.fed ++ [Sha2.blockOf data]) := by
  dsimp only
  obtain ⟨chained, fed, digest⟩ := ((absorbed_init ctx).updates pieces).final hlen
  refine ⟨digest, ?_, ⟨_, Sha256.zeros_isLeast _, fed⟩, chained.full, fun ctx data =>
    ⟨sha256Transform_state ctx data, sha256Transform_fed ctx data⟩⟩
  intro ctx data len whole
  have short : (messageOf [⟨data, len⟩]).length < 2 ^ 61 := by
    rw [messageOf_singleton, whole]
    exact hlen
  have once := ((absorbed_init ctx).updates [⟨data, len⟩]).final short
  refine once.2.2.trans ?_
  rw [digest, messageOf_singleton, whole]

/-- Three bytes in two pieces, with an empty one between them. -/
theorem sha256_streaming_abc :
    (sha256Final (sha256Updates (sha256Init ⟨Sha256.initial, 0, fun _ => 0, 0, []⟩)
      [⟨fun _ => 0x61, 1⟩, ⟨fun _ => 0, 0⟩, ⟨fun i => if i = 0 then 0x62 else 0x63, 2⟩])).2 =
        Sha256.hash [0x61, 0x62, 0x63] :=
  (sha256_streaming _ [⟨fun _ => 0x61, 1⟩, ⟨fun _ => 0, 0⟩,
    ⟨fun i => if i = 0 then 0x62 else 0x63, 2⟩] (by decide)).1

end Unics
