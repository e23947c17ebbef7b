import Mathlib.Data.Fintype.Prod
import Mathlib.Data.Fintype.Pi
import Mathlib.Logic.Equiv.Basic
import Unics.Drivers.Arc4
import Unics.Lib.Keystream
import Unics.Lib.Run

/-!
# RC4

The three functions that use a context take turns, one for a byte, and a turn exchanges two entries
of the state. So the state stays a permutation, a turn can be undone, and what the functions store
is cut out of one stream however the calls are made. The state with `y = x + 1` and a 1 at `y` is on
a cycle of its own, which a context from `rc4_keysetup` never enters.
-/

namespace Unics

open Unics.Lib

/-! ## The state -/

section State

variable (state : Vector UInt8 rc4State)

theorem rc4Load_store (i c : UInt8) :
    rc4Load (rc4Store state i c) = Function.update (rc4Load state) i c := by
  funext j
  by_cases hj : j = i
  · subst hj
    rw [Function.update_self]
    exact Vector.getElem_set_self _
  · rw [Function.update_of_ne hj]
    exact Vector.getElem_set_ne _ _ fun h => hj (UInt8.toNat_inj.mp h.symm)

/-- The exchange is a transposition of the indices. -/
theorem rc4Load_swap (x y : UInt8) :
    rc4Load (rc4Swap state x y) = rc4Load state ∘ Equiv.swap x y := by
  rw [rc4Swap, rc4Load_store, rc4Load_store, Equiv.swap_comm, Equiv.comp_swap_eq_update]

theorem rc4Load_injective : Function.Injective rc4Load := by
  intro a b h
  refine Vector.ext fun i hi => ?_
  have at_ := congrFun h (UInt8.ofNat i)
  have index : (UInt8.ofNat i).toNat = i := Nat.mod_eq_of_lt hi
  have load (v : Vector UInt8 rc4State) : rc4Load v (UInt8.ofNat i) = v[i] :=
    congrArg v.get (Fin.ext index)
  rw [load, load] at at_
  exact at_

/-- An exchange keeps a permutation. -/
theorem rc4Swap_bijective (h : Function.Bijective (rc4Load state)) (x y : UInt8) :
    Function.Bijective (rc4Load (rc4Swap state x y)) := by
  rw [rc4Load_swap]
  exact h.comp (Equiv.swap x y).bijective

end State

instance : Finite Rc4Ctx := by
  let parts (ctx : Rc4Ctx) : Fin 256 × Fin 256 × (Fin 256 → Fin 256) :=
    (ctx.x.toFin, ctx.y.toFin, fun i => (rc4Load ctx.state (UInt8.ofFin i)).toFin)
  refine Finite.of_injective parts fun a b h => ?_
  obtain ⟨hx, hyz⟩ := Prod.mk.inj h
  obtain ⟨hy, hstate⟩ := Prod.mk.inj hyz
  obtain ⟨x, y, state⟩ := a
  obtain ⟨x', y', state'⟩ := b
  obtain rfl : x = x' := UInt8.toFin_inj.mp hx
  obtain rfl : y = y' := UInt8.toFin_inj.mp hy
  have same : rc4Load state = rc4Load state' :=
    funext fun i => UInt8.toFin_inj.mp (congrFun hstate i.toFin)
  rw [rc4Load_injective same]

/-! ## A turn -/

section Turn

variable (ctx : Rc4Ctx)

theorem rc4Turn_load :
    rc4Load (rc4Turn ctx).state =
      rc4Load ctx.state ∘ Equiv.swap (rc4Turn ctx).x (rc4Turn ctx).y :=
  rc4Load_swap _ _ _

/-- What was at the new `x` is at the new `y`. -/
theorem rc4Turn_load_y : rc4Load (rc4Turn ctx).state (rc4Turn ctx).y =
    rc4Load ctx.state (ctx.x + 1) := by
  rw [rc4Turn_load, Function.comp_apply, Equiv.swap_apply_right]
  rfl

/-- A turn can be undone. -/
theorem rc4Turn_injective : Function.Injective rc4Turn := by
  intro a b h
  have hx : a.x + 1 = b.x + 1 := congrArg Rc4Ctx.x h
  have hy : rc4Load a.state (a.x + 1) + a.y = rc4Load b.state (b.x + 1) + b.y :=
    congrArg Rc4Ctx.y h
  have before : rc4Load a.state = rc4Load b.state := by
    have after := congrArg (fun ctx => rc4Load ctx.state) h
    simp only [rc4Turn_load] at after
    rw [h] at after
    exact (Equiv.swap (rc4Turn b).x (rc4Turn b).y).surjective.injective_comp_right after
  have x : a.x = b.x := (UInt8.add_left_inj 1).mp hx
  rw [before, x] at hy
  obtain ⟨ax, ay, astate⟩ := a
  obtain ⟨bx, byy, bstate⟩ := b
  rw [Rc4Ctx.mk.injEq]
  exact ⟨x, (UInt8.add_right_inj _).mp hy, rc4Load_injective before⟩

/-- The states of a cycle on which the 1 goes along with the indices. -/
def Rc4Ctx.Finney (ctx : Rc4Ctx) : Prop := ctx.y = ctx.x + 1 ∧ rc4Load ctx.state ctx.y = 1

/-- No turn goes onto the cycle or leaves it. -/
theorem rc4Turn_finney_iff : (rc4Turn ctx).Finney ↔ ctx.Finney := by
  unfold Rc4Ctx.Finney
  rw [rc4Turn_load_y]
  have hy : (rc4Turn ctx).y = rc4Load ctx.state (ctx.x + 1) + ctx.y := rfl
  have hx : (rc4Turn ctx).x = ctx.x + 1 := rfl
  constructor
  · rintro ⟨next, one⟩
    rw [hy, hx, one, UInt8.add_comm] at next
    have at_ : ctx.y = ctx.x + 1 := (UInt8.add_left_inj 1).mp next
    exact ⟨at_, at_ ▸ one⟩
  · rintro ⟨at_, one⟩
    rw [at_] at one
    exact ⟨by rw [hy, hx, one, at_, UInt8.add_comm], one⟩

end Turn

/-! ## Calls -/

/-- The first `n` bytes of the stream of a context. -/
abbrev rc4Keystream (ctx : Rc4Ctx) (n : ℕ) : List UInt8 := keystream rc4Turn rc4Byte ctx n

/-- The bytes of a message under the stream of a context. -/
abbrev rc4Masked (ctx : Rc4Ctx) (src : List UInt8) : List UInt8 :=
  masked rc4Turn rc4Byte (· ^^^ ·) ctx src

theorem rc4Crypt_eq (ctx : Rc4Ctx) (src : List UInt8) :
    rc4Crypt ctx src = (rc4Turn^[src.length] ctx, rc4Masked ctx src) := by
  induction src generalizing ctx with
  | nil => rfl
  | cons c src ih =>
    rw [rc4Crypt, ih]
    exact Prod.ext rfl (masked_cons rc4Turn rc4Byte (· ^^^ ·) ctx c src).symm

theorem rc4GetbytesLoop_eq (ctx : Rc4Ctx) (n : ℕ) :
    rc4GetbytesLoop ctx n = (rc4Turn^[n] ctx, rc4Keystream ctx n) := by
  induction n generalizing ctx with
  | zero => rfl
  | succ n ih =>
    rw [rc4GetbytesLoop, ih]
    exact Prod.ext rfl (keystream_succ rc4Turn rc4Byte ctx n).symm

theorem rc4SkipLoop_eq (ctx : Rc4Ctx) (n : ℕ) : rc4SkipLoop ctx n = rc4Turn^[n] ctx := by
  induction n generalizing ctx with
  | zero => rfl
  | succ n ih => rw [rc4SkipLoop, ih, Function.iterate_succ_apply]

/-- The number of turns of a call. -/
def Rc4Call.length : Rc4Call → ℕ
  | .crypt src => src.length
  | .getbytes len => len.toNat
  | .skip len => len.toNat

/-- What a call stores when its piece of the stream is this one. -/
def Rc4Call.stored (piece : List UInt8) : Rc4Call → List UInt8
  | .crypt src => List.zipWith (· ^^^ ·) src piece
  | .getbytes _ => piece
  | .skip _ => []

/-- The number of turns of several calls. -/
def rc4Turns (calls : List Rc4Call) : ℕ := (calls.map Rc4Call.length).sum

/-- Every call goes on by its turns and stores by its piece of the stream. -/
theorem rc4Call_eq (ctx : Rc4Ctx) (c : Rc4Call) :
    rc4Call ctx c = (rc4Turn^[c.length] ctx, c.stored (rc4Keystream ctx c.length)) := by
  cases c with
  | crypt src => exact rc4Crypt_eq ctx src
  | getbytes len => exact rc4GetbytesLoop_eq ctx len.toNat
  | skip len => exact congrArg (·, _) (rc4SkipLoop_eq ctx len.toNat)

theorem rc4Run_eq (ctx : Rc4Ctx) (calls : List Rc4Call) :
    runFrom rc4Step ctx calls = rc4Turn^[rc4Turns calls] ctx := by
  induction calls generalizing ctx with
  | nil => rfl
  | cons c calls ih =>
    have step : rc4Step ctx c = rc4Turn^[c.length] ctx := congrArg Prod.fst (rc4Call_eq ctx c)
    rw [runFrom_cons, ih, step, ← Function.iterate_add_apply, rc4Turns, rc4Turns, List.map_cons,
      List.sum_cons, Nat.add_comm]

/-- However the calls are made, they are the cuts of one stream: a call takes the piece behind what
the calls before it have taken, and leaves the context where one skip over all of it would. -/
theorem rc4_stream (ctx : Rc4Ctx) (before : List Rc4Call) (c : Rc4Call) :
    rc4Call (runFrom rc4Step ctx before) c =
      (rc4SkipLoop ctx (rc4Turns before + c.length),
        c.stored ((rc4Keystream ctx (rc4Turns before + c.length)).drop (rc4Turns before))) := by
  rw [rc4Call_eq, rc4Run_eq, rc4SkipLoop_eq, rc4Keystream, rc4Keystream, keystream_add,
    List.drop_left' (length_keystream rc4Turn rc4Byte ctx _), ← Function.iterate_add_apply,
    Nat.add_comm c.length]

/-! ## Messages -/

/-- The pieces of a message, given to `rc4_crypt` one after the other. -/
def rc4Pieces (ctx : Rc4Ctx) : List (List UInt8) → List (List UInt8)
  | [] => []
  | src :: pieces => (rc4Crypt ctx src).2 :: rc4Pieces (rc4Crypt ctx src).1 pieces

theorem rc4Pieces_flatten (ctx : Rc4Ctx) (pieces : List (List UInt8)) :
    (rc4Pieces ctx pieces).flatten = rc4Masked ctx pieces.flatten := by
  induction pieces generalizing ctx with
  | nil => rfl
  | cons src pieces ih =>
    rw [rc4Pieces, List.flatten_cons, ih, List.flatten_cons, rc4Crypt_eq]
    exact (masked_append rc4Turn rc4Byte (· ^^^ ·) ctx src pieces.flatten).symm

/-- Two ends with equal contexts understand each other, wherever either cuts the message. -/
theorem rc4_roundTrip (ctx : Rc4Ctx) (sent received : List (List UInt8))
    (h : received.flatten = (rc4Pieces ctx sent).flatten) :
    (rc4Pieces ctx received).flatten = sent.flatten := by
  have undo (c b : UInt8) : c ^^^ b ^^^ b = c := by
    rw [UInt8.xor_assoc, UInt8.xor_self, UInt8.xor_zero]
  rw [rc4Pieces_flatten, h, rc4Pieces_flatten]
  exact masked_masked rc4Turn rc4Byte (· ^^^ ·) undo ctx sent.flatten

/-- Sent in two pieces, read in one. -/
theorem rc4_roundTrip_one :
    (rc4Pieces ⟨0, 0, .ofFn fun i => UInt8.ofNat i⟩
      [(rc4Pieces ⟨0, 0, .ofFn fun i => UInt8.ofNat i⟩ [[80, 108], [97]]).flatten]).flatten =
      [80, 108, 97] :=
  rc4_roundTrip ⟨0, 0, .ofFn fun i => UInt8.ofNat i⟩ [[80, 108], [97]] _ List.flatten_singleton

/-! ## The key -/

/-- The key schedule over the bytes of an endless key: `y` and the permutation, after `n` turns. -/
def keySchedule (k : ℕ → UInt8) : ℕ → UInt8 × (UInt8 → UInt8)
  | 0 => (0, id)
  | n + 1 =>
    let i := UInt8.ofNat n
    let (y, perm) := keySchedule k n
    let y := k n + perm i + y
    (y, perm ∘ Equiv.swap i y)

/-- The number of bytes of the key that the schedule takes in turn. -/
def rc4KeyBytes (klen : BitVec 32) : ℕ := min klen.toNat 256

section Key

variable (key : List UInt8) {klen : BitVec 32}

/-- The index of the key goes round, and no further than a byte can count. -/
theorem rc4_key_index (hklen : klen ≠ 0) (i : ℕ) :
    (UInt8.ofNat ((i % rc4KeyBytes klen + 1) % klen.toNat)).toNat =
      (i + 1) % rc4KeyBytes klen := by
  have pos : 0 < klen.toNat := Nat.pos_of_ne_zero fun h => hklen (BitVec.eq_of_toNat_eq h)
  have value (n : ℕ) : (UInt8.ofNat n).toNat = n % 256 := rfl
  rw [value]
  by_cases hlong : 256 < klen.toNat
  · have bytes : rc4KeyBytes klen = 256 := Nat.min_eq_right hlong.le
    have below : i % 256 + 1 < klen.toNat := by omega
    rw [bytes, Nat.mod_eq_of_lt below]
    omega
  · have bytes : rc4KeyBytes klen = klen.toNat := Nat.min_eq_left (Nat.le_of_not_lt hlong)
    have below : (i % klen.toNat + 1) % klen.toNat < 256 :=
      Nat.lt_of_lt_of_le (Nat.mod_lt _ pos) (Nat.le_of_not_lt hlong)
    rw [bytes, Nat.mod_eq_of_lt below, Nat.mod_add_mod]

/-- From turn `i` on the loop goes through if it finds every byte it reads, and it goes on with the
schedule. -/
theorem rc4KeyLoop_spec (hklen : klen ≠ 0) {n i : ℕ} {x y : UInt8}
    {state : Vector UInt8 rc4State} (hx : x.toNat = i % rc4KeyBytes klen)
    (hstate : (y, rc4Load state) =
      keySchedule (fun i => key.getD (i % rc4KeyBytes klen) 0) i) :
    ((rc4KeyLoop key klen n i x y state).isSome ↔
        ∀ j, i ≤ j → j < i + n → j % rc4KeyBytes klen < key.length) ∧
      ∀ after, rc4KeyLoop key klen n i x y state = some after →
        rc4Load after = (keySchedule (fun i => key.getD (i % rc4KeyBytes klen) 0) (i + n)).2 := by
  induction n generalizing i x y state with
  | zero =>
    refine ⟨iff_of_true rfl fun j hle hlt => absurd hlt (Nat.not_lt.mpr hle), fun after h => ?_⟩
    obtain rfl := Option.some.inj h
    exact congrArg Prod.snd hstate
  | succ n ih =>
    by_cases hread : i % rc4KeyBytes klen < key.length
    · have found : key[x.toNat]? = some (key.getD (i % rc4KeyBytes klen) 0) := by
        rw [hx, List.getD_eq_getElem?_getD, List.getElem?_eq_getElem hread, Option.getD_some]
      rw [rc4KeyLoop, found, Option.bind_eq_bind, Option.bind_some]
      simp only [if_neg hklen]
      have next := hx ▸ rc4_key_index hklen i
      obtain ⟨goes, ends⟩ := ih next (y := key.getD (i % rc4KeyBytes klen) 0 +
        rc4Load state (UInt8.ofNat i) + y) (by
          rw [keySchedule, ← hstate, rc4Load_swap])
      rw [Nat.add_right_comm, Nat.add_assoc] at goes ends
      refine ⟨goes.trans ⟨fun h j hle hlt => ?_, fun h j hle hlt => h j (by omega) hlt⟩, ends⟩
      rcases Nat.eq_or_lt_of_le hle with rfl | hlt'
      · exact hread
      · exact h j hlt' hlt
    · have missing : key[x.toNat]? = none := by
        rw [hx]
        exact List.getElem?_eq_none (Nat.le_of_not_lt hread)
      rw [rc4KeyLoop, missing]
      refine ⟨iff_of_false Bool.noConfusion fun h => hread (h i le_rfl (by omega)), ?_⟩
      intro after h
      cases h

theorem rc4Load_start : rc4Load (.ofFn fun i => UInt8.ofNat i) = id := by
  funext i
  exact (Vector.getElem_ofFn i.toNat_lt).trans UInt8.ofNat_toNat

end Key

/-- `rc4_keysetup` divides by no zero and stays inside the key exactly if its length is not 0 and
the memory has the bytes that count: as many as the length says, and 256 at most. The context is
then the schedule over these bytes, again and again. -/
theorem rc4_keysetup (key : List UInt8) (klen : BitVec 32) :
    ((rc4Keysetup key klen).isSome ↔ klen ≠ 0 ∧ rc4KeyBytes klen ≤ key.length) ∧
      ∀ ctx, rc4Keysetup key klen = some ctx → ctx.x = 0 ∧ ctx.y = 0 ∧
        rc4Load ctx.state =
          (keySchedule (fun i => key.getD (i % rc4KeyBytes klen) 0) rc4State).2 := by
  by_cases hklen : klen = 0
  · -- the first turn reads a byte and divides
    have fails : rc4Keysetup key klen = none := by
      rw [rc4Keysetup, Option.map_eq_none_iff, rc4KeyLoop]
      cases key[(0 : UInt8).toNat]? with
      | none => rfl
      | some k => exact if_pos hklen
    rw [fails]
    refine ⟨iff_of_false Bool.noConfusion fun h => h.1 hklen, fun ctx h => ?_⟩
    cases h
  · have pos : 0 < rc4KeyBytes klen := by
      have : 0 < klen.toNat := Nat.pos_of_ne_zero fun h => hklen (BitVec.eq_of_toNat_eq h)
      exact lt_min this (by decide)
    have most : rc4KeyBytes klen ≤ 256 := Nat.min_le_right _ _
    obtain ⟨goes, ends⟩ := rc4KeyLoop_spec key hklen (n := rc4State) (i := 0) (x := 0)
      (y := 0) (Nat.zero_mod _).symm (congrArg ((0 : UInt8), ·) rc4Load_start)
    rw [Nat.zero_add] at goes ends
    refine ⟨?_, fun ctx h => ?_⟩
    · rw [rc4Keysetup, Option.isSome_map, goes]
      constructor
      · intro h
        have last := h (rc4KeyBytes klen - 1) (Nat.zero_le _) (by show _ < 256; omega)
        rw [Nat.mod_eq_of_lt (by omega)] at last
        exact ⟨hklen, by omega⟩
      · rintro ⟨-, hlength⟩ j - -
        exact Nat.lt_of_lt_of_le (Nat.mod_lt j pos) hlength
    · obtain ⟨after, hafter, rfl⟩ := Option.map_eq_some_iff.mp h
      exact ⟨rfl, rfl, ends after hafter⟩

theorem keySchedule_bijective (k : ℕ → UInt8) (n : ℕ) :
    Function.Bijective (keySchedule k n).2 := by
  induction n with
  | zero => exact Function.bijective_id
  | succ n ih => exact ih.comp (Equiv.swap _ _).bijective

/-! ## Every state of a run -/

/-- What holds of every context from `rc4_keysetup` on. -/
structure Rc4Sound (ctx : Rc4Ctx) : Prop where
  permutation : Function.Bijective (rc4Load ctx.state)
  noCycle : ¬ ctx.Finney

theorem Rc4Sound.iterate {ctx : Rc4Ctx} (h : Rc4Sound ctx) (n : ℕ) :
    Rc4Sound (rc4Turn^[n] ctx) := by
  induction n with
  | zero => exact h
  | succ n ih =>
    rw [Function.iterate_succ_apply']
    exact ⟨rc4Swap_bijective _ ih.permutation _ _, (rc4Turn_finney_iff _).not.mpr ih.noCycle⟩

/-- After `rc4_keysetup`, with whatever key, and any calls, the state is a permutation of the bytes
and the context is not on the short cycle. -/
theorem rc4_sound {key : List UInt8} {klen : BitVec 32} {ctx : Rc4Ctx}
    (h : rc4Keysetup key klen = some ctx) (calls : List Rc4Call) :
    EveryState rc4Step Rc4Sound ctx calls := by
  obtain ⟨hx, hy, hload⟩ := (rc4_keysetup key klen).2 ctx h
  have start : Rc4Sound ctx := by
    refine ⟨hload ▸ keySchedule_bijective _ _, fun hcycle => ?_⟩
    have := hcycle.1
    rw [hx, hy] at this
    exact absurd this (by decide)
  refine (everyStep_true rc4Step ctx calls).everyState (fun ctx c sound _ => ?_)
    (fun _ sound => sound) start
  have step : rc4Step ctx c = rc4Turn^[c.length] ctx := congrArg Prod.fst (rc4Call_eq ctx c)
  rw [step]
  exact sound.iterate c.length

/-- With a key of three bytes. -/
theorem rc4_sound_three : ∃ ctx, rc4Keysetup [75, 101, 121] 3 = some ctx ∧
    EveryState rc4Step Rc4Sound ctx [.skip 768, .crypt [80, 108], .getbytes 4] := by
  have isSome : (rc4Keysetup [75, 101, 121] 3).isSome :=
    (rc4_keysetup [75, 101, 121] 3).1.mpr (by decide)
  obtain ⟨ctx, h⟩ := Option.isSome_iff_exists.mp isSome
  exact ⟨ctx, h, rc4_sound h _⟩

theorem rc4Turn_iterate_x (ctx : Rc4Ctx) (n : ℕ) :
    (rc4Turn^[n] ctx).x = ctx.x + UInt8.ofNat n := by
  induction n with
  | zero => exact (UInt8.add_zero _).symm
  | succ n ih =>
    rw [Function.iterate_succ_apply']
    show (rc4Turn^[n] ctx).x + 1 = _
    rw [ih, UInt8.add_assoc, ← UInt8.ofNat_one, ← UInt8.ofNat_add]

/-- Turns lose nothing: contexts that agree after the same skip are the same, and every context
comes back after a multiple of 256 turns, so that its stream repeats from its first byte on. -/
theorem rc4_returns (ctx : Rc4Ctx) :
    (∀ other n, rc4SkipLoop ctx n = rc4SkipLoop other n → ctx = other) ∧
      ∃ n, 0 < n ∧ 256 ∣ n ∧ rc4SkipLoop ctx n = ctx ∧
        ∀ i, rc4Byte (rc4SkipLoop ctx (i + n + 1)) = rc4Byte (rc4SkipLoop ctx (i + 1)) := by
  simp only [rc4SkipLoop_eq]
  refine ⟨fun other n h => rc4Turn_injective.iterate n h, ?_⟩
  obtain ⟨n, hpos, hreturn⟩ := exists_return rc4Turn_injective ctx
  refine ⟨n, hpos, ?_, hreturn, keystream_return hreturn⟩
  have back := (rc4Turn_iterate_x ctx n).symm.trans (congrArg Rc4Ctx.x hreturn)
  have zero := congrArg UInt8.toNat (UInt8.add_eq_left.mp back)
  exact Nat.dvd_of_mod_eq_zero zero

end Unics
