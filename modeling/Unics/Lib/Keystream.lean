import Mathlib.GroupTheory.OrderOfElement
import Mathlib.Logic.Function.Iterate

/-!
# Streams of a generator

A generator steps a state and reads a symbol off each state it comes to. A message is masked with
the symbols one by one, by any operation. What is left after a part of a message is the masking of
the rest from the state the generator is in then (`masked_append`), so it does not matter how a
message is cut, and an operation that undoes itself reads the message back (`masked_masked`).

A step that loses nothing, on finitely many states, comes back to every state (`exists_return`).
-/

namespace Unics.Lib

variable {σ α β : Type*}

section Stream

variable (next : σ → σ) (out : σ → β)

/-- The first `n` symbols from a state on, each read after a step. -/
def keystream (s : σ) (n : ℕ) : List β := (List.range n).map fun i => out (next^[i + 1] s)

@[simp] theorem length_keystream (s : σ) (n : ℕ) : (keystream next out s n).length = n := by
  rw [keystream, List.length_map, List.length_range]

@[simp] theorem keystream_zero (s : σ) : keystream next out s 0 = [] := rfl

theorem keystream_succ (s : σ) (n : ℕ) :
    keystream next out s (n + 1) = out (next s) :: keystream next out (next s) n := by
  rw [keystream, List.range_succ_eq_map, List.map_cons, List.map_map]
  rfl

/-- The stream goes on from the state that its beginning leads to. -/
theorem keystream_add (s : σ) (m n : ℕ) :
    keystream next out s (m + n) =
      keystream next out s m ++ keystream next out (next^[m] s) n := by
  induction m generalizing s with
  | zero => rw [Nat.zero_add, keystream_zero, List.nil_append, Function.iterate_zero_apply]
  | succ m ih =>
    rw [Nat.add_right_comm, keystream_succ, ih, keystream_succ, List.cons_append,
      Function.iterate_succ_apply]

variable (op : α → β → α)

/-- A message, masked with the stream from a state on. -/
def masked (s : σ) (xs : List α) : List α :=
  List.zipWith op xs (keystream next out s xs.length)

@[simp] theorem masked_nil (s : σ) : masked next out op s [] = [] := rfl

@[simp] theorem length_masked (s : σ) (xs : List α) :
    (masked next out op s xs).length = xs.length := by
  rw [masked, List.length_zipWith, length_keystream, Nat.min_self]

theorem masked_cons (s : σ) (x : α) (xs : List α) :
    masked next out op s (x :: xs) = op x (out (next s)) :: masked next out op (next s) xs := by
  rw [masked, List.length_cons, keystream_succ, List.zipWith_cons_cons]
  rfl

/-- A message in two parts: the second is masked from where the first has led. -/
theorem masked_append (s : σ) (xs ys : List α) :
    masked next out op s (xs ++ ys) =
      masked next out op s xs ++ masked next out op (next^[xs.length] s) ys := by
  induction xs generalizing s with
  | nil => rfl
  | cons x xs ih =>
    rw [List.cons_append, masked_cons, masked_cons, ih, List.cons_append, List.length_cons,
      Function.iterate_succ_apply]

/-- Where the operation undoes itself, the masked message reads back. -/
theorem masked_masked (hop : ∀ x b, op (op x b) b = x) (s : σ) (xs : List α) :
    masked next out op s (masked next out op s xs) = xs := by
  induction xs generalizing s with
  | nil => rfl
  | cons x xs ih => rw [masked_cons, masked_cons, hop, ih]

end Stream

/-! ## Coming back -/

section Return

variable {next : σ → σ}

/-- A step that loses nothing, on finitely many states, comes back to every state. -/
theorem exists_return [Finite σ] (h : Function.Injective next) (s : σ) :
    ∃ n, 0 < n ∧ next^[n] s = s := by
  have bijective : Function.Bijective next := Finite.injective_iff_bijective.mp h
  let perm : Equiv.Perm σ := .ofBijective next bijective
  refine ⟨orderOf perm, orderOf_pos perm, ?_⟩
  have back : (perm ^ orderOf perm) s = s := by rw [pow_orderOf_eq_one, Equiv.Perm.one_apply]
  rwa [← Equiv.Perm.iterate_eq_pow] at back

/-- After a return the stream repeats. -/
theorem keystream_return {out : σ → β} {s : σ} {n : ℕ} (h : next^[n] s = s) (i : ℕ) :
    out (next^[i + n + 1] s) = out (next^[i + 1] s) := by
  rw [Nat.add_right_comm, Function.iterate_add_apply, h]

end Return

end Unics.Lib
