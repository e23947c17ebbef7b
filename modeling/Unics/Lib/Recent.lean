import Mathlib.Data.List.Destutter
import Mathlib.Data.List.DropRight

/-!
# The recent past

A history with room for `n` items. An item that repeats the last one is not added, and the oldest
item makes room for a new one. What is then remembered of a sequence of items are the last `n` of
it, after repetitions in a row have been collapsed.
-/

namespace Unics.Lib

variable {α : Type}

/-! ## The last items -/

theorem getLast?_rtake {n : Nat} (hn : 0 < n) (l : List α) : (l.rtake n).getLast? = l.getLast? := by
  rw [List.rtake, List.getLast?_drop]
  split
  · next h =>
    have empty : l = [] := List.eq_nil_of_length_eq_zero (by omega)
    rw [empty, List.getLast?_nil]
  · rfl

/-- Where all places are taken the oldest item leaves. -/
theorem rtake_makes_room (n : Nat) (l : List α) :
    (if n + 1 ≤ (l.rtake (n + 1)).length then (l.rtake (n + 1)).tail else l.rtake (n + 1)) =
      l.rtake n := by
  rw [List.rtake, List.rtake, List.length_drop]
  split
  · rw [List.tail_drop]
    congr 1
    omega
  · congr 1
    omega

/-! ## Histories -/

variable [DecidableEq α]

/-- The history once an item has come. -/
def remember (n : Nat) (history : List α) (a : α) : List α :=
  if history.getLast? = some a then history
  else (if n ≤ history.length then history.tail else history) ++ [a]

/-- The last `n` items, repetitions in a row counted once. -/
def recent (n : Nat) (items : List α) : List α := (items.destutter (· ≠ ·)).rtake n

/-- One more item is added unless it repeats the last. -/
theorem destutter_concat (items : List α) (a : α) :
    (items ++ [a]).destutter (· ≠ ·) =
      if (items.destutter (· ≠ ·)).getLast? = some a then items.destutter (· ≠ ·)
      else items.destutter (· ≠ ·) ++ [a] := by
  cases items with
  | nil => rfl
  | cons b items =>
    rw [List.cons_append, List.destutter_cons', List.destutter_cons']
    induction items generalizing b with
    | nil =>
      rw [List.nil_append, List.destutter'_singleton, List.destutter'_nil, List.getLast?_singleton]
      by_cases h : b = a
      · rw [if_neg (not_not_intro h), if_pos (congrArg some h)]
      · rw [if_pos h, if_neg fun heq => h (Option.some.inj heq), List.singleton_append]
    | cons c items ih =>
      rw [List.cons_append]
      by_cases h : b ≠ c
      · have last : (b :: items.destutter' (· ≠ ·) c).getLast? =
            (items.destutter' (· ≠ ·) c).getLast? := by
          rw [List.getLast?_cons, List.getLast?_eq_some_getLast (List.destutter'_ne_nil _ _),
            Option.getD_some]
        rw [List.destutter'_cons_pos _ h, List.destutter'_cons_pos _ h, ih c, last]
        split
        · rfl
        · rfl
      · rw [List.destutter'_cons_neg _ h, List.destutter'_cons_neg _ h, ih b]

theorem foldl_remember {n : Nat} (hn : 0 < n) (items : List α) :
    items.foldl (remember n) [] = recent n items := by
  induction items using List.reverseRecOn with
  | nil =>
    rw [recent, List.destutter_nil, List.rtake_nil]
    rfl
  | append_singleton items a ih =>
    obtain ⟨n, rfl⟩ := Nat.exists_eq_succ_of_ne_zero (Nat.ne_of_gt hn)
    rw [List.foldl_concat, ih, remember, recent, recent, getLast?_rtake hn, destutter_concat]
    split
    · rfl
    · rw [List.rtake_concat_succ]
      exact congrArg (· ++ [a]) (rtake_makes_room n _)

end Unics.Lib
