import Mathlib.Data.List.Basic

/-!
# Items read from an input

A reader goes over a list of items. An item passes a part of the input, stores a value that it reads
there, or ends the reading; an item that spoils stores a value that does not count, and ends it. A
reader that waits for more input answers `none`.

Two readers that store something at the same items agree as long as their values are the same
(`agree_stores`).
-/

namespace Unics.Lib

variable {ι σ β : Type}

/-- What an item comes to. -/
inductive Reading (σ β : Type) where
  | passes (input : σ)
  | stores (value : β) (input : σ)
  | stops
  | spoils (value : β)

/-- A value that is stored and counts, before what is read behind it. -/
def countValue (value : β) (r : ℕ × List β) : ℕ × List β := (r.1 + 1, value :: r.2)

/-- What a reading comes to with what follows it. -/
def Reading.followed (next : σ → Option (ℕ × List β)) :
    Option (Reading σ β) → Option (ℕ × List β)
  | none => none
  | some (.passes input) => next input
  | some (.stores value input) => (next input).map (countValue value)
  | some .stops => some (0, [])
  | some (.spoils value) => some (0, [value])

/-- What has been counted and stored when the reading ends. -/
def readItems (read : ι → σ → Option (Reading σ β)) : List ι → σ → Option (ℕ × List β)
  | [], _ => some (0, [])
  | item :: items, input => Reading.followed (readItems read items) (read item input)

section Items

variable {read : ι → σ → Option (Reading σ β)} {item : ι} {items : List ι} {input input' : σ}
  {value : β}

theorem readItems_waits (h : read item input = none) :
    readItems read (item :: items) input = none := by
  rw [readItems, h, Reading.followed]

theorem readItems_passes (h : read item input = some (.passes input')) :
    readItems read (item :: items) input = readItems read items input' := by
  rw [readItems, h, Reading.followed]

theorem readItems_stores (h : read item input = some (.stores value input')) :
    readItems read (item :: items) input =
      (readItems read items input').map (countValue value) := by
  rw [readItems, h, Reading.followed]

theorem readItems_stops (h : read item input = some .stops) :
    readItems read (item :: items) input = some (0, []) := by
  rw [readItems, h, Reading.followed]

theorem readItems_spoils (h : read item input = some (.spoils value)) :
    readItems read (item :: items) input = some (0, [value]) := by
  rw [readItems, h, Reading.followed]

/-- Items in front that pass nothing, or at which the reader waits as it does at the next. -/
theorem readItems_append {front : List ι}
    (hfront : ∀ i ∈ front, read i input = some (.passes input) ∨
      read i input = none ∧ read item input = none) :
    readItems read (front ++ item :: items) input = readItems read (item :: items) input := by
  induction front with
  | nil => rfl
  | cons i front ih =>
    have rest := ih fun j hj => hfront j (List.mem_cons_of_mem i hj)
    rcases hfront i List.mem_cons_self with hpass | ⟨hwait, hnext⟩
    · exact (readItems_passes hpass).trans rest
    · exact (readItems_waits hwait).trans (readItems_waits hnext).symm

end Items

/-! ## Reading to the end -/

/-- A reading that stores these values and goes on. -/
def Reading.Takes (values : List β) (next : σ → Prop) : Option (Reading σ β) → Prop
  | some (.passes input) => values = [] ∧ next input
  | some (.stores value input) => values = [value] ∧ next input
  | _ => False

/-- Where every item takes its values and leaves an input for the items behind it, all values are
stored. -/
theorem readItems_takes {φ : Type} {read : ι → σ → Option (Reading σ β)} {item : φ → ι}
    {values : φ → List β} {Left : List φ → σ → Prop}
    (hstep : ∀ f fields input, Left (f :: fields) input →
      Reading.Takes (values f) (Left fields) (read (item f) input))
    {fields : List φ} {input : σ} (h : Left fields input) :
    readItems read (fields.map item) input =
      some ((fields.flatMap values).length, fields.flatMap values) := by
  induction fields generalizing input with
  | nil => rfl
  | cons f fields ih =>
    have took := hstep f fields input h
    rw [List.map_cons, List.flatMap_cons]
    cases hread : read (item f) input with
    | none => exact (hread ▸ took).elim
    | some reading =>
      rw [hread] at took
      cases reading with
      | passes input' =>
        obtain ⟨hvalues, hleft⟩ := took
        rw [readItems_passes hread, hvalues]
        exact ih hleft
      | stores value input' =>
        obtain ⟨hvalues, hleft⟩ := took
        rw [readItems_stores hread, hvalues, ih hleft]
        rfl
      | stops => exact took.elim
      | spoils value => exact took.elim

/-! ## Two readers -/

/-- Both come to an end, and to the same. -/
def Agree {ρ : Type} (x y : Option ρ) : Prop := ∃ r, x = some r ∧ y = some r

section Agree

variable {ρ : Type} {x y : Option (ℕ × List β)} {v w : β}

theorem not_agree_none {y : Option ρ} : ¬ Agree none y :=
  fun ⟨r, h, _⟩ => Option.some_ne_none r h.symm

theorem agree_some {r : ρ} {x : Option ρ} : Agree x (some r) ↔ x = some r := by
  constructor
  · rintro ⟨q, hx, hq⟩
    exact hx.trans hq.symm
  · intro h
    exact ⟨r, h, rfl⟩

theorem agree_some_left {r : ρ} {y : Option ρ} : Agree (some r) y ↔ y = some r := by
  constructor
  · rintro ⟨q, hq, hy⟩
    exact hy.trans hq.symm
  · intro h
    exact ⟨r, rfl, h⟩

/-- Where something counts, nothing else comes to the same. -/
theorem map_countValue_ne (x : Option (ℕ × List β)) (values : List β) :
    x.map (countValue v) ≠ some (0, values) := by
  intro h
  obtain ⟨r, -, hr⟩ := Option.map_eq_some_iff.mp h
  exact Nat.succ_ne_zero _ (congrArg (·.1) hr)

theorem agree_stores : Agree (x.map (countValue v)) (y.map (countValue w)) ↔ v = w ∧ Agree x y := by
  constructor
  · rintro ⟨r, hx, hy⟩
    obtain ⟨p, hp, hv⟩ := Option.map_eq_some_iff.mp hx
    obtain ⟨q, hq, hw⟩ := Option.map_eq_some_iff.mp hy
    have both := hv.trans hw.symm
    obtain ⟨values, rest⟩ := List.cons.inj (congrArg (·.2) both)
    have count : p.1 = q.1 := Nat.succ.inj (congrArg (·.1) both)
    exact ⟨values, p, hp, hq.trans (congrArg some (Prod.ext count.symm rest.symm))⟩
  · rintro ⟨rfl, r, hx, hy⟩
    exact ⟨countValue v r, congrArg (Option.map _) hx, congrArg (Option.map _) hy⟩

end Agree

end Unics.Lib
