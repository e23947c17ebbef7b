import Unics.Lib.Checked
import Unics.Lib.Run
import Unics.Drivers.Vga

/-!
# The screen's state and its accesses

Most of the driver only paints: whatever it stores, row, column and colour stay (`Painted`). What is
left moves the cursor, and the row may be one too far until the screen is scrolled. `Vga.Placed` is
what a function that moves the cursor leaves, `Vga.Within` what every call leaves.
-/

namespace Unics

open Unics.Lib

/-! ## Painting -/

/-- Only the memory may differ. -/
def Painted (vga vga' : Vga) : Prop := ∃ memory, vga' = { vga with memory := memory }

theorem Painted.refl (vga : Vga) : Painted vga vga := ⟨vga.memory, rfl⟩

theorem Painted.trans {a b c : Vga} (h : Painted a b) (h' : Painted b c) : Painted a c := by
  obtain ⟨_, rfl⟩ := h
  obtain ⟨memory, rfl⟩ := h'
  exact ⟨memory, rfl⟩

theorem mem_upTo {start stop i : Int} : i ∈ upTo start stop ↔ start ≤ i ∧ i < stop := by
  rw [upTo, List.mem_map]
  constructor
  · rintro ⟨k, hk, rfl⟩
    have := List.mem_range.mp hk
    omega
  · rintro ⟨hle, hlt⟩
    exact ⟨(i - start).toNat, List.mem_range.mpr (by omega), by omega⟩

section Painting

variable {vga : Vga}

theorem Vga.store_ends {i : Int} (h₀ : 0 ≤ i) (h : i < 2000) (entry : UInt16) :
    Ends (vga.store i entry) (Painted vga) := by
  rw [Vga.store, if_pos ⟨h₀, h⟩]
  exact ends_some.mpr ⟨_, rfl⟩

theorem Vga.memmove_ends {dest src n : Int} (hdest : 0 ≤ dest) (hsrc : 0 ≤ src) (hn : 0 ≤ n)
    (hd : dest + n ≤ 2000) (hs : src + n ≤ 2000) :
    Ends (vga.memmove dest src n) (Painted vga) := by
  rw [Vga.memmove, if_pos ⟨hdest, hsrc, hn, hd, hs⟩]
  exact ends_some.mpr ⟨_, rfl⟩

/-- A loop whose turns paint. -/
theorem painted_loop {α : Type} {f : Vga → α → Option Vga} {l : List α}
    (hturn : ∀ a ∈ l, ∀ s : Vga, Ends (f s a) (Painted s)) : Ends (l.foldlM f vga) (Painted vga) :=
  Ends.foldlM (fun a ha s hs => (hturn a ha s).mono fun _ => hs.trans) (Painted.refl vga)

theorem Vga.clearLine_ends {line : Int} (h₀ : 0 ≤ line) (h : line < 25) :
    Ends (vga.clearLine line) (Painted vga) := by
  refine painted_loop fun col hcol s => ?_
  have := mem_upTo.mp hcol
  exact Vga.store_ends (by omega) (by omega) _

theorem Vga.clearLines_ends {start stop : Int} (h₀ : 0 ≤ start) (h : stop ≤ 25) :
    Ends ((upTo start stop).foldlM Vga.clearLine vga) (Painted vga) := by
  refine painted_loop fun line hline s => ?_
  have := mem_upTo.mp hline
  exact Vga.clearLine_ends (by omega) (by omega)

theorem vgaBoundsCheck_iff {x y : Int} :
    vgaBoundsCheck x y = true ↔ 0 ≤ x ∧ x < 80 ∧ 0 ≤ y ∧ y < 25 :=
  decide_eq_true_iff

/-- The check is the one that the index needs. -/
theorem Vga.storeAt_ends (x y : Int) (entry : UInt16) :
    Ends (vga.storeAt x y entry) (Painted vga) := by
  unfold Vga.storeAt
  split
  · next hin =>
    have := vgaBoundsCheck_iff.mp hin
    exact Vga.store_ends (by omega) (by omega) entry
  · exact ends_some.mpr (Painted.refl vga)

theorem Vga.area_ends (x y width height : Int) (entry : UInt16) :
    Ends (vga.area x y width height entry) (Painted vga) :=
  painted_loop fun row _ _ => painted_loop fun col _ _ => Vga.storeAt_ends col row entry

theorem vgaClearArea_ends (x y width height : Int) :
    Ends (vgaClearArea vga x y width height) (Painted vga) := by
  unfold vgaClearArea
  split
  · exact ends_some.mpr (Painted.refl vga)
  · exact Vga.area_ends x y width height _

theorem vgaFillArea_ends (x y width height : Int) (c color : UInt8) :
    Ends (vgaFillArea vga x y width height c color) (Painted vga) := by
  unfold vgaFillArea
  split
  · exact ends_some.mpr (Painted.refl vga)
  · exact Vga.area_ends x y width height _

/-- The edges may lie outside the screen, each store is checked. -/
theorem vgaDrawBox_ends (x y width height : Int) (color : UInt8) :
    Ends (vgaDrawBox vga x y width height color) (Painted vga) := by
  unfold vgaDrawBox
  split
  · exact ends_some.mpr (Painted.refl vga)
  · have edges : ∀ (s : Vga) (x y x' y' : Int) (entry : UInt16),
        Ends (do let s ← s.storeAt x y entry; s.storeAt x' y' entry) (Painted s) :=
      fun s x y x' y' entry => (Vga.storeAt_ends x y entry).bind fun _ ht =>
        (Vga.storeAt_ends x' y' entry).mono fun _ => ht.trans
    exact (painted_loop fun col _ s => edges s _ _ _ _ _).bind fun _ ht =>
      (painted_loop fun row _ s => edges s _ _ _ _ _).mono fun _ => ht.trans

theorem vgaPutcharAt_ends (c : UInt8) (x y : Int) :
    Ends (vgaPutcharAt vga c x y) (Painted vga) := by
  unfold vgaPutcharAt
  split
  · exact ends_some.mpr (Painted.refl vga)
  · exact Vga.storeAt_ends x y _

theorem vgaPutsAtLoop_ends (origX x y : Int) (str : List UInt8) :
    Ends (vgaPutsAtLoop origX vga x y str) (Painted vga) := by
  induction str generalizing vga x y with
  | nil => exact ends_some.mpr (Painted.refl vga)
  | cons c str ih =>
    unfold vgaPutsAtLoop
    split
    · exact ends_some.mpr (Painted.refl vga)
    split
    · exact ih origX (y + 1)
    split
    · exact (vgaPutcharAt_ends c x y).bind fun _ ht => (ih (x + 1) y).mono fun _ => ht.trans
    · exact ih x y

theorem vgaPutsAt_ends (str : Option CString) (x y : Int) :
    Ends (vgaPutsAt vga str x y) (Painted vga) := by
  unfold vgaPutsAt
  split
  · exact ends_some.mpr (Painted.refl vga)
  split
  · exact ends_some.mpr (Painted.refl vga)
  · exact vgaPutsAtLoop_ends x x y _

/-- The lines below `y` move by one line, up or down. -/
theorem Vga.moveLines_ends {dest src y : Int} (hdest : 0 ≤ dest ∧ dest ≤ y + 1)
    (hsrc : 0 ≤ src ∧ src ≤ y + 1) :
    Ends (if y < 24 then vga.memmove (dest * 80) (src * 80) (80 * (25 - y - 1)) else some vga)
      (Painted vga) := by
  split
  · exact Vga.memmove_ends (by omega) (by omega) (by omega) (by omega) (by omega)
  · exact ends_some.mpr (Painted.refl vga)

theorem vgaDeleteLine_ends (y : Int) : Ends (vgaDeleteLine vga y) (Painted vga) := by
  unfold vgaDeleteLine
  split
  · exact ends_some.mpr (Painted.refl vga)
  · next hy =>
    refine (Vga.moveLines_ends (by omega) (by omega)).bind fun _ ht => ?_
    exact (Vga.clearLine_ends (by decide) (by decide)).mono fun _ => ht.trans

theorem vgaInsertLine_ends (y : Int) : Ends (vgaInsertLine vga y) (Painted vga) := by
  unfold vgaInsertLine
  split
  · exact ends_some.mpr (Painted.refl vga)
  · next hy =>
    refine (Vga.moveLines_ends (by omega) (by omega)).bind fun _ ht => ?_
    exact (Vga.clearLine_ends (by omega) (by omega)).mono fun _ => ht.trans

end Painting

/-! ## Where the cursor is -/

/-- The driver's cursor is on the screen. -/
structure Vga.Placed (vga : Vga) : Prop where
  buffer : vga.buffer = true
  row : vga.row < 25
  column : vga.column < 80

/-- What holds between calls: the hardware's cursor is also there. -/
structure Vga.Within (vga : Vga) : Prop extends Vga.Placed vga where
  cursor : vga.cursor = UInt16.ofNat (vga.row * 80 + vga.column)

section Placed

variable {vga : Vga}

theorem Vga.Placed.painted (h : vga.Placed) {vga' : Vga} (hp : Painted vga vga') : vga'.Placed := by
  obtain ⟨memory, rfl⟩ := hp
  exact ⟨h.buffer, h.row, h.column⟩

theorem Vga.Within.painted (h : vga.Within) {vga' : Vga} (hp : Painted vga vga') : vga'.Within := by
  obtain ⟨memory, rfl⟩ := hp
  exact ⟨⟨h.buffer, h.row, h.column⟩, h.cursor⟩

theorem vgaUpdateCursor_of_bounds (hbuf : vga.buffer = true) {x y : Int} (h : vgaBoundsCheck x y) :
    vgaUpdateCursor vga x y =
      { vga with
        column := x.toNat
        row := y.toNat
        cursor := UInt16.ofNat (y * 80 + x).toNat } := by
  rw [vgaUpdateCursor, if_neg (not_not_intro hbuf), if_neg (not_not_intro h)]

/-- Coordinates on the screen are where the cursor goes. -/
theorem Vga.within_of_bounds (hbuf : vga.buffer = true) {x y : Int} (h : vgaBoundsCheck x y) :
    (vgaUpdateCursor vga x y).Within := by
  have bounds := vgaBoundsCheck_iff.mp h
  have place : (y * 80 + x).toNat = y.toNat * 80 + x.toNat := by omega
  rw [vgaUpdateCursor_of_bounds hbuf h, place]
  exact ⟨⟨hbuf, by show y.toNat < 25; omega, by show x.toNat < 80; omega⟩, rfl⟩

/-- The last thing that a function does which moved the cursor. -/
theorem Vga.Placed.update (h : vga.Placed) :
    (vgaUpdateCursor vga vga.column vga.row).Within := by
  have row := h.row
  have column := h.column
  exact Vga.within_of_bounds h.buffer (vgaBoundsCheck_iff.mpr (by omega))

/-- Other coordinates are ignored. -/
theorem Vga.Within.updateCursor (h : vga.Within) (x y : Int) :
    (vgaUpdateCursor vga x y).Within := by
  by_cases hin : vgaBoundsCheck x y = true
  · exact Vga.within_of_bounds h.buffer hin
  · rw [vgaUpdateCursor, if_neg (not_not_intro h.buffer), if_pos hin]
    exact h

theorem Vga.Within.moveCursor (h : vga.Within) (x y : Int) : (vgaMoveCursor vga x y).Within := by
  unfold vgaMoveCursor
  split
  · next hin =>
    refine Vga.within_of_bounds ?_ hin
    exact h.buffer
  · exact h

theorem vgaClear_ends (hbuf : vga.buffer = true) : Ends (vgaClear vga) Vga.Within := by
  rw [vgaClear, if_neg (not_not_intro hbuf)]
  have loop : Ends ((upTo 0 2000).foldlM (fun vga i => vga.store i vga.blank) vga) (Painted vga) :=
    painted_loop fun i hi _ => Vga.store_ends (mem_upTo.mp hi).1 (mem_upTo.mp hi).2 _
  refine loop.bind fun s hs => ends_some.mpr ?_
  obtain ⟨memory, rfl⟩ := hs
  have origin : vgaBoundsCheck 0 0 := by decide
  refine Vga.within_of_bounds ?_ origin
  exact hbuf

theorem vgaInitialize_ends (vga : Vga) : Ends (vgaInitialize vga) Vga.Within := vgaClear_ends rfl

/-! ## Scrolling -/

/-- A row that is one too far is back on the screen after a scroll. -/
theorem vgaScrollInternal_ends {lines : Int} (hbuf : vga.buffer = true) (hcol : vga.column < 80)
    (hrow : vga.row < 25 ∨ vga.row = 25 ∧ 0 < lines) :
    Ends (vgaScrollInternal vga lines) Vga.Placed := by
  unfold vgaScrollInternal
  split
  · next hno =>
    have stay : vga.row < 25 := by
      rcases hno with h | h
      · exact absurd hbuf h
      · omega
    exact ends_some.mpr ⟨hbuf, stay, hcol⟩
  split
  · exact (vgaClear_ends hbuf).mono fun _ h => h.toPlaced
  · next hlines hfew =>
    have pos : 0 < lines := Int.not_le.mp fun hle => hlines (.inr hle)
    refine (Vga.memmove_ends (by decide) (by omega) (by omega) (by omega) (by omega)).bind
      fun s hs => ?_
    refine (Vga.clearLines_ends (by omega) (by decide)).bind fun t ht => ends_some.mpr ?_
    obtain ⟨memory, rfl⟩ := hs.trans ht
    split
    · exact ⟨hbuf, by show vga.row - lines.toNat < 25; omega, hcol⟩
    · exact ⟨hbuf, (by decide : 0 < 25), (by decide : 0 < 80)⟩

theorem vgaScrollUp_ends (h : vga.Placed) (lines : Int) : Ends (vgaScrollUp vga lines) Vga.Within :=
  (vgaScrollInternal_ends h.buffer h.column (.inl h.row)).bind fun _ hs => ends_some.mpr hs.update

theorem vgaScrollDown_ends (h : vga.Within) (lines : Int) :
    Ends (vgaScrollDown vga lines) Vga.Within := by
  unfold vgaScrollDown
  split
  · exact ends_some.mpr h
  split
  · exact vgaClear_ends h.buffer
  · next hlines hfew =>
    have pos : 0 < lines := Int.not_le.mp fun hle => hlines (.inr hle)
    refine (Vga.memmove_ends (by omega) (by decide) (by omega) (by omega) (by omega)).bind
      fun s hs => ?_
    refine (Vga.clearLines_ends (by decide) (by omega)).bind fun t ht => ends_some.mpr ?_
    obtain ⟨memory, rfl⟩ := hs.trans ht
    refine Vga.Placed.update ⟨h.buffer, ?_, h.column⟩
    show (if vga.row + lines.toNat < 25 then vga.row + lines.toNat else 24) < 25
    split
    · assumption
    · decide

/-! ## Characters -/

theorem Vga.nextRow_ends (h : vga.Placed) : Ends vga.nextRow Vga.Placed := by
  have row := h.row
  unfold Vga.nextRow
  dsimp only
  split
  · next hfull =>
    have last : vga.row + 1 = 25 := by
      have : 25 ≤ vga.row + 1 := hfull
      omega
    exact vgaScrollInternal_ends h.buffer h.column (.inr ⟨last, by decide⟩)
  · next hroom => exact ends_some.mpr ⟨h.buffer, Nat.lt_of_not_le hroom, h.column⟩

theorem Vga.storeHere_ends (h : vga.Placed) (entry : UInt16) :
    Ends (vga.storeHere entry) (Painted vga) := by
  have row := h.row
  have column := h.column
  exact Vga.store_ends (by omega) (by omega) entry

/-- A row that may be full: `if (vga_column >= VGA_WIDTH)` and what it guards. -/
theorem Vga.wrap_ends (hbuf : vga.buffer = true) (hrow : vga.row < 25) :
    Ends (if 80 ≤ vga.column then Vga.nextRow { vga with column := 0 } else some vga)
      Vga.Placed := by
  split
  · exact Vga.nextRow_ends ⟨hbuf, hrow, (by decide : 0 < 80)⟩
  · next hroom => exact ends_some.mpr ⟨hbuf, hrow, Nat.lt_of_not_le hroom⟩

theorem Vga.put_ends (h : vga.Placed) (c : UInt8) : Ends (vga.put c) Vga.Placed := by
  have row := h.row
  have column := h.column
  unfold Vga.put
  split
  · exact Vga.nextRow_ends ⟨h.buffer, h.row, (by decide : 0 < 80)⟩
  split
  · exact ends_some.mpr ⟨h.buffer, h.row, (by decide : 0 < 80)⟩
  split
  · -- a backspace wraps to the end of the row above, and stays where it is in the first cell
    have back : Vga.Placed
        (if 0 < vga.column then { vga with column := vga.column - 1 }
          else if 0 < vga.row then { vga with row := vga.row - 1, column := 79 } else vga) := by
      split
      · exact ⟨h.buffer, h.row, by show vga.column - 1 < 80; omega⟩
      split
      · exact ⟨h.buffer, by show vga.row - 1 < 25; omega, (by decide : 79 < 80)⟩
      · exact h
    exact (Vga.storeHere_ends back _).mono fun _ => back.painted
  split
  · -- the loop of the tab stops at the end of the row at the latest
    dsimp only
    have loop := Ends.range' (a := vga.column)
      (n := min ((vga.column + 4) / 4 * 4) 80 - vga.column)
      (f := fun (vga : Vga) _ => do
        let vga ← vga.storeHere vga.blank
        some { vga with column := vga.column + 1 })
      (I := fun i s => s.buffer = true ∧ s.row < 25 ∧ s.column = i) (s := vga) ?_
      ⟨h.buffer, h.row, rfl⟩
    · exact loop.bind fun s hs => Vga.wrap_ends hs.1 hs.2.1
    · rintro i _ hlt s ⟨hbuf, hrow, hcol⟩
      have here : s.Placed := ⟨hbuf, hrow, by omega⟩
      refine (Vga.storeHere_ends here _).bind fun t ht => ends_some.mpr ?_
      obtain ⟨memory, rfl⟩ := ht
      exact ⟨hbuf, hrow, congrArg (· + 1) hcol⟩
  split
  · refine (Vga.storeHere_ends h _).bind fun s hs => ?_
    obtain ⟨memory, rfl⟩ := hs
    refine Vga.wrap_ends ?_ ?_
    · exact h.buffer
    · exact h.row
  · exact ends_some.mpr h

theorem vgaPutchar_ends (h : vga.Within) (c : UInt8) : Ends (vgaPutchar vga c) Vga.Within := by
  rw [vgaPutchar, if_neg (not_not_intro h.buffer)]
  exact (Vga.put_ends h.toPlaced c).bind fun _ hs => ends_some.mpr hs.update

theorem vgaPuts_ends (h : vga.Within) (str : Option CString) :
    Ends (vgaPuts vga str) Vga.Within := by
  cases str with
  | none => exact ends_some.mpr h
  | some str => exact Ends.foldlM (fun c _ _ hs => vgaPutchar_ends hs c) h

/-! ## Runs -/

theorem VgaCall.run_ends (h : vga.Within) (call : VgaCall) : Ends (call.run vga) Vga.Within := by
  cases call with
  | putchar c => exact vgaPutchar_ends h c
  | puts str => exact vgaPuts_ends h str
  | clear => exact vgaClear_ends h.buffer
  | clearArea x y width height => exact (vgaClearArea_ends x y width height).mono fun _ => h.painted
  | fillArea x y width height c color =>
    exact (vgaFillArea_ends x y width height c color).mono fun _ => h.painted
  | drawBox x y width height color =>
    exact (vgaDrawBox_ends x y width height color).mono fun _ => h.painted
  | putsAt str x y => exact (vgaPutsAt_ends str x y).mono fun _ => h.painted
  | putcharAt c x y => exact (vgaPutcharAt_ends c x y).mono fun _ => h.painted
  | moveCursor x y => exact ends_some.mpr (h.moveCursor x y)
  | updateCursor x y => exact ends_some.mpr (h.updateCursor x y)
  | scrollUp lines => exact vgaScrollUp_ends h.toPlaced lines
  | scrollDown lines => exact vgaScrollDown_ends h lines
  | insertLine y => exact (vgaInsertLine_ends y).mono fun _ => h.painted
  | deleteLine y => exact (vgaDeleteLine_ends y).mono fun _ => h.painted
  | setColor fg bg => exact ends_some.mpr ⟨⟨h.buffer, h.row, h.column⟩, h.cursor⟩
  | setColorAttr fg bg attr => exact ends_some.mpr ⟨⟨h.buffer, h.row, h.column⟩, h.cursor⟩

end Placed

/-- No access was outside the text buffer, and the cursor is on the screen. -/
def VgaInBounds (vga : Option Vga) : Prop := Ends vga fun vga => vga.row < 25 ∧ vga.column < 80

/-- From `vga_initialize` on, in every state of every run, no access was outside the text buffer and
the cursor is on the screen. -/
theorem vga_state_invariant (vga : Vga) (calls : List VgaCall) :
    EveryState vgaStep VgaInBounds (vgaInitialize vga) calls := by
  refine (everyStep_true vgaStep _ calls).everyState (I := fun vga => Ends vga Vga.Within) ?_ ?_
    (vgaInitialize_ends vga)
  · intro s call h _
    exact h.bind fun _ hs => VgaCall.run_ends hs call
  · intro s h
    exact h.mono fun _ hs => ⟨hs.row, hs.column⟩

end Unics
