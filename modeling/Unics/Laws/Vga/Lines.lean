import Unics.Laws.Libc.Copies
import Unics.Laws.Vga.Invariant
import Unics.Lib.Rows

/-!
# The lines of the screen

The video memory is 25 rows of 80 cells (`Unics.Lib.Rows`). Each function here moves a block of rows
with one `memmove` and blanks the rows that it leaves (`Vga.moved`), and so moves the elements of
the list of rows. `vga_scroll_up` takes the cursor along, or to the first cell where that would
leave the screen. Once there it stays, so two scrolls come to one.
-/

namespace Unics

open Unics.Lib

/-- The rows that the screen shows. -/
def Vga.lines (vga : Vga) : List (List UInt16) := rows 80 25 vga.memory

def Vga.blankLine (vga : Vga) : List UInt16 := List.replicate 80 vga.blank

/-! ## Blanks -/

section Blanks

variable {vga : Vga}

/-- A loop that stores blanks. -/
theorem Vga.blanks_eq {α : Type} {place : α → Int} {l : List α}
    (h : ∀ a ∈ l, 0 ≤ place a ∧ place a < 2000) :
    l.foldlM (fun vga a => vga.store (place a) vga.blank) vga =
      some { vga with
        memory := fun k => if (k : Int) ∈ l.map place then vga.blank else vga.memory k } := by
  induction l generalizing vga with
  | nil => rfl
  | cons a l ih =>
    have first := h a List.mem_cons_self
    rw [List.foldlM_cons, Vga.store, if_pos first]
    refine (ih fun b hb => h b (List.mem_cons_of_mem a hb)).trans (congrArg some ?_)
    have memory : (fun k : Nat => if (k : Int) ∈ l.map place then vga.blank
          else Function.update vga.memory (place a).toNat vga.blank k) =
        fun k : Nat => if (k : Int) ∈ (a :: l).map place then vga.blank else vga.memory k := by
      funext k
      rw [List.map_cons]
      by_cases hk : (k : Int) ∈ l.map place
      · rw [if_pos hk, if_pos (List.mem_cons_of_mem _ hk)]
      rw [if_neg hk]
      by_cases here : k = (place a).toNat
      · have mem : (k : Int) ∈ place a :: l.map place := List.mem_cons.mpr (.inl (by omega))
        rw [if_pos mem, here, Function.update_self]
      · have notMem : (k : Int) ∉ place a :: l.map place := fun mem =>
          (List.mem_cons.mp mem).elim (fun h => here (by omega)) hk
        rw [if_neg notMem, Function.update_of_ne here]
    exact congrArg (fun memory => { vga with memory := memory }) memory

theorem Vga.clearLine_eq {line : Int} (h₀ : 0 ≤ line) (h : line < 25) :
    vga.clearLine line = some { vga with
      memory := fun k =>
        if line * 80 ≤ k ∧ k < line * 80 + 80 then vga.blank else vga.memory k } := by
  rw [Vga.clearLine, Vga.blanks_eq]
  · refine congrArg (fun memory => some { vga with memory := memory }) (funext fun k => ?_)
    refine if_congr ?_ rfl rfl
    rw [List.mem_map]
    constructor
    · rintro ⟨col, hcol, hk⟩
      have := mem_upTo.mp hcol
      omega
    · intro hk
      exact ⟨k - line * 80, mem_upTo.mpr (by omega), by omega⟩
  · intro col hcol
    have := mem_upTo.mp hcol
    omega

theorem vgaClear_eq (hbuf : vga.buffer = true) :
    vgaClear vga = some { vga with
      row := 0
      column := 0
      cursor := 0
      memory := fun k => if k < 2000 then vga.blank else vga.memory k } := by
  have origin : vgaBoundsCheck 0 0 := by decide
  have loop : (upTo 0 2000).foldlM (fun vga i => vga.store i vga.blank) vga =
      some { vga with memory := fun k => if k < 2000 then vga.blank else vga.memory k } := by
    refine (Vga.blanks_eq fun i hi => mem_upTo.mp hi).trans ?_
    refine congrArg (fun memory => some { vga with memory := memory }) (funext fun k => ?_)
    have within : (k : Int) ∈ (upTo 0 2000).map (fun i => i) ↔ k < 2000 := by
      rw [List.map_id', mem_upTo]
      omega
    exact if_congr within rfl rfl
  rw [vgaClear, if_neg (not_not_intro hbuf), loop, Option.bind_eq_bind, Option.bind_some]
  rw [vgaUpdateCursor_of_bounds ?_ origin]
  · rfl
  · exact hbuf

end Blanks

/-! ## A block of rows -/

/-- The memory after `n` rows from `s` on went to `d` and `b` rows from `a` on were blanked. -/
def Vga.moved (vga : Vga) (d s n a b : ℕ) : ℕ → UInt16 := fun k =>
  if a * 80 ≤ k ∧ k < (a + b) * 80 then vga.blank
  else if d * 80 ≤ k ∧ k < (d + n) * 80 then vga.memory (k - d * 80 + s * 80)
  else vga.memory k

/-- The bytes of cells, the lower one of each first. -/
def cellBytes (memory : ℕ → UInt16) : Buffer := fun i =>
  if i % 2 = 0 then (memory (i / 2)).toUInt8 else (memory (i / 2) >>> 8).toUInt8

section Blocks

variable {vga : Vga} {d s n a b : ℕ} {dest src size : Int}

/-- No rows are blanked. -/
theorem Vga.moved_only (k : ℕ) :
    vga.moved d s n 0 0 k =
      if d * 80 ≤ k ∧ k < (d + n) * 80 then vga.memory (k - d * 80 + s * 80) else vga.memory k :=
  if_neg (by omega)

/-- No rows are moved. -/
theorem Vga.blanked_only (k : ℕ) :
    vga.moved 0 0 0 a b k = if a * 80 ≤ k ∧ k < (a + b) * 80 then vga.blank else vga.memory k := by
  have nowhere : ¬ (0 * 80 ≤ k ∧ k < (0 + 0) * 80) := by omega
  rw [Vga.moved, if_neg nowhere]

theorem Vga.memmove_eq (hdest : dest = 80 * d) (hsrc : src = 80 * s) (hsize : size = 80 * n)
    (hd : d + n ≤ 25) (hs : s + n ≤ 25) :
    vga.memmove dest src size = some { vga with memory := vga.moved d s n 0 0 } := by
  rw [Vga.memmove, if_pos (by omega)]
  refine congrArg (fun memory => some { vga with memory := memory }) (funext fun k => ?_)
  rw [Vga.moved_only]
  by_cases inside : d * 80 ≤ k ∧ k < (d + n) * 80
  · have place : ((k : Int) - dest + src).toNat = k - d * 80 + s * 80 := by omega
    rw [if_pos inside, if_pos (by omega), place]
  · rw [if_neg inside, if_neg (by omega)]

/-- It is `memmove` on the bytes. -/
theorem Vga.memmove_bytes (hd : d + n ≤ 25) (hs : s + n ≤ 25) :
    Unics.memmove 4000 (cellBytes vga.memory) (160 * d) (160 * s) (160 * n) =
      some (cellBytes (vga.moved d s n 0 0)) := by
  rw [Unics.memmove_eq _ (by omega) (by omega)]
  refine congrArg some (funext fun i => ?_)
  have cell : vga.moved d s n 0 0 (i / 2) =
      vga.memory (if 160 * d ≤ i ∧ i < 160 * d + 160 * n then (160 * s + (i - 160 * d)) / 2
        else i / 2) := by
    rw [Vga.moved_only]
    by_cases inside : 160 * d ≤ i ∧ i < 160 * d + 160 * n
    · rw [if_pos inside, if_pos (by omega)]
      congr 1
      omega
    · rw [if_neg inside, if_neg (by omega)]
  rw [cellBytes, cell]
  by_cases inside : 160 * d ≤ i ∧ i < 160 * d + 160 * n
  · have parity : (160 * s + (i - 160 * d)) % 2 = i % 2 := by omega
    rw [paste_inside inside.1 inside.2, cellBytes, parity, if_pos inside]
  · rw [paste_outside (by omega), cellBytes, if_neg inside]

/-- Blanks in some lines. -/
theorem Vga.clearLines_eq {start stop : Int} (hstart : start = a) (hstop : stop = a + b)
    (h : a + b ≤ 25) :
    (upTo start stop).foldlM Vga.clearLine vga =
      some { vga with memory := vga.moved 0 0 0 a b } := by
  have count : (stop - start).toNat = b := by omega
  rw [upTo, count, hstart]
  clear count hstop
  induction b with
  | zero =>
    refine congrArg (fun memory => some { vga with memory := memory }) (funext fun k => ?_)
    rw [Vga.blanked_only, if_neg (by omega)]
  | succ b ih =>
    rw [List.range_succ, List.map_append, List.foldlM_append, ih (by omega)]
    rw [Option.bind_eq_bind, Option.bind_some, List.map_singleton, List.foldlM_cons,
      Vga.clearLine_eq (by omega) (by omega)]
    refine congrArg (fun memory => some { vga with memory := memory }) (funext fun k => ?_)
    rw [Vga.blanked_only]
    dsimp only
    rw [Vga.blanked_only]
    by_cases last : (a + b) * 80 ≤ k ∧ k < (a + (b + 1)) * 80
    · rw [if_pos (by omega), if_pos (by omega)]
      rfl
    · rw [if_neg (by omega)]
      exact if_congr (by omega) rfl rfl

/-- A block moved, and then the rows that it left. -/
theorem Vga.moved_moved :
    Vga.moved { vga with memory := vga.moved d s n 0 0 } 0 0 0 a b = vga.moved d s n a b := by
  funext k
  rw [Vga.blanked_only]
  dsimp only
  rw [Vga.moved_only, Vga.moved]
  rfl

/-- A row of the memory after a move. -/
theorem Vga.rowAt_moved (r : ℕ) :
    rowAt 80 (vga.moved d s n a b) r =
      if a ≤ r ∧ r < a + b then vga.blankLine
      else if d ≤ r ∧ r < d + n then rowAt 80 vga.memory (r - d + s)
      else rowAt 80 vga.memory r := by
  by_cases blanked : a ≤ r ∧ r < a + b
  · rw [if_pos blanked]
    exact rowAt_const fun c hc => if_pos (by omega)
  rw [if_neg blanked]
  by_cases inside : d ≤ r ∧ r < d + n
  · rw [if_pos inside]
    refine rowAt_congr fun c hc => ?_
    rw [Vga.moved, if_neg (by omega), if_pos (by omega)]
    congr 1
    omega
  · rw [if_neg inside]
    refine rowAt_congr fun c hc => ?_
    rw [Vga.moved, if_neg (by omega), if_neg (by omega)]

end Blocks

/-! ## Up -/

/-- The check at the head of each function, on an initialized driver. -/
theorem Vga.not_idle {vga : Vga} (hbuf : vga.buffer = true) {p : Prop} (hp : ¬ p) :
    ¬ (¬ vga.buffer = true ∨ p) :=
  not_or.mpr ⟨not_not_intro hbuf, hp⟩

theorem Vga.length_lines (vga : Vga) : vga.lines.length = 25 := length_rows

/-- The memory after `vga_scroll_up`. -/
def Vga.shifted (vga : Vga) (n : ℕ) : ℕ → UInt16 := fun k =>
  if k < 2000 then (if k + n * 80 < 2000 then vga.memory (k + n * 80) else vga.blank)
  else vga.memory k

/-- The screen and the cursors after `vga_scroll_up`. -/
def Vga.scrolledUp (vga : Vga) (n : ℕ) : Vga :=
  let row := if n ≤ vga.row then vga.row - n else 0
  let column := if n ≤ vga.row then vga.column else 0
  { vga with
    row := row
    column := column
    cursor := UInt16.ofNat (row * 80 + column)
    memory := vga.shifted n }

section Up

variable {vga : Vga} {n : ℕ}

theorem Vga.shifted_zero : vga.shifted 0 = vga.memory := by
  funext k
  unfold Vga.shifted
  split
  · next shown => exact if_pos (by omega)
  · rfl

/-- None of the lines stays. -/
theorem Vga.shifted_all (h : 25 ≤ n) :
    vga.shifted n = fun k => if k < 2000 then vga.blank else vga.memory k :=
  funext fun _ => if_congr Iff.rfl (if_neg (by omega)) rfl

theorem Vga.moved_up (h : n < 25) : vga.moved 0 n (25 - n) (25 - n) n = vga.shifted n := by
  funext k
  unfold Vga.moved Vga.shifted
  by_cases shown : k < 2000
  · rw [if_pos shown]
    by_cases stays : k + n * 80 < 2000
    · rw [if_pos stays, if_neg (by omega), if_pos (by omega)]
      congr 1
    · rw [if_neg stays, if_pos (by omega)]
  · rw [if_neg shown, if_neg (by omega), if_neg (by omega)]

/-- The last thing that the scrolls do. -/
theorem Vga.Placed.updateCursor_eq (h : vga.Placed) :
    vgaUpdateCursor vga vga.column vga.row =
      { vga with cursor := UInt16.ofNat (vga.row * 80 + vga.column) } := by
  have row := h.row
  have column := h.column
  have place : ((vga.row : Int) * 80 + vga.column).toNat = vga.row * 80 + vga.column := by omega
  rw [vgaUpdateCursor_of_bounds h.buffer (vgaBoundsCheck_iff.mpr (by omega)), place]
  rfl

/-- The lines that stay are moved and the others are blanked. -/
theorem vgaScrollInternal_eq (hbuf : vga.buffer = true) (hpos : 0 < n) (hn : n < 25) :
    vgaScrollInternal vga n = some { vga with
      row := if n ≤ vga.row then vga.row - n else 0
      column := if n ≤ vga.row then vga.column else 0
      memory := vga.shifted n } := by
  rw [vgaScrollInternal, if_neg (Vga.not_idle hbuf (by omega)), if_neg (by omega),
    Vga.memmove_eq (d := 0) (s := n) (n := 25 - n) (by omega) rfl (by omega) (by omega) (by omega),
    Option.bind_eq_bind, Option.bind_some,
    Vga.clearLines_eq (a := 25 - n) (b := n) (by omega) (by omega) (by omega),
    Option.bind_some, Vga.moved_moved, Vga.moved_up hn]
  by_cases stay : n ≤ vga.row
  · have stays : (n : Int) ≤ vga.row := by omega
    rw [if_pos stays, if_pos stay, if_pos stay, Int.toNat_natCast]
  · have leaves : ¬ (n : Int) ≤ vga.row := by omega
    rw [if_neg leaves, if_neg stay, if_neg stay]

theorem Vga.scrolledUp_placed (h : vga.Placed) : (vga.scrolledUp n).Placed := by
  have row := h.row
  have column := h.column
  refine ⟨h.buffer, ?_, ?_⟩
  · show (if n ≤ vga.row then vga.row - n else 0) < 25
    split <;> omega
  · show (if n ≤ vga.row then vga.column else 0) < 80
    split <;> omega

theorem vgaScrollUp_eq (h : vga.Placed) (lines : Int) :
    vgaScrollUp vga lines = some (vga.scrolledUp lines.toNat) := by
  have row := h.row
  have column := h.column
  unfold vgaScrollUp Vga.scrolledUp
  by_cases stays : lines ≤ 0
  · have none : lines.toNat = 0 := by omega
    rw [vgaScrollInternal, if_pos (.inr stays), Option.bind_eq_bind, Option.bind_some,
      h.updateCursor_eq, none, Vga.shifted_zero, if_pos (Nat.zero_le _), if_pos (Nat.zero_le _)]
    rfl
  obtain ⟨n, rfl⟩ := Int.eq_ofNat_of_zero_le (show 0 ≤ lines by omega)
  rw [Int.toNat_natCast]
  by_cases all : 25 ≤ n
  · have leaves : ¬ n ≤ vga.row := by omega
    rw [vgaScrollInternal, if_neg (Vga.not_idle h.buffer (by omega)), if_pos (by omega),
      vgaClear_eq h.buffer, Option.bind_eq_bind, Option.bind_some, Vga.shifted_all all,
      if_neg leaves, if_neg leaves]
    refine congrArg some (Vga.Placed.updateCursor_eq ?_)
    exact ⟨h.buffer, (by decide : 0 < 25), (by decide : 0 < 80)⟩
  · rw [vgaScrollInternal_eq h.buffer (by omega) (by omega), Option.bind_eq_bind, Option.bind_some]
    have placed : (vga.scrolledUp n).Placed := Vga.scrolledUp_placed h
    exact congrArg some (Vga.Placed.updateCursor_eq ⟨h.buffer, placed.row, placed.column⟩)

theorem Vga.scrolledUp_lines : (vga.scrolledUp n).lines = shiftUp n vga.blankLine vga.lines := by
  refine rows_eq_shiftUp (fun r hr => rowAt_congr fun c hc => ?_)
    fun r hr hn => rowAt_const fun c hc => ?_
  · show (if r * 80 + c < 2000 then _ else _) = _
    rw [if_pos (by omega), if_pos (by omega)]
    congr 1
    omega
  · show (if r * 80 + c < 2000 then _ else _) = _
    rw [if_pos (by omega), if_neg (by omega)]

/-- The cursor that is in the first cell stays there, and what is blank remains so. -/
theorem Vga.scrolledUp_scrolledUp (a b : ℕ) :
    (vga.scrolledUp a).scrolledUp b = vga.scrolledUp (a + b) := by
  have memory : (vga.scrolledUp a).shifted b = vga.shifted (a + b) := by
    funext k
    show (if k < 2000 then (if k + b * 80 < 2000 then vga.shifted a (k + b * 80) else vga.blank)
      else vga.shifted a k) = vga.shifted (a + b) k
    unfold Vga.shifted
    by_cases shown : k < 2000
    · rw [if_pos shown, if_pos shown]
      by_cases stays : k + b * 80 < 2000
      · rw [if_pos stays, if_pos stays, show k + b * 80 + a * 80 = k + (a + b) * 80 by omega]
      · rw [if_neg stays, if_neg (by omega)]
    · rw [if_neg shown, if_neg shown, if_neg shown]
  have row : ((vga.scrolledUp a).scrolledUp b).row = (vga.scrolledUp (a + b)).row := by
    show (if b ≤ (if a ≤ vga.row then vga.row - a else 0)
      then (if a ≤ vga.row then vga.row - a else 0) - b else 0) =
      if a + b ≤ vga.row then vga.row - (a + b) else 0
    split_ifs <;> omega
  have column : ((vga.scrolledUp a).scrolledUp b).column = (vga.scrolledUp (a + b)).column := by
    show (if b ≤ (if a ≤ vga.row then vga.row - a else 0)
      then (if a ≤ vga.row then vga.column else 0) else 0) =
      if a + b ≤ vga.row then vga.column else 0
    split_ifs <;> omega
  show { vga with
    row := ((vga.scrolledUp a).scrolledUp b).row
    column := ((vga.scrolledUp a).scrolledUp b).column
    cursor := UInt16.ofNat (((vga.scrolledUp a).scrolledUp b).row * 80 +
      ((vga.scrolledUp a).scrolledUp b).column)
    memory := (vga.scrolledUp a).shifted b } = vga.scrolledUp (a + b)
  rw [row, column, memory]
  rfl

end Up

/-! ## The other operations -/

section Others

variable {vga : Vga}

theorem vgaUpdateCursor_lines (x y : Int) : (vgaUpdateCursor vga x y).lines = vga.lines := by
  unfold vgaUpdateCursor
  split
  · rfl
  split <;> rfl

theorem vgaScrollDown_lines (hbuf : vga.buffer = true) (n : Int) :
    Ends (vgaScrollDown vga n) (·.lines = shiftDown n.toNat vga.blankLine vga.lines) := by
  unfold vgaScrollDown
  by_cases stays : n ≤ 0
  · have none : n.toNat = 0 := by omega
    rw [if_pos (.inr stays), none, ends_some]
    exact rows_eq_shiftDown (fun r _ hr => absurd hr (Nat.not_lt_zero r)) fun r _ _ => rfl
  rw [if_neg (Vga.not_idle hbuf stays)]
  obtain ⟨n, rfl⟩ := Int.eq_ofNat_of_zero_le (show 0 ≤ n by omega)
  rw [Int.toNat_natCast]
  by_cases all : 25 ≤ n
  · rw [if_pos (by omega), vgaClear_eq hbuf, ends_some]
    refine rows_eq_shiftDown (fun r hr _ => rowAt_const fun c hc => if_pos (by omega)) ?_
    intro r hr hn
    omega
  · rw [if_neg (by omega),
      Vga.memmove_eq (d := n) (s := 0) (n := 25 - n) rfl (by omega) (by omega) (by omega)
        (by omega),
      Option.bind_eq_bind, Option.bind_some,
      Vga.clearLines_eq (a := 0) (b := n) (by omega) (by omega) (by omega), Option.bind_some,
      Vga.moved_moved, ends_some, vgaUpdateCursor_lines]
    refine rows_eq_shiftDown (fun r hr hn => ?_) fun r hr hn => ?_
    · exact (Vga.rowAt_moved r).trans (if_pos (by omega))
    · refine (Vga.rowAt_moved r).trans ?_
      rw [if_neg (by omega), if_pos (by omega)]
      rfl

/-- The rows below `y` move by one, up or down. -/
theorem Vga.moveLines_eq {d s y : ℕ} (hd : d ≤ y + 1) (hs : s ≤ y + 1) (hy : y < 25)
    {dest src : Int} (hdest : dest = d) (hsrc : src = s) :
    (if (y : Int) < 24 then vga.memmove (dest * 80) (src * 80) (80 * (25 - y - 1))
      else some vga) = some { vga with memory := vga.moved d s (24 - y) 0 0 } := by
  by_cases last : y < 24
  · rw [if_pos (by omega)]
    exact Vga.memmove_eq (by omega) (by omega) (by omega) (by omega) (by omega)
  · have none : 24 - y = 0 := by omega
    rw [if_neg (by omega), none]
    refine congrArg (fun memory => some { vga with memory := memory }) (funext fun k => ?_)
    rw [Vga.moved_only, if_neg (by omega)]

theorem Vga.clearLine_moved {a : ℕ} (h : a < 25) {line : Int} (hline : line = a) :
    vga.clearLine line = some { vga with memory := vga.moved 0 0 0 a 1 } := by
  rw [Vga.clearLine_eq (by omega) (by omega)]
  refine congrArg (fun memory => some { vga with memory := memory }) (funext fun k => ?_)
  rw [Vga.blanked_only]
  exact if_congr (by omega) rfl rfl

theorem vgaDeleteLine_lines (hbuf : vga.buffer = true) (y : Int) :
    Ends (vgaDeleteLine vga y)
      (·.lines = if 0 ≤ y then deleteRow y.toNat vga.blankLine vga.lines else vga.lines) := by
  unfold vgaDeleteLine
  by_cases within : 0 ≤ y ∧ y < 25
  · rw [if_neg (Vga.not_idle hbuf (by omega)), if_pos within.1]
    obtain ⟨y, rfl⟩ := Int.eq_ofNat_of_zero_le within.1
    rw [Vga.moveLines_eq (d := y) (s := y + 1) (y := y) (by omega) (by omega) (by omega) (by omega)
        (by omega),
      Option.bind_eq_bind, Option.bind_some, Vga.clearLine_moved (a := 24) (by omega) (by omega),
      Vga.moved_moved, ends_some, Int.toNat_natCast]
    refine rows_eq_deleteRow (by omega) (fun r hr => ?_) (fun r hr hlt => ?_) fun r hr => ?_
    · refine (Vga.rowAt_moved r).trans ?_
      rw [if_neg (by omega), if_neg (by omega)]
    · refine (Vga.rowAt_moved r).trans ?_
      rw [if_neg (by omega), if_pos (by omega)]
      congr 1
      omega
    · exact (Vga.rowAt_moved r).trans (if_pos (by omega))
  · rw [if_pos (.inr (by omega)), ends_some]
    split
    · have outside : vga.lines.length ≤ y.toNat := by
        rw [vga.length_lines]
        omega
      exact (deleteRow_of_le outside).symm
    · rfl

theorem vgaInsertLine_lines (hbuf : vga.buffer = true) (y : Int) :
    Ends (vgaInsertLine vga y)
      (·.lines = if 0 ≤ y then insertRow y.toNat vga.blankLine vga.lines else vga.lines) := by
  unfold vgaInsertLine
  by_cases within : 0 ≤ y ∧ y < 25
  · rw [if_neg (Vga.not_idle hbuf (by omega)), if_pos within.1]
    obtain ⟨y, rfl⟩ := Int.eq_ofNat_of_zero_le within.1
    rw [Vga.moveLines_eq (d := y + 1) (s := y) (y := y) (by omega) (by omega) (by omega) (by omega)
        (by omega),
      Option.bind_eq_bind, Option.bind_some, Vga.clearLine_moved (a := y) (by omega) rfl,
      Vga.moved_moved, ends_some, Int.toNat_natCast]
    refine rows_eq_insertRow (by omega) (fun r hr => ?_) ?_ fun r hr hlt => ?_
    · refine (Vga.rowAt_moved r).trans ?_
      rw [if_neg (by omega), if_neg (by omega)]
    · exact (Vga.rowAt_moved y).trans (if_pos (by omega))
    · refine (Vga.rowAt_moved r).trans ?_
      rw [if_neg (by omega), if_pos (by omega)]
      congr 1
      omega
  · rw [if_pos (.inr (by omega)), ends_some]
    split
    · have outside : vga.lines.length ≤ y.toNat := by
        rw [vga.length_lines]
        omega
      exact (insertRow_of_le outside).symm
    · rfl

end Others

/-- The scrolls, the insertion and the deletion of a line are the list operations on the rows of the
screen, and two scrolls up come to one, cursor included. -/
theorem vga_lines_spec {vga : Vga} (h : vga.Placed) :
    (∀ n, Ends (vgaScrollUp vga n) (·.lines = shiftUp n.toNat vga.blankLine vga.lines)) ∧
    (∀ n, Ends (vgaScrollDown vga n) (·.lines = shiftDown n.toNat vga.blankLine vga.lines)) ∧
    (∀ y, Ends (vgaInsertLine vga y)
      (·.lines = if 0 ≤ y then insertRow y.toNat vga.blankLine vga.lines else vga.lines)) ∧
    (∀ y, Ends (vgaDeleteLine vga y)
      (·.lines = if 0 ≤ y then deleteRow y.toNat vga.blankLine vga.lines else vga.lines)) ∧
    ∀ a b, 1 ≤ a → 1 ≤ b →
      (vgaScrollUp vga a >>= fun vga => vgaScrollUp vga b) = vgaScrollUp vga (a + b) := by
  refine ⟨fun n => ?_, vgaScrollDown_lines h.buffer, vgaInsertLine_lines h.buffer,
    vgaDeleteLine_lines h.buffer, fun a b ha hb => ?_⟩
  · rw [vgaScrollUp_eq h]
    exact ends_some.mpr Vga.scrolledUp_lines
  · have sum : (a + b).toNat = a.toNat + b.toNat := by omega
    rw [vgaScrollUp_eq h, vgaScrollUp_eq h, Option.bind_eq_bind, Option.bind_some,
      vgaScrollUp_eq (Vga.scrolledUp_placed h), Vga.scrolledUp_scrolledUp, sum]

/-- From the fourth row, one line and then two. -/
theorem vga_lines_spec_three :
    (vgaScrollUp ⟨3, 7, vgaColorDefault, true, fun _ => 0, 0⟩ 1 >>= fun vga =>
        vgaScrollUp vga 2) =
      vgaScrollUp ⟨3, 7, vgaColorDefault, true, fun _ => 0, 0⟩ (1 + 2) :=
  (vga_lines_spec ⟨rfl, by decide, by decide⟩).2.2.2.2 1 2 (by decide) (by decide)

end Unics
