/-
Module: CustomKernel.Library.PaintedScreen
Layer: Library
Purpose: A screen whose cells remember the colour they were painted in. A character is painted at the
  cursor in the current colour; the screen scrolls when the cursor leaves its last row, each cell
  moving up with its colour. A cell that nothing has been painted on is not known.
Imports: Mathlib.Logic.Basic
Trusted boundary: none (fully proved)
Main exports: Screen, Screen.setColour, Screen.clear, Screen.nextRow, Screen.put, Screen.All,
  Screen.All.put, Screen.put_painted
-/
import Mathlib.Logic.Basic

namespace PaintedScreen

variable {α κ : Type*} {rows cols : Nat}

/-- A screen with its cursor and the current colour. -/
structure Screen (α κ : Type*) (rows cols : Nat) where
  row : Nat
  col : Nat
  colour : κ
  /-- The character at row `y`, column `x`, and the colour that was current when it was painted. -/
  cells : Nat → Nat → Option (α × κ)
  row_lt : row < rows
  col_lt : col < cols

namespace Screen

/-- A screen that nothing has been painted on. -/
def unknown (colour : κ) (hrows : 0 < rows) (hcols : 0 < cols) : Screen α κ rows cols where
  row := 0
  col := 0
  colour := colour
  cells := fun _ _ => none
  row_lt := hrows
  col_lt := hcols

def setColour (s : Screen α κ rows cols) (colour : κ) : Screen α κ rows cols :=
  { s with colour := colour }

/-- All cells are blank in the current colour. The cursor stays. -/
def clear (blank : α) (s : Screen α κ rows cols) : Screen α κ rows cols :=
  { s with cells := fun _ _ => some (blank, s.colour) }

/-- The cells one row further up, the last row blank. -/
def scrolled (blank : α) (colour : κ) (rows : Nat) (cells : Nat → Nat → Option (α × κ)) :
    Nat → Nat → Option (α × κ) :=
  fun y x => if y + 1 < rows then cells (y + 1) x else some (blank, colour)

/-- With these cells, the cursor goes to the start of the next row; from the last row the screen
    scrolls. -/
def nextRow (blank : α) (s : Screen α κ rows cols) (cells : Nat → Nat → Option (α × κ)) :
    Screen α κ rows cols :=
  if h : s.row + 1 < rows then
    { s with row := s.row + 1, col := 0, cells := cells, row_lt := h,
             col_lt := Nat.zero_lt_of_lt s.col_lt }
  else
    { s with col := 0, cells := scrolled blank s.colour rows cells,
             col_lt := Nat.zero_lt_of_lt s.col_lt }

/-- The cells with `c` painted at the cursor. -/
def painted (s : Screen α κ rows cols) (c : α) : Nat → Nat → Option (α × κ) :=
  fun y x => if y = s.row ∧ x = s.col then some (c, s.colour) else s.cells y x

/-- `c` is painted at the cursor, which moves on. -/
def write (blank : α) (s : Screen α κ rows cols) (c : α) : Screen α κ rows cols :=
  if h : s.col + 1 < cols then { s with col := s.col + 1, cells := s.painted c, col_lt := h }
  else s.nextRow blank (s.painted c)

/-- One character of a text whose newline is `nl`. -/
def put [DecidableEq α] (blank nl : α) (s : Screen α κ rows cols) (c : α) : Screen α κ rows cols :=
  if c = nl then s.nextRow blank s.cells else s.write blank c

variable {s : Screen α κ rows cols} {blank nl c : α} {P : α → κ → Prop}

/-! ### Every painted cell -/

/-- `P` holds of every cell that has been painted. -/
def All (P : α → κ → Prop) (cells : Nat → Nat → Option (α × κ)) : Prop :=
  ∀ y x c k, cells y x = some (c, k) → P c k

theorem All.unknown (colour : κ) (hrows : 0 < rows) (hcols : 0 < cols) :
    All P (Screen.unknown colour hrows hcols : Screen α κ rows cols).cells :=
  fun _ _ _ _ h => nomatch h

theorem All.clear (hblank : P blank s.colour) : All P (s.clear blank).cells := by
  intro y x c k h
  cases h
  exact hblank

theorem All.nextRow {cells : Nat → Nat → Option (α × κ)} (h : All P cells)
    (hblank : P blank s.colour) : All P (s.nextRow blank cells).cells := by
  intro y x c k hcell
  unfold Screen.nextRow at hcell
  split at hcell
  · exact h y x c k hcell
  · have hcell' : scrolled blank s.colour rows cells y x = some (c, k) := hcell
    unfold scrolled at hcell'
    split at hcell'
    · exact h (y + 1) x c k hcell'
    · cases hcell'
      exact hblank

theorem All.painted (h : All P s.cells) (hc : P c s.colour) : All P (s.painted c) := by
  intro y x c' k hcell
  unfold Screen.painted at hcell
  split at hcell
  · cases hcell
    exact hc
  · exact h y x c' k hcell

/-- A character keeps what holds of the blank and of the character in the current colour. -/
theorem All.put [DecidableEq α] (h : All P s.cells) (hblank : P blank s.colour)
    (hc : c ≠ nl → P c s.colour) : All P (s.put blank nl c).cells := by
  unfold Screen.put
  split
  · exact h.nextRow hblank
  · rename_i hne
    unfold Screen.write
    split
    · exact h.painted (hc hne)
    · exact (h.painted (hc hne)).nextRow hblank

/-- A character that is not a newline is on the screen in the current colour, also if the screen has
    scrolled, as long as there is a second row. -/
theorem put_painted [DecidableEq α] (hrows : 1 < rows) (hc : c ≠ nl) :
    ∃ y x, y < rows ∧ x < cols ∧ (s.put blank nl c).cells y x = some (c, s.colour) := by
  have hself : s.painted c s.row s.col = some (c, s.colour) := if_pos ⟨rfl, rfl⟩
  unfold put write
  rw [if_neg hc]
  split
  · exact ⟨s.row, s.col, s.row_lt, s.col_lt, hself⟩
  · unfold nextRow
    split
    · exact ⟨s.row, s.col, s.row_lt, s.col_lt, hself⟩
    · rename_i hlast
      have hrow := s.row_lt
      have hup : s.row - 1 + 1 = s.row := by omega
      refine ⟨s.row - 1, s.col, by omega, s.col_lt, ?_⟩
      show scrolled blank s.colour rows (s.painted c) (s.row - 1) s.col = _
      rw [scrolled, hup, if_pos hrow, hself]

end Screen

end PaintedScreen
