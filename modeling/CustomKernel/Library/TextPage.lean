/-
Module: CustomKernel.Library.TextPage
Layer: Library
Purpose: Text laid out on a page of `cols` columns and no last row: a character goes to the cursor and
  moves it on, a newline moves it to the start of the next row. Everything from the cursor on is blank.
  A screen of `rows` rows shows the window of the page that ends at the cursor row, or the first rows.
Imports: Mathlib.Order.Basic
Trusted boundary: none (fully proved)
Main exports: Page, Page.newline, Page.write, Page.put, Page.put_row, Page.layout, windowTop,
  windowTop_spec, windowTop_succ_inside, windowTop_succ_outside
-/
import Mathlib.Order.Basic

namespace TextPage

variable {α : Type*} {blank : α} {cols : Nat}

/-- A page with its cursor. -/
structure Page (α : Type*) (blank : α) (cols : Nat) where
  row : Nat
  col : Nat
  /-- The character at row `y`, column `x`. -/
  chars : Nat → Nat → α
  col_lt : col < cols
  /-- Nothing has been written at the cursor or behind it. -/
  ahead : ∀ y x, row < y ∨ (row = y ∧ col ≤ x) → chars y x = blank

namespace Page

/-- The page of blanks, with the cursor in its first corner. -/
def empty (hcols : 0 < cols) : Page α blank cols where
  row := 0
  col := 0
  chars := fun _ _ => blank
  col_lt := hcols
  ahead := fun _ _ _ => rfl

/-- The cursor moves to the start of the next row. -/
def newline (p : Page α blank cols) : Page α blank cols where
  row := p.row + 1
  col := 0
  chars := p.chars
  col_lt := Nat.zero_lt_of_lt p.col_lt
  ahead := fun y x h => p.ahead y x (by omega)

/-- The characters with `c` at the cursor. -/
def written (p : Page α blank cols) (c : α) : Nat → Nat → α :=
  fun y x => if y = p.row ∧ x = p.col then c else p.chars y x

theorem written_ahead (p : Page α blank cols) (c : α) {y x : Nat}
    (h : p.row < y ∨ (p.row = y ∧ p.col < x)) : p.written c y x = blank := by
  rw [written, if_neg (by omega)]
  exact p.ahead y x (by omega)

/-- `c` goes to the cursor, and the cursor to the next column, or to the next row if that was the last
    one. -/
def write (p : Page α blank cols) (c : α) : Page α blank cols :=
  if h : p.col + 1 < cols then
    { row := p.row, col := p.col + 1, chars := p.written c, col_lt := h,
      ahead := fun _ _ hyx => p.written_ahead c (by omega) }
  else
    { row := p.row + 1, col := 0, chars := p.written c, col_lt := Nat.zero_lt_of_lt p.col_lt,
      ahead := fun _ _ hyx => p.written_ahead c (by omega) }

@[simp] theorem newline_row (p : Page α blank cols) : p.newline.row = p.row + 1 := rfl
@[simp] theorem newline_col (p : Page α blank cols) : p.newline.col = 0 := rfl
@[simp] theorem newline_chars (p : Page α blank cols) : p.newline.chars = p.chars := rfl

@[simp] theorem write_chars (p : Page α blank cols) (c : α) : (p.write c).chars = p.written c := by
  unfold write
  split <;> rfl

theorem write_inner (p : Page α blank cols) (c : α) (h : p.col + 1 < cols) :
    (p.write c).row = p.row ∧ (p.write c).col = p.col + 1 := by
  rw [write, dif_pos h]
  exact ⟨rfl, rfl⟩

theorem write_last (p : Page α blank cols) (c : α) (h : ¬p.col + 1 < cols) :
    (p.write c).row = p.row + 1 ∧ (p.write c).col = 0 := by
  rw [write, dif_neg h]
  exact ⟨rfl, rfl⟩

section Put

variable [DecidableEq α] (nl : α)

/-- One character of a text whose newline is `nl`. -/
def put (p : Page α blank cols) (c : α) : Page α blank cols :=
  if c = nl then p.newline else p.write c

theorem put_newline (p : Page α blank cols) : p.put nl nl = p.newline := if_pos rfl

theorem put_write (p : Page α blank cols) {c : α} (hc : c ≠ nl) : p.put nl c = p.write c :=
  if_neg hc

/-- A character leaves the cursor in its row or moves it to the start of the next one. -/
theorem put_row (p : Page α blank cols) (c : α) :
    (p.put nl c).row = p.row ∨ ((p.put nl c).row = p.row + 1 ∧ (p.put nl c).col = 0) := by
  by_cases hc : c = nl
  · rw [hc, put_newline]
    exact .inr ⟨rfl, rfl⟩
  · rw [put_write nl p hc]
    by_cases h : p.col + 1 < cols
    · exact .inl (p.write_inner c h).1
    · exact .inr (p.write_last c h)

/-- The text on an empty page. -/
def layout (hcols : 0 < cols) (text : List α) : Page α blank cols :=
  text.foldl (put nl) (empty hcols)

end Put

end Page

/-- The first row that a screen of `rows` rows shows when the cursor stands in row `row`. -/
def windowTop (rows row : Nat) : Nat :=
  if row < rows then 0 else row + 1 - rows

theorem windowTop_eq (rows row : Nat) : windowTop rows row = row + 1 - rows := by
  unfold windowTop
  split <;> omega

/-- The cursor row is in the window. -/
theorem windowTop_spec {rows : Nat} (hrows : 0 < rows) (row : Nat) :
    windowTop rows row ≤ row ∧ row < windowTop rows row + rows := by
  rw [windowTop_eq]
  omega

/-- The window stays while the next row is in it. -/
theorem windowTop_succ_inside {rows row : Nat} (h : row + 1 < windowTop rows row + rows) :
    windowTop rows (row + 1) = windowTop rows row := by
  simp only [windowTop_eq] at *
  omega

/-- It moves on by one row when the next row is not. -/
theorem windowTop_succ_outside {rows row : Nat}
    (h : ¬row + 1 < windowTop rows row + rows) :
    windowTop rows (row + 1) = windowTop rows row + 1 ∧ row + 1 = windowTop rows row + rows := by
  simp only [windowTop_eq] at *
  omega

end TextPage
