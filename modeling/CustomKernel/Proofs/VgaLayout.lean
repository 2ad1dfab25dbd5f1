/-
Module: CustomKernel.Proofs.VgaLayout
Layer: Proofs
Purpose: What the text screen shows. The loops of the driver are described cell by cell; a screen then
  shows a window of the page on which the same text has been laid out, and each character keeps this:
  the window stays or moves on by one row. The runs of calls follow by induction.
Imports: CustomKernel.Drivers.Vga, CustomKernel.Library.TextPage, Mathlib.Tactic.Common
Trusted boundary: none (fully proved)
Main exports: VgaCall, VgaCall.run, VgaCall.text, vgaClear_spec, vgaScroll_spec, ShowsFrom, Shows,
  Shows.vgaPutchar, vga_text_layout
-/
import CustomKernel.Drivers.Vga
import CustomKernel.Library.TextPage
import Mathlib.Tactic.Common

namespace CustomKernel

open Loops TextPage

/-- The character byte at row `y`, column `x` of the screen. -/
def Vga.charAt (vga : Vga) (y x : Nat) : BitVec 8 := (vga.cells (y * 80 + x)).setWidth 8

/-- All writes have gone to the 25 × 80 cells of the buffer. -/
def Vga.InBuffer (vga : Vga) : Prop := ∀ i ∈ vga.stores, 0 ≤ i ∧ i < 2000

theorem vgaEntry_char (c colour : BitVec 8) : (vgaEntry c colour).setWidth 8 = c := by
  refine BitVec.eq_of_getLsbD_eq fun i hi => ?_
  simp only [vgaEntry, BitVec.getLsbD_setWidth, BitVec.getLsbD_or, BitVec.getLsbD_signExtend,
    BitVec.getLsbD_shiftLeft]
  simp [hi]
  omega

/-! ### The loops -/

/-- `vga'` is `vga` after writes to the cells alone, all of them in the buffer. -/
structure Vga.Drawn (vga vga' : Vga) : Prop where
  cursorX : vga'.cursorX = vga.cursorX
  cursorY : vga'.cursorY = vga.cursorY
  colour : vga'.currentColour = vga.currentColour
  inBuffer : vga.InBuffer → vga'.InBuffer

theorem Vga.Drawn.refl (vga : Vga) : vga.Drawn vga := ⟨rfl, rfl, rfl, id⟩

theorem Vga.InBuffer.store {vga : Vga} (h : vga.InBuffer) {i : Int} (entry : BitVec 16)
    (hi : 0 ≤ i ∧ i < 2000) : (vga.store i entry).InBuffer :=
  List.forall_mem_cons.2 ⟨hi, h⟩

theorem Vga.Drawn.store {vga vga' : Vga} (h : vga.Drawn vga') {i : Int} (entry : BitVec 16)
    (hi : 0 ≤ i ∧ i < 2000) : vga.Drawn (vga'.store i entry) :=
  ⟨h.cursorX, h.cursorY, h.colour, fun hin => (h.inBuffer hin).store entry hi⟩

/-- A loop that blanks the cells from `lo` up to `hi`. -/
theorem blank_loop (vga : Vga) {lo hi : Int} {count : Nat} {index : Nat → Int}
    (hindex : ∀ i, index i = lo + i) (hcount : lo + count = hi) (hlo : 0 ≤ lo) (hhi : hi ≤ 2000) :
    let vga' := forRange 0 count
      (fun i vga => vga.store (index i) (vgaEntry 0x20 vga.currentColour)) vga
    vga.Drawn vga' ∧ ∀ i, vga'.cells i =
      if lo ≤ i ∧ i < hi then vgaEntry 0x20 vga.currentColour else vga.cells i := by
  rw [← hcount] at hhi ⊢
  refine forRange_invariant (fun n vga' => vga.Drawn vga' ∧ ∀ i, vga'.cells i =
    if lo ≤ i ∧ i < lo + n then vgaEntry 0x20 vga.currentColour else vga.cells i)
    (Nat.zero_le count) ⟨.refl vga, fun i => by rw [if_neg (by omega)]⟩ ?_
  intro n vga' _ hn ⟨hdrawn, hcells⟩
  refine ⟨hdrawn.store _ (by rw [hindex]; omega), fun i => ?_⟩
  show (if i = index n then vgaEntry 0x20 vga'.currentColour else vga'.cells i) = _
  rw [hindex, hdrawn.colour, hcells]
  split_ifs <;> first | rfl | omega

theorem vgaClear_spec (vga : Vga) :
    vga.Drawn (vgaClear vga) ∧ ∀ i, (vgaClear vga).cells i =
      if 0 ≤ i ∧ i < 2000 then vgaEntry 0x20 vga.currentColour else vga.cells i := by
  unfold vgaClear
  exact blank_loop vga (fun i => (Int.zero_add i).symm) rfl (Int.le_refl 0) (Int.le_refl _)

/-- The cells of `vga'` below `n` are those of `vga` one row further on, the others those of `vga`. -/
def Vga.ShiftedTo (vga vga' : Vga) (n : Int) : Prop :=
  ∀ i, vga'.cells i = if 0 ≤ i ∧ i < n then vga.cells (i + 80) else vga.cells i

/-- One copy of the shift: the cell read has not been overwritten yet. -/
theorem Vga.ShiftedTo.step {vga vga' : Vga} {n : Int} (h : vga.ShiftedTo vga' n) (hn : 0 ≤ n)
    {index source : Int} (hindex : index = n) (hsource : source = n + 80) :
    vga.ShiftedTo (vga'.store index (vga'.cells source)) (n + 1) := by
  have hread : vga'.cells source = vga.cells (n + 80) := by rw [h, hsource, if_neg (by omega)]
  intro i
  show (if i = index then vga'.cells source else vga'.cells i) = _
  rw [hread, hindex, h i]
  by_cases hi : i = n
  · rw [if_pos hi, if_pos (by omega), hi]
  · rw [if_neg hi]
    split_ifs <;> first | rfl | omega

/-- The inner loop of the shift copies one row. -/
theorem shift_row {vga row : Vga} {y : Nat} (hy : y < 24) (hdrawn : vga.Drawn row)
    (hshifted : vga.ShiftedTo row (y * 80)) :
    let row' := forRange 0 vgaCols (fun x vga =>
      vga.store (y * vgaCols + x) (vga.cells ((y + 1) * vgaCols + x))) row
    vga.Drawn row' ∧ vga.ShiftedTo row' ((y + 1 : Nat) * 80) := by
  have hstart : vga.Drawn row ∧ vga.ShiftedTo row ((y : Int) * 80 + (0 : Nat)) := by
    rw [Int.natCast_zero, Int.add_zero]
    exact ⟨hdrawn, hshifted⟩
  have hend : ((y + 1 : Nat) : Int) * 80 = (y : Int) * 80 + vgaCols := by unfold vgaCols; omega
  rw [hend]
  refine forRange_invariant (fun x row' => vga.Drawn row' ∧ vga.ShiftedTo row' ((y : Int) * 80 + x))
    (Nat.zero_le vgaCols) hstart (fun x row' _ hx ⟨hdrawn, hshifted⟩ => ?_)
  unfold vgaCols at hx ⊢
  refine ⟨hdrawn.store _ (by omega), ?_⟩
  have hstep := hshifted.step (by omega) (Eq.refl ((y : Int) * (80 : Nat) + x))
    (show ((y : Int) + 1) * (80 : Nat) + x = (y : Int) * (80 : Nat) + x + 80 by omega)
  rwa [Int.add_assoc] at hstep

theorem vgaScroll_eq (vga : Vga) :
    vgaScroll vga = { vga.shifted.lastBlanked with cursorY := vgaRows - 1 } := rfl

theorem Vga.shifted_spec (vga : Vga) :
    vga.Drawn vga.shifted ∧ vga.ShiftedTo vga.shifted (24 * 80) :=
  forRange_invariant
    (fun y vga' => vga.Drawn vga' ∧ vga.ShiftedTo vga' ((y : Int) * 80))
    (Nat.zero_le _) ⟨.refl vga, fun i => by rw [if_neg (by omega)]⟩
    (fun _ _ _ hy ⟨hdrawn, hshifted⟩ => shift_row hy hdrawn hshifted)

theorem Vga.lastBlanked_spec (vga : Vga) :
    vga.Drawn vga.lastBlanked ∧ ∀ i, vga.lastBlanked.cells i =
      if 24 * 80 ≤ i ∧ i < 2000 then vgaEntry 0x20 vga.currentColour else vga.cells i :=
  blank_loop vga (fun _ => rfl) rfl (by decide) (Int.le_refl _)

/-- `vga_scroll` moves all rows up by one and blanks the last one. -/
theorem vgaScroll_spec (vga : Vga) :
    (vgaScroll vga).cursorX = vga.cursorX ∧ (vgaScroll vga).cursorY = 24 ∧
      (vga.InBuffer → (vgaScroll vga).InBuffer) ∧
      ∀ i, 0 ≤ i → i < 2000 → (vgaScroll vga).cells i =
        if i < 24 * 80 then vga.cells (i + 80) else vgaEntry 0x20 vga.currentColour := by
  obtain ⟨hdrawn, hshifted⟩ := vga.shifted_spec
  obtain ⟨hblank, hcells⟩ := vga.shifted.lastBlanked_spec
  rw [vgaScroll_eq]
  -- the loops are not to be unfolded
  generalize vga.shifted.lastBlanked = blanked at hblank hcells ⊢
  refine ⟨hblank.cursorX.trans hdrawn.cursorX, rfl,
    fun hin => hblank.inBuffer (hdrawn.inBuffer hin), fun i hlo hhi => (hcells i).trans ?_⟩
  by_cases hi : i < 24 * 80
  · rw [if_neg (by omega), if_pos hi, hshifted i, if_pos ⟨hlo, hi⟩]
  · rw [if_pos ⟨by omega, hhi⟩, if_neg hi, hdrawn.colour]

/-! ### The window -/

/-- The page on which a text is laid out for the screen. -/
abbrev VgaPage := Page (BitVec 8) 0x20 80

/-- The screen shows the 25 rows of the page from row `top` on, and its cursor is the one of the page,
    which may stand just below. -/
structure ShowsFrom (top : Nat) (vga : Vga) (page : VgaPage) : Prop where
  cursorX : vga.cursorX = page.col
  cursorY : vga.cursorY + top = page.row
  top_le : top ≤ page.row
  chars : ∀ y x, y < 25 → x < 80 → vga.charAt y x = page.chars (top + y) x
  inBuffer : vga.InBuffer

/-- The screen shows the window of the page that belongs to its cursor. -/
def Shows (vga : Vga) (page : VgaPage) : Prop := ShowsFrom (windowTop 25 page.row) vga page

/-- A cell is the character of one row and column. -/
theorem Vga.store_charAt (vga : Vga) (entry : BitVec 16) {y₀ x₀ y x : Nat} (hx₀ : x₀ < 80)
    (hx : x < 80) : (vga.store (y₀ * 80 + x₀) entry).charAt y x =
      if y = y₀ ∧ x = x₀ then entry.setWidth 8 else vga.charAt y x := by
  show BitVec.setWidth 8 (if (y : Int) * 80 + x = y₀ * 80 + x₀ then entry else _) = _
  by_cases h : y = y₀ ∧ x = x₀
  · rw [if_pos h, if_pos (by omega)]
  · rw [if_neg h, if_neg (by omega)]
    rfl

variable {top : Nat} {vga : Vga} {page : VgaPage}

theorem ShowsFrom.newline (h : ShowsFrom top vga page) :
    ShowsFrom top { vga with cursorX := 0, cursorY := vga.cursorY + 1 } page.newline where
  cursorX := rfl
  cursorY := by
    have := h.cursorY
    show vga.cursorY + 1 + top = ((page.row + 1 : Nat) : Int)
    omega
  top_le := Nat.le_succ_of_le h.top_le
  chars := h.chars
  inBuffer := h.inBuffer

/-- The screen with `c` stored at the cursor. -/
def Vga.stored (vga : Vga) (c : BitVec 8) : Vga :=
  vga.store (vga.cursorY * vgaCols + vga.cursorX) (vgaEntry c vga.currentColour)

/-- The store of a character, before the cursor moves. -/
theorem ShowsFrom.stored (h : ShowsFrom top vga page) (hrow : page.row < top + 25) (c : BitVec 8) :
    (vga.stored c).InBuffer ∧
      ∀ y x, y < 25 → x < 80 → (vga.stored c).charAt y x = page.written c (top + y) x := by
  have hcol := page.col_lt
  have htop := h.top_le
  have hindex : vga.cursorY * vgaCols + vga.cursorX =
      ((page.row - top : Nat) : Int) * 80 + page.col := by
    have := h.cursorX
    have := h.cursorY
    unfold vgaCols
    omega
  rw [Vga.stored, hindex]
  refine ⟨h.inBuffer.store _ (by omega), fun y x hy hx => ?_⟩
  rw [vga.store_charAt _ hcol hx, vgaEntry_char, h.chars y x hy hx, Page.written]
  by_cases hcell : y = page.row - top ∧ x = page.col
  · rw [if_pos hcell, if_pos (by omega)]
  · rw [if_neg hcell, if_neg (by omega)]

theorem vgaPutchar_eq (vga : Vga) (c : BitVec 8) : vgaPutchar vga c =
    if (vga.placed c).cursorY ≥ (vgaRows : Int) then vgaScroll (vga.placed c) else vga.placed c :=
  rfl

theorem Vga.placed_newline (vga : Vga) :
    vga.placed 0x0A = { vga with cursorX := 0, cursorY := vga.cursorY + 1 } := if_pos rfl

theorem Vga.placed_inner (vga : Vga) {c : BitVec 8} (hc : c ≠ 0x0A) (hx : vga.cursorX + 1 < 80) :
    vga.placed c = { vga.stored c with cursorX := vga.cursorX + 1 } := by
  rw [Vga.placed, if_neg hc]
  exact if_neg (Int.not_le.2 hx)

/-- The source wraps as soon as the last column is filled. -/
theorem Vga.placed_last (vga : Vga) {c : BitVec 8} (hc : c ≠ 0x0A) (hx : ¬vga.cursorX + 1 < 80) :
    vga.placed c = { vga.stored c with cursorX := 0, cursorY := vga.cursorY + 1 } := by
  rw [Vga.placed, if_neg hc]
  exact if_pos (Int.not_lt.1 hx)

/-- Behind that test the same window is shown, and the cursor may have left it. -/
theorem ShowsFrom.placed (h : ShowsFrom top vga page) (hrow : page.row < top + 25) (c : BitVec 8) :
    ShowsFrom top (vga.placed c) (page.put 0x0A c) := by
  have hx := h.cursorX
  have hy := h.cursorY
  have htop := h.top_le
  by_cases hc : c = 0x0A
  · rw [hc, Page.put_newline, Vga.placed_newline]
    exact h.newline
  · rw [Page.put_write _ page hc]
    obtain ⟨hin, hchars⟩ := h.stored hrow c
    rw [← Page.write_chars] at hchars
    by_cases hcol : page.col + 1 < 80
    · obtain ⟨hrow', hcol'⟩ := page.write_inner c hcol
      rw [vga.placed_inner hc (by omega)]
      exact ⟨by rw [hcol']; exact congrArg (· + 1) hx, hrow' ▸ hy, hrow' ▸ htop, hchars, hin⟩
    · obtain ⟨hrow', hcol'⟩ := page.write_last c hcol
      rw [vga.placed_last hc (by omega)]
      refine ⟨hcol' ▸ rfl, ?_, by omega, hchars, hin⟩
      show vga.cursorY + 1 + top = _
      omega

/-- `vga_scroll` shows the next window, the cursor being at the start of the row below. -/
theorem ShowsFrom.vgaScroll (h : ShowsFrom top vga page) (hrow : page.row = top + 25)
    (hcol : page.col = 0) : ShowsFrom (top + 1) (vgaScroll vga) page := by
  obtain ⟨hx, hy, hin, hcells⟩ := vgaScroll_spec vga
  refine ⟨hx.trans h.cursorX, by rw [hy, hrow]; omega, by omega, fun y x hyx hxx => ?_, hin h.inBuffer⟩
  have hcell := hcells (y * 80 + x) (by omega) (by omega)
  rw [Vga.charAt, hcell]
  by_cases hlast : y < 24
  · have hnext : ((y : Int) * 80 + x) + 80 = ((y + 1 : Nat) : Int) * 80 + x := by omega
    have hrow' : top + 1 + y = top + (y + 1) := by omega
    rw [if_pos (by omega), hnext, hrow']
    exact h.chars (y + 1) x (by omega) hxx
  · -- the last row of the window is the cursor row, on which nothing has been written
    rw [if_neg (by omega), vgaEntry_char, page.ahead _ x (by omega)]

/-- Every character keeps the screen on the window of the page. -/
theorem Shows.vgaPutchar (h : Shows vga page) (c : BitVec 8) :
    Shows (vgaPutchar vga c) (page.put 0x0A c) := by
  have hwindow := windowTop_spec (show 0 < 25 by decide) page.row
  have hplaced := ShowsFrom.placed h hwindow.2 c
  have hy := hplaced.cursorY
  have hmove := page.put_row 0x0A c
  unfold Shows
  rw [vgaPutchar_eq]
  by_cases hinside : (page.put 0x0A c).row < windowTop 25 page.row + 25
  · rw [if_neg (by unfold vgaRows; omega)]
    have hsame : windowTop 25 (page.put 0x0A c).row = windowTop 25 page.row := by
      obtain hrow | ⟨hrow, -⟩ := hmove
      · rw [hrow]
      · rw [hrow] at hinside ⊢
        exact windowTop_succ_inside hinside
    rw [hsame]
    exact hplaced
  · rw [if_pos (by unfold vgaRows; omega)]
    obtain ⟨hrow, hcol⟩ := hmove.resolve_left (by omega)
    rw [hrow] at hinside
    obtain ⟨htop, hbelow⟩ := windowTop_succ_outside hinside
    rw [hrow, htop]
    exact hplaced.vgaScroll (hrow.trans hbelow) hcol

/-! ### Runs -/

/-- A call to the driver after `vga_init`. -/
inductive VgaCall where
  | putchar (c : BitVec 8)
  | print (str : List (BitVec 8))
  | setColour (fg bg : VgaColour)
deriving DecidableEq, Repr

/-- What the call does. -/
def VgaCall.run (vga : Vga) : VgaCall → Vga
  | .putchar c => CustomKernel.vgaPutchar vga c
  | .print str => CustomKernel.vgaPrint vga str
  | .setColour fg bg => CustomKernel.vgaSetColour vga fg bg

/-- The bytes that the call prints. -/
def VgaCall.text : VgaCall → List (BitVec 8)
  | .putchar c => [c]
  | .print str => str.takeWhile (· ≠ 0)
  | .setColour _ _ => []

/-- The page of the text. -/
def pageOf (text : List (BitVec 8)) : VgaPage := Page.layout 0x0A (by decide) text

/-- `vga_init` shows the empty page, whatever the cells held. -/
theorem shows_vgaInit (cells : Int → BitVec 16) : Shows (vgaInit { cells }) (pageOf []) := by
  obtain ⟨hdrawn, hcells⟩ := vgaClear_spec (vgaSetColour { cells } .white .blue)
  unfold vgaInit
  generalize vgaClear (vgaSetColour { cells } .white .blue) = cleared at hdrawn hcells ⊢
  refine ⟨hdrawn.cursorX, congrArg (· + 0) hdrawn.cursorY, Nat.le_refl 0, fun y x hy hx => ?_,
    hdrawn.inBuffer (List.forall_mem_nil _)⟩
  have hcell := hcells (y * 80 + x)
  rw [if_pos (by omega)] at hcell
  exact (congrArg (BitVec.setWidth 8) hcell).trans (vgaEntry_char _ _)

theorem Shows.vgaPrint (str : List (BitVec 8)) : ∀ {vga : Vga} {page : VgaPage}, Shows vga page →
    Shows (vgaPrint vga str) ((str.takeWhile (· ≠ 0)).foldl (Page.put 0x0A) page) := by
  induction str with
  | nil => exact fun h => h
  | cons c str ih =>
      intro vga page h
      unfold CustomKernel.vgaPrint
      by_cases hc : c = 0
      · rw [if_pos hc, List.takeWhile_cons_of_neg (by simpa using hc)]
        exact h
      · rw [if_neg hc, List.takeWhile_cons_of_pos (by simpa using hc)]
        exact ih (h.vgaPutchar c)

theorem Shows.call (h : Shows vga page) (call : VgaCall) :
    Shows (call.run vga) (call.text.foldl (Page.put 0x0A) page) := by
  cases call with
  | putchar c => exact h.vgaPutchar c
  | print str => exact h.vgaPrint str
  | setColour fg bg => exact ⟨h.cursorX, h.cursorY, h.top_le, h.chars, h.inBuffer⟩

theorem Shows.calls (calls : List VgaCall) : ∀ {vga : Vga} {page : VgaPage}, Shows vga page →
    Shows (calls.foldl VgaCall.run vga) ((calls.flatMap VgaCall.text).foldl (Page.put 0x0A) page) := by
  induction calls with
  | nil => exact fun h => h
  | cons call calls ih =>
      intro vga page h
      rw [List.flatMap_cons, List.foldl_append]
      exact ih (h.call call)

/-- The cursor of a screen that shows a window is in the screen. -/
theorem Shows.cursor (h : Shows vga page) :
    (0 ≤ vga.cursorX ∧ vga.cursorX < 80) ∧ 0 ≤ vga.cursorY ∧ vga.cursorY < 25 := by
  have hx := h.cursorX
  have hy := h.cursorY
  have hcol := page.col_lt
  have hwindow := windowTop_spec (show 0 < 25 by decide) page.row
  omega

/-- After any calls behind `vga_init` all writes have gone to the 25 × 80 cells, the cursor is in the
    screen, and the screen shows the page on which the same text is laid out: its first 25 rows, or the
    25 rows that end at its cursor. -/
theorem vga_text_layout (cells : Int → BitVec 16) (calls : List VgaCall) :
    let vga := calls.foldl VgaCall.run (vgaInit { cells })
    let page := pageOf (calls.flatMap VgaCall.text)
    (∀ i ∈ vga.stores, 0 ≤ i ∧ i < 25 * 80) ∧
      (0 ≤ vga.cursorX ∧ vga.cursorX < 80) ∧ (0 ≤ vga.cursorY ∧ vga.cursorY < 25) ∧
      ∀ y x, y < 25 → x < 80 →
        vga.charAt y x = page.chars ((if page.row ≤ 24 then 0 else page.row - 24) + y) x := by
  intro vga page
  have h : Shows vga page := (shows_vgaInit cells).calls calls
  refine ⟨h.inBuffer, h.cursor.1, h.cursor.2, fun y x hy hx => ?_⟩
  have htop : windowTop 25 page.row = if page.row ≤ 24 then 0 else page.row - 24 := by
    rw [windowTop_eq]
    split <;> omega
  rw [← htop]
  exact h.chars y x hy hx

end CustomKernel
