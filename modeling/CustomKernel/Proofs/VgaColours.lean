/-
Module: CustomKernel.Proofs.VgaColours
Layer: Proofs
Purpose: The colours of the text screen. The screen of the driver goes along with one whose cells
  remember what was painted on them and in which colour: each cell is the `vga_entry` of the two, and
  moves up with them. The high byte of a `vga_entry` is the colour only if the character is ASCII or
  the colour is 0xFF, since a `char` is signed; so the attributes are right throughout a run exactly
  if every character of it is so.
Imports: CustomKernel.Proofs.VgaLayout, CustomKernel.Library.PaintedScreen,
  Mathlib.Data.List.Induction, Mathlib.Tactic
Trusted boundary: none (fully proved)
Main exports: ColourCall, Depicts, Depicts.vgaPutchar, Depicts.calls, KeepsColour, AttributesPaired,
  vga_colours_paired, vga_colours_lost
-/
import CustomKernel.Proofs.VgaLayout
import CustomKernel.Library.PaintedScreen
import Mathlib.Data.List.Induction
import Mathlib.Tactic

namespace CustomKernel

open Loops PaintedScreen

/-- The attribute byte at row `y`, column `x` of the screen. -/
def Vga.attributeAt (vga : Vga) (y x : Nat) : BitVec 8 :=
  (vga.cells (y * 80 + x) >>> 8).setWidth 8

/-- The screen with what was painted on it. -/
abbrev VgaScreen := Screen (BitVec 8) (BitVec 8) 25 80

/-! ### The attribute byte -/

/-- The sign of the character fills the attribute byte. -/
theorem vgaEntry_attribute (c colour : BitVec 8) :
    (vgaEntry c colour >>> 8).setWidth 8 = if c.msb then 0xFF#8 else colour := by
  refine BitVec.eq_of_getLsbD_eq fun i hi => ?_
  have hones : (0xFF#8).getLsbD i = true := by
    rw [show 0xFF#8 = BitVec.allOnes 8 from rfl, BitVec.getLsbD_allOnes]
    exact decide_eq_true hi
  have hsum : 8 + i < 16 := by omega
  have hhigh : ¬ 8 + i < 8 := by omega
  simp only [vgaEntry, BitVec.getLsbD_setWidth, BitVec.getLsbD_ushiftRight, BitVec.getLsbD_or,
    BitVec.getLsbD_signExtend, BitVec.getLsbD_shiftLeft, hi, hsum, hhigh, decide_true, decide_false,
    Bool.true_and, Bool.not_false, Nat.add_sub_cancel_left, if_false]
  cases c.msb with
  | true => simp [hones]
  | false =>
      have hi' : i < 16 := by omega
      simp [hi']

/-- The character keeps the colour it is painted in. -/
def KeepsColour (c colour : BitVec 8) : Prop := c.toNat < 128 ∨ colour = 0xFF#8

instance (c colour : BitVec 8) : Decidable (KeepsColour c colour) := inferInstanceAs (Decidable (_ ∨ _))

theorem attribute_eq_iff (c colour : BitVec 8) :
    (vgaEntry c colour >>> 8).setWidth 8 = colour ↔ KeepsColour c colour := by
  rw [vgaEntry_attribute, KeepsColour]
  have hmsb := BitVec.msb_eq_decide c
  cases h : c.msb with
  | true =>
      rw [h] at hmsb
      have hge := of_decide_eq_true hmsb.symm
      rw [if_pos rfl]
      exact ⟨fun heq => .inr heq.symm, fun hk => (hk.resolve_left (by omega)).symm⟩
  | false =>
      rw [h] at hmsb
      have hlt := of_decide_eq_false hmsb.symm
      rw [if_neg Bool.false_ne_true]
      exact iff_of_true rfl (.inl (by omega))

/-! ### The two screens -/

/-- The cells of the driver are the entries of what was painted on them. -/
def CellsDepict (vga : Vga) (cells : Nat → Nat → Option (BitVec 8 × BitVec 8)) : Prop :=
  ∀ y x, y < 25 → x < 80 → ∀ c k, cells y x = some (c, k) → vga.cells (y * 80 + x) = vgaEntry c k

/-- The two screens go along. -/
structure Depicts (vga : Vga) (screen : VgaScreen) : Prop where
  cursorX : vga.cursorX = screen.col
  cursorY : vga.cursorY = screen.row
  colour : vga.currentColour = screen.colour
  cells : CellsDepict vga screen.cells

variable {vga : Vga} {screen : VgaScreen}

theorem vgaScroll_colour (vga : Vga) : (vgaScroll vga).currentColour = vga.currentColour := by
  obtain ⟨hdrawn, -⟩ := vga.shifted_spec
  obtain ⟨hblank, -⟩ := vga.shifted.lastBlanked_spec
  rw [vgaScroll_eq]
  -- the loops are not to be unfolded
  generalize vga.shifted.lastBlanked = blanked at hblank ⊢
  exact hblank.colour.trans hdrawn.colour

/-- `vga_scroll` moves each entry up with what it depicts. -/
theorem CellsDepict.vgaScroll {cells : Nat → Nat → Option (BitVec 8 × BitVec 8)}
    (h : CellsDepict vga cells) :
    CellsDepict (vgaScroll vga) (Screen.scrolled 0x20 vga.currentColour 25 cells) := by
  obtain ⟨-, -, -, hcells⟩ := vgaScroll_spec vga
  intro y x hy hx c k hcell
  rw [hcells (y * 80 + x) (by omega) (by omega)]
  unfold Screen.scrolled at hcell
  split at hcell
  · rename_i hrow
    have hnext : ((y : Int) * 80 + x) + 80 = ((y + 1 : Nat) : Int) * 80 + x := by omega
    rw [if_pos (by omega), hnext]
    exact h (y + 1) x hrow hx c k hcell
  · cases hcell
    rw [if_neg (by omega)]

/-- The end of `vga_putchar`, when the cursor has gone to the start of the next row. -/
theorem Depicts.nextRow {cells : Nat → Nat → Option (BitVec 8 × BitVec 8)} (hx : vga.cursorX = 0)
    (hy : vga.cursorY = screen.row + 1) (hcolour : vga.currentColour = screen.colour)
    (hcells : CellsDepict vga cells) :
    Depicts (if vga.cursorY ≥ (vgaRows : Int) then CustomKernel.vgaScroll vga else vga)
      (screen.nextRow 0x20 cells) := by
  have hrow := screen.row_lt
  unfold Screen.nextRow vgaRows
  by_cases hlast : screen.row + 1 < 25
  · rw [if_neg (by omega), dif_pos hlast]
    exact ⟨hx, by rw [hy]; rfl, hcolour, hcells⟩
  · obtain ⟨hx', hy', -, -⟩ := vgaScroll_spec vga
    rw [if_pos (by omega), dif_neg hlast]
    refine ⟨hx'.trans hx, by rw [hy']; show (24 : Int) = screen.row; omega,
      (vgaScroll_colour vga).trans hcolour, ?_⟩
    rw [← hcolour]
    exact hcells.vgaScroll

/-- The store of a character. -/
theorem Depicts.stored (h : Depicts vga screen) (c : BitVec 8) :
    CellsDepict (vga.stored c) (screen.painted c) := by
  have hcol := screen.col_lt
  have hindex : vga.cursorY * vgaCols + vga.cursorX = (screen.row : Int) * 80 + screen.col := by
    rw [h.cursorX, h.cursorY]
    rfl
  intro y x hy hx c' k hcell
  show (if (y : Int) * 80 + x = vga.cursorY * vgaCols + vga.cursorX then
    vgaEntry c vga.currentColour else vga.cells (y * 80 + x)) = _
  unfold Screen.painted at hcell
  rw [hindex]
  split at hcell
  · rename_i hself
    cases hcell
    rw [if_pos (by omega), h.colour]
  · rename_i hother
    rw [if_neg (by omega)]
    exact h.cells y x hy hx c' k hcell

/-- A character, whatever its value. -/
theorem Depicts.vgaPutchar (h : Depicts vga screen) (c : BitVec 8) :
    Depicts (vgaPutchar vga c) (screen.put 0x20 0x0A c) := by
  have hx := h.cursorX
  have hrow := screen.row_lt
  rw [vgaPutchar_eq, Screen.put]
  by_cases hc : c = 0x0A
  · rw [if_pos hc, hc, Vga.placed_newline]
    exact Depicts.nextRow rfl (congrArg (· + 1) h.cursorY) h.colour h.cells
  · rw [if_neg hc, Screen.write]
    by_cases hcol : screen.col + 1 < 80
    · have hy := h.cursorY
      rw [dif_pos hcol, vga.placed_inner hc (by omega), if_neg ?_]
      · exact ⟨congrArg (· + 1) hx, hy, h.colour, h.stored c⟩
      · show ¬ vga.cursorY ≥ (vgaRows : Int)
        unfold vgaRows
        omega
    · rw [dif_neg hcol, vga.placed_last hc (by omega)]
      exact Depicts.nextRow rfl (congrArg (· + 1) h.cursorY) h.colour (h.stored c)

/-- `vga_clear` blanks all cells in the current colour. -/
theorem Depicts.vgaClear (h : Depicts vga screen) : Depicts (vgaClear vga) (screen.clear 0x20) := by
  obtain ⟨hdrawn, hcells⟩ := vgaClear_spec vga
  refine ⟨hdrawn.cursorX.trans h.cursorX, hdrawn.cursorY.trans h.cursorY,
    hdrawn.colour.trans h.colour, fun y x hy hx c k hcell => ?_⟩
  cases hcell
  rw [hcells, if_pos (by omega), h.colour]

/-! ### Runs -/

/-- A call to the driver that paints or sets the colour. -/
inductive ColourCall where
  | setColour (fg bg : VgaColour)
  | clear
  | putchar (c : BitVec 8)
deriving DecidableEq, Repr

/-- What the call does. -/
def ColourCall.run (vga : Vga) : ColourCall → Vga
  | .setColour fg bg => CustomKernel.vgaSetColour vga fg bg
  | .clear => CustomKernel.vgaClear vga
  | .putchar c => CustomKernel.vgaPutchar vga c

/-- What the call paints. -/
def ColourCall.paint (screen : VgaScreen) : ColourCall → VgaScreen
  | .setColour fg bg => screen.setColour ((bg.value <<< 4 ||| fg.value).setWidth 8)
  | .clear => screen.clear 0x20
  | .putchar c => screen.put 0x20 0x0A c

/-- The driver before its first call. -/
def bootedVga (cells : Int → BitVec 16) : Vga := { cells }

/-- What the calls have painted, on a screen of which nothing is known. -/
def paintedBy (calls : List ColourCall) : VgaScreen :=
  calls.foldl ColourCall.paint (Screen.unknown 0 (Nat.zero_lt_succ 24) (Nat.zero_lt_succ 79))

/-- Every character that the call paints keeps the current colour. -/
def ColourCall.Keeps (vga : Vga) : ColourCall → Prop
  | .putchar c => KeepsColour c vga.currentColour
  | _ => True

theorem Depicts.call (h : Depicts vga screen) (call : ColourCall) :
    Depicts (call.run vga) (call.paint screen) := by
  cases call with
  | setColour fg bg => exact ⟨h.cursorX, h.cursorY, rfl, h.cells⟩
  | clear => exact h.vgaClear
  | putchar c => exact h.vgaPutchar c

theorem Depicts.calls (cells : Int → BitVec 16) (calls : List ColourCall) :
    Depicts (calls.foldl ColourCall.run (bootedVga cells)) (paintedBy calls) := by
  have hrun : ∀ (calls : List ColourCall) {vga : Vga} {screen : VgaScreen}, Depicts vga screen →
      Depicts (calls.foldl ColourCall.run vga) (calls.foldl ColourCall.paint screen) := by
    intro calls
    induction calls with
    | nil => exact fun h => h
    | cons call calls ih => exact fun h => ih (h.call call)
  exact hrun calls ⟨rfl, rfl, rfl, fun _ _ _ _ _ _ h => nomatch h⟩

/-- Each cell holds the character that was last painted on it, with the colour that was current then. -/
def AttributesPaired (vga : Vga) (screen : VgaScreen) : Prop :=
  ∀ y x, y < 25 → x < 80 → ∀ c k, screen.cells y x = some (c, k) →
    vga.charAt y x = c ∧ vga.attributeAt y x = k

/-- So it is if every painted character has kept its colour. -/
theorem Depicts.paired (h : Depicts vga screen) (hkeeps : Screen.All KeepsColour screen.cells) :
    AttributesPaired vga screen := by
  intro y x hy hx c k hcell
  have hentry := h.cells y x hy hx c k hcell
  rw [Vga.charAt, Vga.attributeAt, hentry]
  exact ⟨vgaEntry_char c k, (attribute_eq_iff c k).2 (hkeeps y x c k hcell)⟩

/-- And only then. -/
theorem Depicts.keeps (h : Depicts vga screen) (hpaired : AttributesPaired vga screen) {y x : Nat}
    (hy : y < 25) (hx : x < 80) {c k : BitVec 8} (hcell : screen.cells y x = some (c, k)) :
    KeepsColour c k := by
  have hattribute := (hpaired y x hy hx c k hcell).2
  rw [Vga.attributeAt, h.cells y x hy hx c k hcell] at hattribute
  exact (attribute_eq_iff c k).1 hattribute

/-- A call whose character keeps the current colour. -/
theorem ColourCall.Keeps.all {call : ColourCall} (h : Depicts vga screen) (hkeeps : call.Keeps vga)
    (hall : Screen.All KeepsColour screen.cells) :
    Screen.All KeepsColour (call.paint screen).cells := by
  have hblank : KeepsColour 0x20 screen.colour := .inl (by decide)
  cases call with
  | setColour fg bg => exact hall
  | clear => exact Screen.All.clear hblank
  | putchar c =>
      have hc : KeepsColour c vga.currentColour := hkeeps
      rw [h.colour] at hc
      exact hall.put hblank fun _ => hc

/-- The attributes are right behind every call of a run exactly if every character of the run is ASCII
    or painted in colour 0xFF. -/
theorem vga_colours_paired (cells : Int → BitVec 16) (calls : List ColourCall) :
    (∀ done rest, calls = done ++ rest →
      AttributesPaired (done.foldl ColourCall.run (bootedVga cells)) (paintedBy done)) ↔
      ∀ done call rest, calls = done ++ call :: rest →
        call.Keeps (done.foldl ColourCall.run (bootedVga cells)) := by
  constructor
  · intro hpaired done call rest hcalls
    cases call with
    | setColour fg bg => trivial
    | clear => trivial
    | putchar c =>
        by_cases hc : c = 0x0A
        · exact .inl (by rw [hc]; decide)
        · -- the character is still on the screen behind the call
          have hnext := hpaired (done ++ [.putchar c]) rest (by rw [hcalls, List.append_assoc]; rfl)
          have hdepicts := Depicts.calls cells (done ++ [.putchar c])
          have hpaint : paintedBy (done ++ [.putchar c]) = (paintedBy done).put 0x20 0x0A c := by
            rw [paintedBy, List.foldl_append]
            rfl
          rw [hpaint] at hnext hdepicts
          obtain ⟨y, x, hy, hx, hcell⟩ := Screen.put_painted (s := paintedBy done) (by decide) hc
          have hkeeps := hdepicts.keeps hnext hy hx hcell
          rw [← (Depicts.calls cells done).colour] at hkeeps
          exact hkeeps
  · intro hkeeps done rest hcalls
    refine (Depicts.calls cells done).paired ?_
    induction done using List.reverseRecOn generalizing rest with
    | nil => exact Screen.All.unknown _ _ _
    | append_singleton done call ih =>
        rw [List.append_assoc] at hcalls
        have hpaint : paintedBy (done ++ [call]) = call.paint (paintedBy done) := by
          rw [paintedBy, List.foldl_append]
          rfl
        rw [hpaint]
        exact ColourCall.Keeps.all (Depicts.calls cells done) (hkeeps done call rest hcalls)
          (ih _ hcalls)

/-- The first byte of a dash in a message, white on blue: its attribute is white on white. -/
theorem vga_colours_lost : ¬ ∀ (cells : Int → BitVec 16) (calls : List ColourCall),
    AttributesPaired (calls.foldl ColourCall.run (bootedVga cells)) (paintedBy calls) := by
  intro hclaim
  have hpaired := hclaim (fun _ => 0) [.setColour .white .blue, .putchar 0xE2] 0 0 (by decide)
    (by decide) 0xE2 0x1F (by decide)
  exact absurd hpaired.2 (by decide)

end CustomKernel
