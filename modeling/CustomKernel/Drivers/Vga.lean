/-
Module: CustomKernel.Drivers.Vga
Layer: Drivers
Purpose: The text screen `src/drivers/vga.c`. The number printers at its end have a module of their own.
Imports: CustomKernel.Library.Loops
Trusted boundary: the translation of the source; the text screen is memory of its own
Main exports: VgaColour, Vga, Vga.store, vgaEntry, vgaClear, vgaSetColour, vgaScroll, vgaPutchar,
  vgaPrint, vgaInit
-/
import CustomKernel.Library.Loops

namespace CustomKernel

open Loops

/-- `VGA_COLS`. -/
abbrev vgaCols : Nat := 80

/-- `VGA_ROWS`. -/
abbrev vgaRows : Nat := 25

/-- `vga_colour_t`. -/
inductive VgaColour where
  | black | blue | green | cyan | red | magenta | brown | lightGrey | darkGrey | lightBlue
  | lightGreen | lightCyan | lightRed | lightMagenta | yellow | white
deriving DecidableEq, Repr

/-- The value of the enumerator. -/
def VgaColour.value (colour : VgaColour) : BitVec 32 := BitVec.ofNat 32 colour.ctorIdx

/-- The statics of the driver and the memory behind `vga_buf`, by `int` index; `stores` are the indices
    that have been written. -/
structure Vga where
  cells : Int → BitVec 16
  cursorX : Int := 0
  cursorY : Int := 0
  currentColour : BitVec 8 := 0
  stores : List Int := []

/-- `vga_buf[i] = entry`. -/
def Vga.store (vga : Vga) (i : Int) (entry : BitVec 16) : Vga :=
  { vga with
    cells := fun j => if j = i then entry else vga.cells j
    stores := i :: vga.stores }

/-- `vga_entry`. A `char` is signed: from 0x80 on it fills the colour byte. -/
def vgaEntry (c colour : BitVec 8) : BitVec 16 :=
  c.signExtend 16 ||| colour.setWidth 16 <<< 8

/-- `vga_clear`. -/
def vgaClear (vga : Vga) : Vga :=
  forRange 0 (vgaRows * vgaCols) (fun i vga => vga.store i (vgaEntry 0x20 vga.currentColour)) vga

/-- `vga_set_colour`. -/
def vgaSetColour (vga : Vga) (fg bg : VgaColour) : Vga :=
  { vga with currentColour := (bg.value <<< 4 ||| fg.value).setWidth 8 }

/-- The screen after the nested loop of `vga_scroll`. -/
def Vga.shifted (vga : Vga) : Vga :=
  forRange 0 (vgaRows - 1) (fun y vga =>
    forRange 0 vgaCols (fun x vga =>
      vga.store (y * vgaCols + x) (vga.cells ((y + 1) * vgaCols + x))) vga) vga

/-- The screen after the second loop of `vga_scroll`. -/
def Vga.lastBlanked (vga : Vga) : Vga :=
  forRange 0 vgaCols (fun x vga =>
    vga.store ((vgaRows - 1) * vgaCols + x) (vgaEntry 0x20 vga.currentColour)) vga

/-- `vga_scroll`. -/
def vgaScroll (vga : Vga) : Vga := { vga.shifted.lastBlanked with cursorY := vgaRows - 1 }

/-- `vga_putchar` up to the test for a scroll. -/
def Vga.placed (vga : Vga) (c : BitVec 8) : Vga :=
  if c = 0x0A then { vga with cursorX := 0, cursorY := vga.cursorY + 1 }
  else
    let vga := vga.store (vga.cursorY * vgaCols + vga.cursorX) (vgaEntry c vga.currentColour)
    let vga := { vga with cursorX := vga.cursorX + 1 }
    if vga.cursorX ≥ (vgaCols : Int) then { vga with cursorX := 0, cursorY := vga.cursorY + 1 }
    else vga

/-- `vga_putchar`. -/
def vgaPutchar (vga : Vga) (c : BitVec 8) : Vga :=
  let vga := vga.placed c
  if vga.cursorY ≥ (vgaRows : Int) then vgaScroll vga else vga

/-- `vga_print`, on the bytes from `str` on. The end of the list stands for a terminator. -/
def vgaPrint (vga : Vga) : List (BitVec 8) → Vga
  | [] => vga
  | c :: str => if c = 0 then vga else vgaPrint (vgaPutchar vga c) str

/-- `vga_init`. -/
def vgaInit (vga : Vga) : Vga := vgaClear (vgaSetColour vga .white .blue)

end CustomKernel
