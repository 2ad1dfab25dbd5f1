/-
Module: CustomKernel.Hardware.VgaRegisters
Layer: Hardware
Purpose: The registers of the VGA that the kernel programs. Most are behind an index register; the
  first eight of the CRT controller can be write-protected; the attribute controller has one port for
  index and data, which a read of the input status resets to the index; the palette takes three bytes
  for an entry. And the picture that the registers make of the bytes at `0xA0000`, in the modes with a
  byte for each pixel. The mask of the palette, which the kernel leaves alone, is left out.
Imports: CustomKernel.Library.PortProgram, Mathlib.Tactic
Trusted boundary: the description of the device
Main exports: PaletteEntry, Palette, VgaRegisters, vgaDevice, vgaPorts, VgaRegisters.shown
-/
import CustomKernel.Library.PortProgram
import Mathlib.Tactic

namespace CustomKernel

/-- An entry of the palette. -/
structure PaletteEntry where
  red : BitVec 8
  green : BitVec 8
  blue : BitVec 8
deriving DecidableEq, Repr

/-- What has been written of an entry. -/
inductive PalettePhase where
  | red
  | green (r : BitVec 8)
  | blue (r g : BitVec 8)
deriving DecidableEq, Repr

/-- The palette, and the entry that is being written. -/
structure Palette where
  entries : BitVec 8 → PaletteEntry
  index : BitVec 8
  phase : PalettePhase

/-- A byte written to the palette's data register; of each colour there are six bits. -/
def Palette.data (p : Palette) (v : BitVec 8) : Palette :=
  let colour := v &&& 0x3F
  match p.phase with
  | .red => { p with phase := .green colour }
  | .green r => { p with phase := .blue r colour }
  | .blue r g =>
      { entries := Function.update p.entries p.index ⟨r, g, colour⟩
        index := p.index + 1
        phase := .red }

/-- Selecting an entry for writing. -/
def Palette.select (p : Palette) (v : BitVec 8) : Palette := { p with index := v, phase := .red }

/-- The registers. -/
structure VgaRegisters where
  /-- Miscellaneous output: bit 0 puts the CRT controller at the ports for colour. -/
  misc : BitVec 8
  seqIndex : BitVec 8
  seq : BitVec 8 → BitVec 8
  crtcIndex : BitVec 8
  crtc : BitVec 8 → BitVec 8
  gcIndex : BitVec 8
  gc : BitVec 8 → BitVec 8
  /-- Bit 5 turns the display on, and closes the first 16 attributes. -/
  acIndex : BitVec 8
  ac : BitVec 8 → BitVec 8
  /-- The next byte for the attribute controller is data. -/
  acData : Bool
  palette : Palette

namespace VgaRegisters

/-- A byte for the selected register of the CRT controller. Bit 7 of register `0x11` protects registers
    0 to 7 but for bit 4 of register 7. -/
def writeCrtc (s : VgaRegisters) (v : BitVec 8) : VgaRegisters :=
  let value :=
    if (s.crtc 0x11).getLsbD 7 = true ∧ s.crtcIndex ≤ 7 then
      if s.crtcIndex = 7 then s.crtc 7 &&& ~~~0x10 ||| v &&& 0x10 else s.crtc s.crtcIndex
    else v
  { s with crtc := Function.update s.crtc s.crtcIndex value }

/-- A byte for the attribute controller. -/
def writeAc (s : VgaRegisters) (v : BitVec 8) : VgaRegisters :=
  if s.acData then
    let register := s.acIndex &&& 0x1F
    if s.acIndex.getLsbD 5 = true ∧ register < 16 then { s with acData := false }
    else { s with ac := Function.update s.ac register v, acData := false }
  else { s with acIndex := v, acData := true }

/-- The CRT controller and the input status answer where bit 0 of `misc` puts them. -/
def colour (s : VgaRegisters) : Bool := s.misc.getLsbD 0

/-! ### The picture -/

/-- A byte for each pixel: graphics with the bytes chained over the four planes, all of which are
    written and shown, at `0xA0000`, fetched by double words and taken by the attribute controller two
    halves at a time. The screen is on, not panned and not split. -/
structure BytePixels (s : VgaRegisters) : Prop where
  chained : (s.seq 4).getLsbD 3 = true
  written : s.seq 2 &&& 0x0F = 0x0F
  running : s.seq 0 &&& 0x03 = 0x03
  lit : (s.seq 1).getLsbD 5 = false
  shifted : (s.gc 5).getLsbD 6 = true
  graphics : s.gc 6 &&& 0x0D = 0x05
  doubleWords : (s.crtc 0x14).getLsbD 6 = true
  addresses : s.crtc 0x17 &&& 0x8F = 0x83
  preset : s.crtc 8 = 0
  unsplit : s.crtc 0x18 = 0xFF ∧ (s.crtc 7).getLsbD 4 = true ∧ (s.crtc 9).getLsbD 6 = true
  halves : s.ac 0x10 &&& 0x41 = 0x41
  planes : s.ac 0x12 &&& 0x0F = 0x0F
  unpanned : s.ac 0x13 &&& 0x0F = 0
  display : s.acIndex.getLsbD 5 = true

/-- Pixels in a row; a character is four of them. -/
def columns (s : VgaRegisters) : Nat := 4 * ((s.crtc 1).toNat + 1)

/-- Lines of the picture; bits 8 and 9 are in register 7. -/
def lines (s : VgaRegisters) : Nat :=
  (s.crtc 0x12).toNat + (if (s.crtc 7).getLsbD 1 then 256 else 0) +
    (if (s.crtc 7).getLsbD 6 then 512 else 0) + 1

/-- Lines that show the same row. -/
def linesPerRow (s : VgaRegisters) : Nat :=
  ((s.crtc 9 &&& 0x1F).toNat + 1) * if (s.crtc 9).getLsbD 7 then 2 else 1

/-- Bytes from a row to the next, and to the first row. -/
def pitch (s : VgaRegisters) : Nat := 8 * (s.crtc 0x13).toNat

def start (s : VgaRegisters) : Nat := 4 * (256 * (s.crtc 0x0C).toNat + (s.crtc 0x0D).toNat)

/-- The entry of the palette for a byte: the attribute controller replaces each half. -/
def paletteIndex (s : VgaRegisters) (v : BitVec 8) : BitVec 8 :=
  (s.ac (v >>> 4) &&& 0x0F) <<< 4 ||| s.ac (v &&& 0x0F) &&& 0x0F

/-- What is shown at a place of the screen. -/
def shown (s : VgaRegisters) (memory : Nat → BitVec 8) (column line : Nat) : PaletteEntry :=
  s.palette.entries (s.paletteIndex (memory (s.start + line / s.linesPerRow * s.pitch + column)))

end VgaRegisters

/-! ### The ports -/

/-- The ports of the registers. -/
def vgaMisc : Port := 0x3C2

def vgaSeqIndex : Port := 0x3C4

def vgaSeqData : Port := 0x3C5

def vgaCrtcIndex : Port := 0x3D4

def vgaCrtcData : Port := 0x3D5

def vgaGcIndex : Port := 0x3CE

def vgaGcData : Port := 0x3CF

def vgaAc : Port := 0x3C0

def vgaStatus : Port := 0x3DA

def vgaPaletteIndex : Port := 0x3C8

def vgaPaletteData : Port := 0x3C9

def vgaPorts (port : Port) : Prop := 0x3C0 ≤ port ∧ port ≤ 0x3DF

instance (port : Port) : Decidable (vgaPorts port) := inferInstanceAs (Decidable (_ ∧ _))

/-- The registers on the ports for colour. Reads of the others are left out. -/
def vgaDevice : Device VgaRegisters where
  write port v s :=
    if port = vgaMisc then { s with misc := v }
    else if port = vgaSeqIndex then { s with seqIndex := v }
    else if port = vgaSeqData then { s with seq := Function.update s.seq s.seqIndex v }
    else if port = vgaCrtcIndex then if s.colour then { s with crtcIndex := v } else s
    else if port = vgaCrtcData then if s.colour then s.writeCrtc v else s
    else if port = vgaGcIndex then { s with gcIndex := v }
    else if port = vgaGcData then { s with gc := Function.update s.gc s.gcIndex v }
    else if port = vgaAc then s.writeAc v
    else if port = vgaPaletteIndex then { s with palette := s.palette.select v }
    else if port = vgaPaletteData then { s with palette := s.palette.data v }
    else s
  read port s :=
    if port = vgaCrtcData then (if s.colour then s.crtc s.crtcIndex else 0xFF, s)
    else if port = vgaStatus then (0, if s.colour then { s with acData := false } else s)
    else (0xFF, s)

end CustomKernel
