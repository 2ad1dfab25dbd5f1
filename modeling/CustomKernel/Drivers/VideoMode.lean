/-
Module: CustomKernel.Drivers.VideoMode
Layer: Drivers
Purpose: The port accesses of `src/drivers/framebuffer.c`: the switch to graphics mode and the palette,
  and the system call that sets the palette from `src/syscall/syscall.c`.
Imports: CustomKernel.Hardware.VgaRegisters
Trusted boundary: the translation of the source
Main exports: fbInit, fbSetPalette, sysSetpalette
-/
import CustomKernel.Hardware.VgaRegisters

namespace CustomKernel

open PortProgram

/-- The four tables of `fb_init`. -/
def fbSeq : List (BitVec 8) := [0x03, 0x01, 0x0F, 0x00, 0x0E]

def fbCrtc : List (BitVec 8) :=
  [0x5F, 0x4F, 0x50, 0x82, 0x54, 0x80, 0xBF, 0x1F, 0x00, 0x41, 0x00, 0x00, 0x00, 0x00, 0x00, 0x00,
    0x9C, 0x0E, 0x8F, 0x28, 0x40, 0x96, 0xB9, 0xA3, 0xFF]

def fbGc : List (BitVec 8) := [0x00, 0x00, 0x00, 0x00, 0x00, 0x40, 0x05, 0x0F, 0xFF]

def fbAc : List (BitVec 8) :=
  [0x00, 0x01, 0x02, 0x03, 0x04, 0x05, 0x06, 0x07, 0x08, 0x09, 0x0A, 0x0B, 0x0C, 0x0D, 0x0E, 0x0F,
    0x41, 0x00, 0x0F, 0x00, 0x00]

/-- A loop of `fb_init`: `outb(indexPort, i); outb(dataPort, table[i]);`. -/
def fbTable (indexPort dataPort : Port) (table : List (BitVec 8)) : PortProgram Unit :=
  forRange 0 table.length fun i => do
    outb indexPort (BitVec.ofNat 8 i)
    outb dataPort (table.getD i 0)

/-- `fb_init`. -/
def fbInit : PortProgram Unit := do
  outb vgaMisc 0x63
  fbTable vgaSeqIndex vgaSeqData fbSeq
  -- unlock registers 0 to 7
  outb vgaCrtcIndex 0x11
  let v ← inb vgaCrtcData
  outb vgaCrtcData (v &&& ~~~0x80)
  fbTable vgaCrtcIndex vgaCrtcData fbCrtc
  fbTable vgaGcIndex vgaGcData fbGc
  let _ ← inb vgaStatus
  fbTable vgaAc vgaAc fbAc
  outb vgaAc 0x20

/-- `fb_set_palette`. -/
def fbSetPalette (index r g b : BitVec 8) : PortProgram Unit := do
  outb vgaPaletteIndex index
  outb vgaPaletteData (r >>> 2)
  outb vgaPaletteData (g >>> 2)
  outb vgaPaletteData (b >>> 2)

/-- `sys_setpalette`, where `pal` is what it reads through the pointer. Through the `int8_t` the bytes
    become negative on the way, and bytes again at the call. -/
def sysSetpalette (pal : Nat → BitVec 8) : PortProgram Unit :=
  forRange 0 256 fun i => do
    let byte (k : Nat) : BitVec 8 := ((pal k).signExtend 32).setWidth 8
    fbSetPalette (BitVec.ofNat 8 i) (byte (i * 3)) (byte (i * 3 + 1)) (byte (i * 3 + 2))

end CustomKernel
