/-
Module: CustomKernel.Drivers.Pic
Layer: Drivers
Purpose: The driver of the interrupt controllers, `src/drivers/pic.c`.
Imports: CustomKernel.Hardware.InterruptController
Trusted boundary: the translation of the source
Main exports: picInit, picSendEoi, picMask, picUnmask
-/
import CustomKernel.Hardware.InterruptController

namespace CustomKernel

open PortProgram

/-- `io_wait`. -/
def ioWait : PortProgram Unit := outb 0x80 0

/-- `pic_init`. -/
def picInit : PortProgram Unit := do
  let mask1 ← inb pic1Data
  let mask2 ← inb pic2Data
  outb pic1Cmd 0x11
  ioWait
  outb pic2Cmd 0x11
  ioWait
  outb pic1Data 0x20
  ioWait
  outb pic2Data 0x28
  ioWait
  outb pic1Data 0x04
  ioWait
  outb pic2Data 0x02
  ioWait
  outb pic1Data 0x01
  ioWait
  outb pic2Data 0x01
  ioWait
  outb pic1Data mask1
  outb pic2Data mask2

/-- `pic_send_eoi`. -/
def picSendEoi (irq : BitVec 8) : PortProgram Unit := do
  if 8 ≤ irq then outb pic2Cmd 0x20
  outb pic1Cmd 0x20

/-- The data port of the controller a line is connected to. -/
def picPort (irq : BitVec 8) : Port := if irq < 8 then pic1Data else pic2Data

/-- `1 << irq`, an `int`, after `irq -= 8` for a line of the slave. -/
def picBit (irq : BitVec 8) : BitVec 32 := 1#32 <<< (if 8 ≤ irq then irq - 8 else irq).toNat

/-- `pic_mask`. -/
def picMask (irq : BitVec 8) : PortProgram Unit := do
  let mask ← inb (picPort irq)
  outb (picPort irq) ((mask.setWidth 32 ||| picBit irq).setWidth 8)

/-- `pic_unmask`. -/
def picUnmask (irq : BitVec 8) : PortProgram Unit := do
  let mask ← inb (picPort irq)
  outb (picPort irq) ((mask.setWidth 32 &&& ~~~picBit irq).setWidth 8)

end CustomKernel
