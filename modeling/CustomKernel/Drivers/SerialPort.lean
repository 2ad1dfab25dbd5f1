/-
Module: CustomKernel.Drivers.SerialPort
Layer: Drivers
Purpose: The part of `src/drivers/serial.c` that talks to the port: the set-up, waiting for room, and
  writing bytes. `serial_wait` reads the status without end; here it reads it as often as its budget
  says, and there is no result if there is still no room.
Imports: CustomKernel.Hardware.Uart
Trusted boundary: the translation of the source
Main exports: serialInit, serialWait, serialPutcharPort, serialPrintPort
-/
import CustomKernel.Hardware.Uart

namespace CustomKernel

open PortProgram

/-- `serial_init`. -/
def serialInit : PortProgram Unit := do
  outb (com1 1) 0x00
  outb (com1 3) 0x80
  outb (com1 0) 0x03
  outb (com1 1) 0x00
  outb (com1 3) 0x03
  outb (com1 2) 0xC7
  outb (com1 4) 0x0B

/-- `serial_wait`. -/
def serialWait : (budget : Nat) → PortProgram (Option Unit)
  | 0 => pure none
  | budget + 1 => do
      let lsr ← inb (com1 5)
      if lsr &&& 0x20 = 0 then serialWait budget else pure (some ())

/-- `serial_putchar`. -/
def serialPutcharPort (budget : Nat) (c : BitVec 8) : PortProgram (Option Unit) := do
  match ← serialWait budget with
  | none => pure none
  | some _ => do
      outb (com1 0) c
      pure (some ())

/-- `serial_print`, on the bytes from `str` on. -/
def serialPrintPort (budget : Nat) : List (BitVec 8) → PortProgram (Option Unit)
  | [] => pure (some ())
  | c :: str =>
      if c = 0 then pure (some ())
      else do
        match ← serialPutcharPort budget c with
        | none => pure none
        | some _ => serialPrintPort budget str

end CustomKernel
