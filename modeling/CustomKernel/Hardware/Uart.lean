/-
Module: CustomKernel.Hardware.Uart
Layer: Hardware
Purpose: The serial port COM1: its registers, which the divisor latch hides in part, and a transmitter
  that takes its time. How many times its status has to be read until it has room for the next byte is
  any number, and may change from byte to byte. A byte written before that is lost.
Imports: CustomKernel.Library.PortProgram, Mathlib.Tactic
Trusted boundary: the description of the device
Main exports: Frame, Uart, uartDevice, uartPorts
-/
import CustomKernel.Library.PortProgram
import Mathlib.Tactic

namespace CustomKernel

/-- A byte on the line, with the divisor of the clock and the format it was sent with. -/
structure Frame where
  byte : BitVec 8
  divisor : BitVec 16
  format : BitVec 7
deriving DecidableEq, Repr

/-- The port. -/
structure Uart where
  divisor : BitVec 16
  /-- Interrupt enable register. -/
  ier : BitVec 8
  /-- FIFO control register. -/
  fcr : BitVec 8
  /-- Line control register: bit 7 selects the divisor latch. -/
  lcr : BitVec 8
  /-- Modem control register. -/
  mcr : BitVec 8
  /-- How often the status reads as full until there is room. -/
  busy : Nat
  /-- How busy each of the next bytes keeps the transmitter. -/
  delays : Nat → Nat
  /-- What has been sent. -/
  line : List Frame
  /-- What has been written while there was no room. -/
  lost : List (BitVec 8)

/-- `COM1` and the registers behind it. -/
def com1 (register : BitVec 16) : Port := 0x3F8 + register

def uartPorts (port : Port) : Prop := 0x3F8 ≤ port ∧ port ≤ 0x3FF

instance (port : Port) : Decidable (uartPorts port) := inferInstanceAs (Decidable (_ ∧ _))

namespace Uart

/-- The divisor latch is selected. -/
def dlab (s : Uart) : Bool := s.lcr.getLsbD 7

/-- A byte for the line. -/
def transmit (s : Uart) (v : BitVec 8) : Uart :=
  if s.busy = 0 then
    { s with
      busy := s.delays 0
      delays := fun i => s.delays (i + 1)
      line := s.line ++ [⟨v, s.divisor, s.lcr.setWidth 7⟩] }
  else { s with lost := s.lost ++ [v] }

/-- The low and the high byte of the divisor. -/
def setLow (s : Uart) (v : BitVec 8) : Uart := { s with divisor := (s.divisor >>> 8).setWidth 8 ++ v }

def setHigh (s : Uart) (v : BitVec 8) : Uart := { s with divisor := v ++ s.divisor.setWidth 8 }

/-- Reading the status: bit 5 says that there is room. -/
def status (s : Uart) : BitVec 8 × Uart :=
  (if s.busy = 0 then 0x60 else 0, { s with busy := s.busy - 1 })

end Uart

/-- Reads of the other registers are left out. -/
def uartDevice : Device Uart where
  write port v s :=
    if port = com1 0 then if s.dlab then s.setLow v else s.transmit v
    else if port = com1 1 then if s.dlab then s.setHigh v else { s with ier := v }
    else if port = com1 2 then { s with fcr := v }
    else if port = com1 3 then { s with lcr := v }
    else if port = com1 4 then { s with mcr := v }
    else s
  read port s := if port = com1 5 then s.status else (0xFF, s)

end CustomKernel
