/-
Module: CustomKernel.Hardware.IntervalTimer
Layer: Hardware
Purpose: The programmable interval timer, as far as the kernel programs it: the three counters with
  how they are accessed, and the latch that holds the low byte of a count until the high byte comes.
  Its command register cannot be read; reads of the counters are left out.
Imports: CustomKernel.Library.PortProgram, Mathlib.Tactic
Trusted boundary: the description of the device
Main exports: Counter, Counter.period, IntervalTimer, pitDevice, pitPorts
-/
import CustomKernel.Library.PortProgram
import Mathlib.Tactic

namespace CustomKernel

/-- Which bytes of a count are written. -/
inductive AccessMode where
  | low
  | high
  | lowHigh
deriving DecidableEq, Repr

/-- A counter. -/
structure Counter where
  access : AccessMode
  /-- Mode 3 is the square wave. -/
  mode : BitVec 3
  bcd : Bool
  reload : BitVec 16
  /-- The low byte, while the high byte is to come. -/
  pending : Option (BitVec 8)
deriving DecidableEq, Repr

/-- A control word; the one with access bits 0 latches the count for reading. -/
def Counter.control (c : Counter) (v : BitVec 8) : Counter :=
  if v >>> 4 &&& 3 = 0 then c
  else
    { access := if v >>> 4 &&& 3 = 1 then .low else if v >>> 4 &&& 3 = 2 then .high else .lowHigh
      mode := (v >>> 1).setWidth 3
      bcd := v.getLsbD 0
      reload := c.reload
      pending := none }

/-- A byte of a count. -/
def Counter.count (c : Counter) (v : BitVec 8) : Counter :=
  match c.access, c.pending with
  | .low, _ => { c with reload := (0 : BitVec 8) ++ v }
  | .high, _ => { c with reload := v ++ (0 : BitVec 8) }
  | .lowHigh, none => { c with pending := some v }
  | .lowHigh, some low => { c with reload := v ++ low, pending := none }

/-- Clocks from one output to the next, when the counter counts in binary. -/
def Counter.period (c : Counter) : Nat := if c.reload = 0 then 2 ^ 16 else c.reload.toNat

/-- The three counters. -/
structure IntervalTimer where
  counter : Fin 3 → Counter

/-- The ports of the counters and of the command register. -/
def pitData (i : Nat) : Port := 0x40 + BitVec.ofNat 16 i

def pitCommand : Port := 0x43

def pitPorts (port : Port) : Prop := 0x40 ≤ port ∧ port ≤ 0x43

instance (port : Port) : Decidable (pitPorts port) := inferInstanceAs (Decidable (_ ∧ _))

/-- A byte written to the command register: bits 6 and 7 are the counter, or a read-back command. -/
def IntervalTimer.command (s : IntervalTimer) (v : BitVec 8) : IntervalTimer where
  counter i := if (v >>> 6).toNat = i then (s.counter i).control v else s.counter i

/-- A byte written to a counter. -/
def IntervalTimer.data (s : IntervalTimer) (i : Fin 3) (v : BitVec 8) : IntervalTimer where
  counter := Function.update s.counter i ((s.counter i).count v)

def pitDevice : Device IntervalTimer where
  write port v s :=
    if port = pitCommand then s.command v
    else if port = pitData 0 then s.data 0 v
    else if port = pitData 1 then s.data 1 v
    else if port = pitData 2 then s.data 2 v
    else s
  read _ s := (0xFF, s)

end CustomKernel
