/-
Module: CustomKernel.Hardware.InterruptController
Layer: Hardware
Purpose: The pair of 8259A interrupt controllers of a PC as the drivers see it: the initialisation
  sequence, the mask register and the end-of-interrupt command on the ports, and the request lines
  and the acknowledge cycle on the other side. The slave asks on line 2 of the master. Requests are
  edge triggered and served in fully nested mode: a line in service holds back itself and all lines
  of lower priority. Command words that no driver here writes do nothing in this model.
Imports: CustomKernel.Library.PortProgram, Mathlib.Tactic
Trusted boundary: the description of the device
Main exports: Pic, PicPair, picDevice, PicPair.raise, PicPair.Delivers, PicPair.acknowledge,
  PicPair.vector
-/
import CustomKernel.Library.PortProgram
import Mathlib.Tactic

namespace CustomKernel

/-- What a byte written to the data port means. -/
inductive PicStage where
  /-- `OCW1`: the mask. -/
  | ready
  | icw2
  | icw3
  | icw4
deriving DecidableEq, Repr

/-- One controller. -/
structure Pic where
  stage : PicStage
  icw1 : BitVec 8
  /-- The vector of line 0. -/
  vectorBase : BitVec 8
  /-- Where the other controller is connected. -/
  cascade : BitVec 8
  mode : BitVec 8
  /-- Interrupt mask register. -/
  imr : BitVec 8
  /-- Interrupt request register. -/
  irr : BitVec 8
  /-- In-service register. -/
  isr : BitVec 8
deriving DecidableEq, Repr

namespace Pic

/-- The in-service register after a non-specific end of interrupt: the line of highest priority, which
    is the lowest bit that is set, is no longer in service. -/
def withoutHighest (isr : BitVec 8) : BitVec 8 := isr &&& (isr - 1)

/-- A byte written to the command port. With bit 4 it is `ICW1` and starts the initialisation. -/
def writeCommand (p : Pic) (v : BitVec 8) : Pic :=
  if v.getLsbD 4 then
    { p with
      stage := .icw2
      icw1 := v
      mode := if v.getLsbD 0 then p.mode else 0
      imr := 0
      irr := 0
      isr := 0 }
  else if v.getLsbD 3 = false ∧ v >>> 5 = 1 then { p with isr := withoutHighest p.isr }
  else p

/-- What follows `ICW3`, or `ICW2` in a system with a single controller. -/
def afterCascade (p : Pic) : PicStage := if p.icw1.getLsbD 0 then .icw4 else .ready

/-- A byte written to the data port. -/
def writeData (p : Pic) (v : BitVec 8) : Pic :=
  match p.stage with
  | .ready => { p with imr := v }
  | .icw2 =>
      { p with
        vectorBase := v &&& 0xF8
        stage := if p.icw1.getLsbD 1 then p.afterCascade else .icw3 }
  | .icw3 => { p with cascade := v, stage := p.afterCascade }
  | .icw4 => { p with mode := v, stage := .ready }

/-- Line `l` has a request that is neither masked nor held back by a line in service. -/
def Requests (p : Pic) (irr : BitVec 8) (l : Nat) : Prop :=
  irr.getLsbD l = true ∧ p.imr.getLsbD l = false ∧ ∀ j < l + 1, p.isr.getLsbD j = false

instance (p : Pic) (irr : BitVec 8) (l : Nat) : Decidable (p.Requests irr l) :=
  inferInstanceAs (Decidable (_ ∧ _ ∧ _))

/-- The line that is served next. -/
def Wins (p : Pic) (irr : BitVec 8) (l : Nat) : Prop :=
  p.Requests irr l ∧ ∀ j < l, ¬ p.Requests irr j

instance (p : Pic) (irr : BitVec 8) (l : Nat) : Decidable (p.Wins irr l) :=
  inferInstanceAs (Decidable (_ ∧ _))

/-- A rising edge on a line. -/
def raise (p : Pic) (l : Nat) : Pic := { p with irr := p.irr ||| BitVec.twoPow 8 l }

/-- The line goes into service, and its request is taken. -/
def serve (p : Pic) (l : Nat) : Pic :=
  { p with irr := p.irr &&& ~~~BitVec.twoPow 8 l, isr := p.isr ||| BitVec.twoPow 8 l }

end Pic

/-- Both controllers. -/
structure PicPair where
  master : Pic
  slave : Pic
deriving DecidableEq, Repr

/-- The ports of the master's command and data register, then those of the slave. -/
def pic1Cmd : Port := 0x20

def pic1Data : Port := 0x21

def pic2Cmd : Port := 0xA0

def pic2Data : Port := 0xA1

/-- The controllers on their ports. Without a read command a command port reads as the request
    register. -/
def picDevice : Device PicPair where
  write port v s :=
    if port = pic1Cmd then { s with master := s.master.writeCommand v }
    else if port = pic1Data then { s with master := s.master.writeData v }
    else if port = pic2Cmd then { s with slave := s.slave.writeCommand v }
    else if port = pic2Data then { s with slave := s.slave.writeData v }
    else s
  read port s :=
    if port = pic1Cmd then (s.master.irr, s)
    else if port = pic1Data then (s.master.imr, s)
    else if port = pic2Cmd then (s.slave.irr, s)
    else if port = pic2Data then (s.slave.imr, s)
    else (0xFF, s)

namespace PicPair

/-- The slave asks for service. -/
def SlaveAsks (s : PicPair) : Prop := ∃ l : Fin 8, s.slave.Requests s.slave.irr l

instance (s : PicPair) : Decidable s.SlaveAsks := inferInstanceAs (Decidable (∃ _, _))

/-- The requests the master sees. -/
def masterRequests (s : PicPair) : BitVec 8 :=
  if s.SlaveAsks then s.master.irr ||| BitVec.twoPow 8 2 else s.master.irr &&& ~~~BitVec.twoPow 8 2

/-- A device raises an interrupt: lines 8 to 15 are those of the slave. -/
def raise (s : PicPair) (irq : Nat) : PicPair :=
  if irq < 8 then { s with master := s.master.raise irq }
  else { s with slave := s.slave.raise (irq - 8) }

/-- The interrupt the processor is given, if it accepts one. -/
def Delivers (s : PicPair) (irq : Nat) : Prop :=
  if irq < 8 then irq ≠ 2 ∧ s.master.Wins s.masterRequests irq
  else irq < 16 ∧ s.master.Wins s.masterRequests 2 ∧ s.slave.Wins s.slave.irr (irq - 8)

instance (s : PicPair) (irq : Nat) : Decidable (s.Delivers irq) := by
  unfold Delivers
  infer_instance

/-- The processor acknowledges it. -/
def acknowledge (s : PicPair) (irq : Nat) : PicPair :=
  if irq < 8 then { s with master := s.master.serve irq }
  else { master := s.master.serve 2, slave := s.slave.serve (irq - 8) }

/-- The vector it is given for it. -/
def vector (s : PicPair) (irq : Nat) : BitVec 8 :=
  if irq < 8 then s.master.vectorBase + BitVec.ofNat 8 irq
  else s.slave.vectorBase + BitVec.ofNat 8 (irq - 8)

end PicPair

end CustomKernel
