/-
Module: CustomKernel.Proofs.SerialLine
Layer: Proofs
Purpose: The serial port under its driver. After `serial_init`, whatever state the port was in and
  however long the transmitter takes for each byte, `serial_print` comes to an end, and on the line
  are the bytes that the byte-level model of `serial_print` sends, in order, none of them lost.
Imports: CustomKernel.Drivers.SerialPort, CustomKernel.Drivers.Numbers
Trusted boundary: none (fully proved)
Main exports: Uart.Sent, serialWait_run, serialPrintPort_sent, serialPrints, serial_line
-/
import CustomKernel.Drivers.SerialPort
import CustomKernel.Drivers.Numbers

namespace CustomKernel

open PortProgram

/-! ### The driver on the port -/

theorem uartDevice_write_data (v : BitVec 8) (s : Uart) :
    uartDevice.write (com1 0) v s = if s.dlab then s.setLow v else s.transmit v := rfl

theorem uartDevice_write_ier (v : BitVec 8) (s : Uart) :
    uartDevice.write (com1 1) v s = if s.dlab then s.setHigh v else { s with ier := v } := rfl

theorem uartDevice_write_fcr (v : BitVec 8) (s : Uart) :
    uartDevice.write (com1 2) v s = { s with fcr := v } := rfl

theorem uartDevice_write_lcr (v : BitVec 8) (s : Uart) :
    uartDevice.write (com1 3) v s = { s with lcr := v } := rfl

theorem uartDevice_write_mcr (v : BitVec 8) (s : Uart) :
    uartDevice.write (com1 4) v s = { s with mcr := v } := rfl

theorem uartDevice_read_status (s : Uart) : uartDevice.read (com1 5) s = s.status := rfl

theorem Uart.setLow_lcr (s : Uart) (low : BitVec 8) : (s.setLow low).lcr = s.lcr := rfl

/-- Both bytes of the divisor. -/
theorem Uart.setHigh_setLow (s : Uart) (low high : BitVec 8) :
    (s.setLow low).setHigh high = { s with divisor := high ++ low } := by
  rw [Uart.setHigh, Uart.setLow, BitVec.setWidth_append_eq_right]

/-- `serial_init` on the port in any state. Its first write is for the interrupt enable register, but
    goes to the divisor where the divisor latch is selected already. -/
theorem serialInit_exec (s : Uart) :
    serialInit.exec uartDevice s =
      { s with
        divisor := 3
        ier := if s.dlab then s.ier else 0
        fcr := 0xC7
        lcr := 0x03
        mcr := 0x0B } := by
  have hbit : (0x80 : BitVec 8).getLsbD 7 = true := by decide
  have hdivisor : (0 : BitVec 8) ++ (3 : BitVec 8) = (3 : BitVec 16) := by decide
  simp only [serialInit, exec_bind, exec_outb, uartDevice_write_data, uartDevice_write_ier,
    uartDevice_write_fcr, uartDevice_write_lcr, uartDevice_write_mcr, Uart.dlab, Uart.setLow_lcr,
    hbit, if_true, Uart.setHigh_setLow]
  by_cases hlatch : s.lcr.getLsbD 7 = true
  · simp only [hlatch, if_true, hdivisor]
    rw [Uart.setHigh]
  · simp only [hlatch, Bool.false_eq_true, if_false, hdivisor]

/-! ### Waiting -/

/-- The port has room for a byte. -/
def Uart.ready (s : Uart) : Uart := { s with busy := 0 }

/-- `serial_wait` ends when the transmitter has room, if its budget lasts until then. -/
theorem serialWait_run : ∀ {budget : Nat} {s : Uart}, s.busy < budget →
    (serialWait budget).run uartDevice s = (some (), s.ready)
  | 0, _, h => absurd h (Nat.not_lt_zero _)
  | budget + 1, s, h => by
      rw [serialWait, run_bind, run_inb, uartDevice_read_status, Uart.status]
      dsimp only
      by_cases hbusy : s.busy = 0
      · have hroom : ¬ (0x60 : BitVec 8) &&& 0x20 = 0 := by decide
        rw [if_pos hbusy, if_neg hroom, run_pure, hbusy, Uart.ready]
      · have hfull : (0 : BitVec 8) &&& 0x20 = 0 := by decide
        have hlt : ({ s with busy := s.busy - 1 } : Uart).busy < budget := by
          show s.busy - 1 < budget
          omega
        rw [if_neg hbusy, if_pos hfull, serialWait_run hlt]
        rfl

/-! ### Sending -/

/-- What sending the bytes makes of the port, but for how busy it is. -/
structure Uart.Sent (s s' : Uart) (bytes : List (BitVec 8)) : Prop where
  line : s'.line = s.line ++ bytes.map fun c => ⟨c, s.divisor, s.lcr.setWidth 7⟩
  lost : s'.lost = s.lost
  divisor : s'.divisor = s.divisor
  ier : s'.ier = s.ier
  fcr : s'.fcr = s.fcr
  lcr : s'.lcr = s.lcr
  mcr : s'.mcr = s.mcr

theorem Uart.Sent.nil (s : Uart) : s.Sent s [] :=
  ⟨(List.append_nil _).symm, rfl, rfl, rfl, rfl, rfl, rfl⟩

theorem Uart.Sent.append {s s' s'' : Uart} {first second : List (BitVec 8)}
    (h : s.Sent s' first) (h' : s'.Sent s'' second) : s.Sent s'' (first ++ second) where
  line := by
    rw [h'.line, h.line, h.divisor, h.lcr, List.map_append, List.append_assoc]
  lost := h'.lost.trans h.lost
  divisor := h'.divisor.trans h.divisor
  ier := h'.ier.trans h.ier
  fcr := h'.fcr.trans h.fcr
  lcr := h'.lcr.trans h.lcr
  mcr := h'.mcr.trans h.mcr

theorem Uart.Sent.dlab {s s' : Uart} {bytes : List (BitVec 8)} (h : s.Sent s' bytes) :
    s'.dlab = s.dlab := by
  rw [Uart.dlab, Uart.dlab, h.lcr]

theorem Uart.transmit_ready (s : Uart) (c : BitVec 8) : s.Sent (s.ready.transmit c) [c] := by
  have hroom : s.ready.busy = 0 := rfl
  rw [Uart.transmit, if_pos hroom]
  exact ⟨rfl, rfl, rfl, rfl, rfl, rfl, rfl⟩

/-- `serial_putchar` puts its byte on the line. -/
theorem serialPutcharPort_run {budget : Nat} {s : Uart} (hlatch : s.dlab = false)
    (h : s.busy < budget) (c : BitVec 8) :
    (serialPutcharPort budget c).run uartDevice s = (some (), s.ready.transmit c) := by
  have hready : s.ready.dlab = false := hlatch
  rw [serialPutcharPort, run_bind, serialWait_run h]
  dsimp only
  rw [run_bind, run_outb, uartDevice_write_data, hready]
  rfl

/-- What has been sent before stays in front. -/
theorem serialPrint_front : ∀ (text : List (BitVec 8)) (serial : Serial),
    (serialPrint serial text).sent = serial.sent ++ (serialPrint {} text).sent
  | [], _ => (List.append_nil _).symm
  | c :: text, serial => by
      rw [serialPrint, serialPrint]
      split
      · exact (List.append_nil _).symm
      · rw [serialPrint_front text (serialPutchar serial c),
          serialPrint_front text (serialPutchar {} c)]
        exact List.append_assoc _ _ _

theorem serialPrints_front : ∀ (texts : List (List (BitVec 8))) (serial : Serial),
    (texts.foldl serialPrint serial).sent = serial.sent ++ (texts.foldl serialPrint {}).sent
  | [], _ => (List.append_nil _).symm
  | text :: texts, serial => by
      rw [List.foldl_cons, List.foldl_cons, serialPrints_front texts (serialPrint serial text),
        serialPrints_front texts (serialPrint {} text), serialPrint_front text serial,
        List.append_assoc]

/-- With a large enough budget, which depends on how busy the transmitter is going to be,
    `serial_print` puts the bytes on the line that the byte-level model sends. -/
theorem serialPrintPort_sent : ∀ (text : List (BitVec 8)) {s : Uart}, s.dlab = false →
    ∃ bound s', s.Sent s' (serialPrint {} text).sent ∧ ∀ budget, bound ≤ budget →
      (serialPrintPort budget text).run uartDevice s = (some (), s')
  | [], s, _ => ⟨0, s, Uart.Sent.nil s, fun _ _ => rfl⟩
  | c :: text, s, hlatch => by
      by_cases hc : c = 0
      · refine ⟨0, s, ?_, fun budget _ => ?_⟩
        · rw [serialPrint, if_pos hc]
          exact Uart.Sent.nil s
        · rw [serialPrintPort, if_pos hc, run_pure]
      · have hfirst := s.transmit_ready c
        obtain ⟨bound, s', hsent, hrun⟩ := serialPrintPort_sent text (hfirst.dlab.trans hlatch)
        refine ⟨max (s.busy + 1) bound, s', ?_, fun budget hbudget => ?_⟩
        · rw [serialPrint, if_neg hc, serialPrint_front]
          exact hfirst.append hsent
        · rw [serialPrintPort, if_neg hc, run_bind, serialPutcharPort_run hlatch (by omega)]
          exact hrun budget (by omega)

/-! ### Calls -/

/-- Calls of `serial_print` one after the other, if they all come to an end. -/
def serialPrints (budget : Nat) (s : Uart) : List (List (BitVec 8)) → Option Uart
  | [] => some s
  | text :: texts =>
      match (serialPrintPort budget text).run uartDevice s with
      | (none, _) => none
      | (some _, s') => serialPrints budget s' texts

/-- The same for any number of calls. -/
theorem serialPrints_sent : ∀ (texts : List (List (BitVec 8))) {s : Uart}, s.dlab = false →
    ∃ bound s', s.Sent s' (texts.foldl serialPrint {}).sent ∧ ∀ budget, bound ≤ budget →
      serialPrints budget s texts = some s'
  | [], s, _ => ⟨0, s, Uart.Sent.nil s, fun _ _ => rfl⟩
  | text :: texts, s, hlatch => by
      obtain ⟨bound, s', hsent, hrun⟩ := serialPrintPort_sent text hlatch
      obtain ⟨bound', s'', hsent', hrun'⟩ := serialPrints_sent texts (hsent.dlab.trans hlatch)
      refine ⟨max bound bound', s'', ?_, fun budget hbudget => ?_⟩
      · rw [List.foldl_cons, serialPrints_front]
        exact hsent.append hsent'
      · rw [serialPrints, hrun budget (by omega)]
        exact hrun' budget (by omega)

/-- After `serial_init`, from any state of the port and for any delays of its transmitter, any sequence
    of calls of `serial_print` comes to an end. What is then new on the line are the bytes that the
    byte-level model sends, in order, each with the divisor 3 and 8 bits, no parity and one stop bit,
    and no byte was written without room for it. The interrupts of the port are off, unless it was
    left with the divisor latch selected: then they are as they were. -/
theorem serial_line (s : Uart) (texts : List (List (BitVec 8))) :
    ∃ bound s', (∀ budget, bound ≤ budget →
        serialPrints budget (serialInit.exec uartDevice s) texts = some s') ∧
      s'.line = s.line ++ (texts.foldl serialPrint {}).sent.map (fun c => ⟨c, 3, 3⟩) ∧
      s'.lost = s.lost ∧ s'.ier = (if s.dlab then s.ier else 0) ∧ s'.fcr = 0xC7 ∧
      s'.lcr = 0x03 ∧ s'.mcr = 0x0B := by
  have hlatch : (serialInit.exec uartDevice s).dlab = false := by
    rw [serialInit_exec]
    show (0x03 : BitVec 8).getLsbD 7 = false
    decide
  obtain ⟨bound, s', hsent, hrun⟩ := serialPrints_sent texts hlatch
  refine ⟨bound, s', hrun, ?_⟩
  rw [serialInit_exec] at hsent
  exact ⟨hsent.line, hsent.lost, hsent.ier, hsent.fcr, hsent.lcr, hsent.mcr⟩

end CustomKernel
