/-
Module: CustomKernel.Proofs.DeviceBoot
Layer: Proofs
Purpose: The devices of the machine from `kernel_main` on. The drivers share the I/O space, and
  interrupts end in the middle of what a driver does; each device is nevertheless as its own driver
  leaves it, since no driver reaches for the ports of another's device, but for `timer_init`, which
  unmasks its line, and the ends of interrupts touch only the controllers.
Imports: CustomKernel.Hardware.Platform, CustomKernel.Proofs.PicLines,
  CustomKernel.Proofs.SerialLine, CustomKernel.Proofs.TimerRate, CustomKernel.Proofs.VideoMode
Trusted boundary: none (fully proved)
Main exports: bootDevices, bootDevices_exec, RunCall, InterruptedCall.exec, Platform.Running,
  device_boot
-/
import CustomKernel.Hardware.Platform
import CustomKernel.Proofs.PicLines
import CustomKernel.Proofs.SerialLine
import CustomKernel.Proofs.TimerRate
import CustomKernel.Proofs.VideoMode

namespace CustomKernel

open PortProgram

/-! ### The ports of the drivers -/

theorem picPorts_cmd : picPorts pic1Cmd := .inl rfl

theorem picPort_uses (irq : BitVec 8) : picPorts (picPort irq) := by
  unfold picPort
  split
  · exact .inr (.inl rfl)
  · exact .inr (.inr (.inr (.inl rfl)))

theorem picUnmask_uses (irq : BitVec 8) : (picUnmask irq).Uses picPorts :=
  uses_bind (uses_inb (picPort_uses irq)) fun _ => uses_outb (picPort_uses irq) _

theorem picSendEoi_uses (irq : BitVec 8) : (picSendEoi irq).Uses picPorts := by
  unfold picSendEoi
  split
  · exact uses_bind (uses_outb (.inr (.inr (.inl rfl))) _) fun _ => uses_outb picPorts_cmd _
  · exact uses_outb picPorts_cmd _

theorem picInit_uses : picInit.Uses picPorts := by
  simp [picInit, ioWait, Uses, Bind.bind, PortProgram.bind, inb, outb, picPorts, waitPort]

theorem com1_uses {register : BitVec 16} (h : uartPorts (com1 register)) (v : BitVec 8) :
    (outb (com1 register) v).Uses uartPorts :=
  uses_outb h v

theorem serialInit_uses : serialInit.Uses uartPorts :=
  uses_bind (com1_uses (by decide) _) fun _ =>
  uses_bind (com1_uses (by decide) _) fun _ =>
  uses_bind (com1_uses (by decide) _) fun _ =>
  uses_bind (com1_uses (by decide) _) fun _ =>
  uses_bind (com1_uses (by decide) _) fun _ =>
  uses_bind (com1_uses (by decide) _) fun _ => com1_uses (by decide) _

theorem serialWait_uses : ∀ budget : Nat, (serialWait budget).Uses uartPorts
  | 0 => trivial
  | budget + 1 => by
      refine uses_bind (uses_inb (by decide)) fun lsr => ?_
      split
      · exact serialWait_uses budget
      · exact uses_pure _

theorem serialPutcharPort_uses (budget : Nat) (c : BitVec 8) :
    (serialPutcharPort budget c).Uses uartPorts := by
  refine uses_bind (serialWait_uses budget) fun result => ?_
  cases result with
  | none => exact uses_pure _
  | some => exact uses_bind (com1_uses (by decide) c) fun _ => uses_pure _

theorem serialPrintPort_uses (budget : Nat) : ∀ text : List (BitVec 8),
    (serialPrintPort budget text).Uses uartPorts
  | [] => uses_pure _
  | c :: text => by
      unfold serialPrintPort
      split
      · exact uses_pure _
      · refine uses_bind (serialPutcharPort_uses budget c) fun result => ?_
        cases result with
        | none => exact uses_pure _
        | some => exact serialPrintPort_uses budget text

theorem fbTable_uses {indexPort dataPort : Port} (hindex : vgaPorts indexPort)
    (hdata : vgaPorts dataPort) (table : List (BitVec 8)) :
    (fbTable indexPort dataPort table).Uses vgaPorts :=
  uses_forRange (fun _ => uses_bind (uses_outb hindex _) fun _ => uses_outb hdata _) 0 table.length

theorem fbInit_uses : fbInit.Uses vgaPorts :=
  uses_bind (uses_outb (by decide) _) fun _ =>
  uses_bind (fbTable_uses (by decide) (by decide) _) fun _ =>
  uses_bind (uses_outb (by decide) _) fun _ =>
  uses_bind (uses_inb (by decide)) fun _ =>
  uses_bind (uses_outb (by decide) _) fun _ =>
  uses_bind (fbTable_uses (by decide) (by decide) _) fun _ =>
  uses_bind (fbTable_uses (by decide) (by decide) _) fun _ =>
  uses_bind (uses_inb (by decide)) fun _ =>
  uses_bind (fbTable_uses (by decide) (by decide) _) fun _ => uses_outb (by decide) _

theorem fbSetPalette_uses (index r g b : BitVec 8) : (fbSetPalette index r g b).Uses vgaPorts :=
  uses_bind (uses_outb (by decide) _) fun _ =>
  uses_bind (uses_outb (by decide) _) fun _ =>
  uses_bind (uses_outb (by decide) _) fun _ => uses_outb (by decide) _

theorem sysSetpalette_uses (pal : Nat → BitVec 8) : (sysSetpalette pal).Uses vgaPorts :=
  uses_forRange (fun _ => fbSetPalette_uses _ _ _ _) 0 256

/-- `timer_init` is the one driver function that talks to two devices: to the timer, and then to the
    controllers. -/
theorem timerInit_parts {frequency : BitVec 32} {program : PortProgram Unit}
    (h : timerInit frequency = some program) :
    ∃ counters : PortProgram Unit, counters.Uses pitPorts ∧
      program = counters >>= fun _ => picUnmask 0 := by
  unfold timerInit at h
  split at h
  · cases h
  · refine ⟨_, uses_bind (uses_outb (by decide) 0x36) fun _ =>
      uses_bind (uses_outb (by decide) _) fun _ => uses_outb (by decide) _,
      (Option.some.inj h).symm⟩

/-! ### Booting -/

/-- The set-up of the devices in `kernel_main`, in its order. -/
def bootDevices : Option (PortProgram Unit) := do
  let timer ← timerInit 100
  some do
    serialInit
    picInit
    keyboardInit
    timer
    fbInit

/-- A driver of one device does to the machine what it does to the device. -/
theorem pics_exec {program : PortProgram Unit} (h : program.Uses picPorts) (s : Platform) :
    program.exec platformDevice s = { s with pics := program.exec picDevice s.pics } :=
  Platform.ext (pics_part.exec_own h s)
    (pit_part.exec_other (fun _ hp => (ports_apart.1 hp).1) h s)
    (uart_part.exec_other (fun _ hp => (ports_apart.1 hp).2.1) h s)
    (vga_part.exec_other (fun _ hp => (ports_apart.1 hp).2.2) h s)

theorem pit_exec {program : PortProgram Unit} (h : program.Uses pitPorts) (s : Platform) :
    program.exec platformDevice s = { s with pit := program.exec pitDevice s.pit } :=
  Platform.ext (pics_part.exec_other (fun _ ht hp => (ports_apart.1 hp).1 ht) h s)
    (pit_part.exec_own h s)
    (uart_part.exec_other (fun _ ht => (ports_apart.2.1 ht).1) h s)
    (vga_part.exec_other (fun _ ht => (ports_apart.2.1 ht).2) h s)

theorem uart_exec {program : PortProgram Unit} (h : program.Uses uartPorts) (s : Platform) :
    program.exec platformDevice s = { s with uart := program.exec uartDevice s.uart } :=
  Platform.ext (pics_part.exec_other (fun _ hu hp => (ports_apart.1 hp).2.1 hu) h s)
    (pit_part.exec_other (fun _ hu hp => (ports_apart.2.1 hp).1 hu) h s)
    (uart_part.exec_own h s)
    (vga_part.exec_other (fun _ hu hv => ports_apart.2.2 hu hv) h s)

theorem vga_exec {program : PortProgram Unit} (h : program.Uses vgaPorts) (s : Platform) :
    program.exec platformDevice s = { s with vga := program.exec vgaDevice s.vga } :=
  Platform.ext (pics_part.exec_other (fun _ hv hp => (ports_apart.1 hp).2.2 hv) h s)
    (pit_part.exec_other (fun _ hv hp => (ports_apart.2.1 hp).2 hv) h s)
    (uart_part.exec_other (fun _ hv hu => ports_apart.2.2 hu hv) h s)
    (vga_part.exec_own h s)

/-- `timer_init` does what it does to both of its devices. -/
theorem timerInit_platform {frequency : BitVec 32} {program : PortProgram Unit}
    (h : timerInit frequency = some program) (s : Platform) :
    program.exec platformDevice s =
      { s with
        pics := (picUnmask 0).exec picDevice s.pics
        pit := program.exec pitDevice s.pit } := by
  obtain ⟨counters, huses, rfl⟩ := timerInit_parts h
  rw [exec_bind, exec_bind, picUnmask_pitDevice, pit_exec huses, pics_exec (picUnmask_uses 0)]

/-- Each device as its own driver leaves it. -/
theorem bootDevices_exec (s : Platform) :
    ∃ program timer, bootDevices = some program ∧ timerInit 100 = some timer ∧
      program.exec platformDevice s =
        { pics := (picUnmask 0).exec picDevice (keyboardInit.exec picDevice
            (picInit.exec picDevice s.pics))
          pit := timer.exec pitDevice s.pit
          uart := serialInit.exec uartDevice s.uart
          vga := fbInit.exec vgaDevice s.vga } := by
  obtain ⟨timer, htimer⟩ : ∃ timer, timerInit 100 = some timer := ⟨_, rfl⟩
  refine ⟨_, timer, by rw [bootDevices, htimer]; rfl, htimer, ?_⟩
  have hkeyboard : keyboardInit.Uses picPorts := picUnmask_uses 1
  simp only [exec_bind]
  rw [uart_exec serialInit_uses, pics_exec picInit_uses, pics_exec hkeyboard,
    timerInit_platform htimer, vga_exec fbInit_uses]

/-! ### Calls with interrupts -/

/-- What the kernel calls of these drivers when it has booted. -/
inductive RunCall where
  | serialPrint (text : List (BitVec 8))
  | setPalette (index r g b : BitVec 8)
  | sysSetpalette (pal : Nat → BitVec 8)

def RunCall.program (budget : Nat) : RunCall → PortProgram Unit
  | .serialPrint text => do
      let _ ← serialPrintPort budget text
      pure ()
  | .setPalette index r g b => fbSetPalette index r g b
  | .sysSetpalette pal => CustomKernel.sysSetpalette pal

/-- `pic_send_eoi` at the end of each of these interrupts. -/
def sendEois : List (BitVec 8) → PortProgram Unit
  | [] => pure ()
  | irq :: irqs => do
      picSendEoi irq
      sendEois irqs

/-- A call, and the interrupts that end before each of its accesses to a port. -/
structure InterruptedCall where
  call : RunCall
  irqs : Nat → List (BitVec 8)

def InterruptedCall.exec (budget : Nat) (s : Platform) (c : InterruptedCall) : Platform :=
  ((c.call.program budget).interrupted (fun n => sendEois (c.irqs n)) 0).exec platformDevice s

theorem sendEois_uses : ∀ irqs : List (BitVec 8), (sendEois irqs).Uses picPorts
  | [] => uses_pure _
  | irq :: irqs => uses_bind (picSendEoi_uses irq) fun _ => sendEois_uses irqs

/-- The controllers are configured, and mask the same lines. -/
structure PicPair.Kept (s s' : PicPair) : Prop where
  configured : s'.Configured
  masked : ∀ n < 16, s'.masked n = s.masked n

theorem sendEois_kept {s : PicPair} : ∀ (irqs : List (BitVec 8)) {s' : PicPair}, s.Kept s' →
    s.Kept ((sendEois irqs).exec picDevice s')
  | [], _, h => h
  | irq :: irqs, s', h => by
      rw [sendEois, exec_bind]
      exact sendEois_kept irqs ⟨h.configured.call (.sendEoi irq), fun n hn =>
        (@masked_call s' h.configured (.sendEoi irq) trivial n hn).trans (h.masked n hn)⟩

theorem handlers_kept {s : PicPair} {irqs : Nat → List (BitVec 8)} :
    ∀ (count n : Nat) {s' : PicPair}, s.Kept s' →
      s.Kept ((iterateFrom (fun n => sendEois (irqs n)) count n).exec picDevice s')
  | 0, _, _, h => h
  | count + 1, n, _, h => by
      rw [iterateFrom, exec_bind]
      exact handlers_kept count (n + 1) (sendEois_kept (irqs n) h)

theorem RunCall.program_uses (budget : Nat) (c : RunCall) :
    (c.program budget).Uses fun p => uartPorts p ∨ vgaPorts p := by
  cases c with
  | serialPrint text =>
      exact (uses_bind (serialPrintPort_uses budget text) fun _ => uses_pure ()).mono fun _ => .inl
  | setPalette index r g b => exact (fbSetPalette_uses index r g b).mono fun _ => .inr
  | sysSetpalette pal => exact (sysSetpalette_uses pal).mono fun _ => .inr

namespace InterruptedCall

variable {budget : Nat} {s : Platform} {c : InterruptedCall}

/-- An interrupted program of the ports `own` keeps off a device that is neither its own nor that of
    the interrupts. -/
theorem interrupted_other {σ α : Type} {part : Device σ} {ports own : Port → Prop}
    {get : Platform → σ} (h : Device.Part platformDevice part ports get)
    (hown : ∀ p, own p → ¬ ports p) (hpic : ∀ p, picPorts p → ¬ ports p)
    {program : PortProgram α} (uses : program.Uses own) (irqs : Nat → List (BitVec 8))
    (s : Platform) :
    get ((program.interrupted (fun n => sendEois (irqs n)) 0).exec platformDevice s) = get s :=
  h.run_other s (uses_interrupted (fun n => (sendEois_uses (irqs n)).mono hpic) 0 (uses.mono hown))

theorem exec_pit : (c.exec budget s).pit = s.pit :=
  interrupted_other pit_part
    (fun _ hp ht => hp.elim (ports_apart.2.1 ht).1 (ports_apart.2.1 ht).2)
    (fun _ hp => (ports_apart.1 hp).1) (c.call.program_uses budget) c.irqs s

/-- The controllers see the ends of interrupts, and nothing else. -/
theorem exec_pics {pics : PicPair} (h : pics.Kept s.pics) : pics.Kept (c.exec budget s).pics := by
  have haway : (c.call.program budget).Uses fun p => ¬ picPorts p :=
    (c.call.program_uses budget).mono fun _ hp hpic =>
      hp.elim (ports_apart.1 hpic).2.1 (ports_apart.1 hpic).2.2
  obtain ⟨count, hexec⟩ := pics_part.exec_interrupted (fun n => sendEois_uses (c.irqs n)) 0 s haway
  rw [InterruptedCall.exec, hexec]
  exact handlers_kept count 0 h

theorem handler_away {ports : Port → Prop} (h : ∀ p, picPorts p → ¬ ports p)
    (irqs : Nat → List (BitVec 8)) (n : Nat) : (sendEois (irqs n)).Uses fun p => ¬ ports p :=
  (sendEois_uses (irqs n)).mono h

end InterruptedCall

/-- What a call does to the serial port and to the VGA when nothing interrupts it. -/
def RunCall.onUart (budget : Nat) (uart : Uart) : RunCall → Uart
  | .serialPrint text => (serialPrintPort budget text).exec uartDevice uart
  | _ => uart

def RunCall.onVga (vga : VgaRegisters) : RunCall → VgaRegisters
  | .serialPrint _ => vga
  | .setPalette index r g b => (fbSetPalette index r g b).exec vgaDevice vga
  | .sysSetpalette pal => (CustomKernel.sysSetpalette pal).exec vgaDevice vga

namespace InterruptedCall

variable {budget : Nat} {s : Platform} {c : InterruptedCall}

theorem exec_uart : (c.exec budget s).uart = c.call.onUart budget s.uart := by
  have hpic : ∀ p, picPorts p → ¬ uartPorts p := fun p hp => (ports_apart.1 hp).2.1
  have hvga : ∀ p, vgaPorts p → ¬ uartPorts p := fun p hv hu => ports_apart.2.2 hu hv
  obtain ⟨call, irqs⟩ := c
  cases call with
  | serialPrint text =>
      have huses : (RunCall.program budget (.serialPrint text)).Uses uartPorts :=
        uses_bind (serialPrintPort_uses budget text) fun _ => uses_pure ()
      refine (uart_part.run_interrupted (handler_away hpic irqs) 0 s huses).2.trans ?_
      rw [RunCall.program, run_bind, run_pure]
      rfl
  | setPalette index r g b =>
      exact interrupted_other uart_part hvga hpic (fbSetPalette_uses index r g b) irqs s
  | sysSetpalette pal =>
      exact interrupted_other uart_part hvga hpic (sysSetpalette_uses pal) irqs s

theorem exec_vga : (c.exec budget s).vga = c.call.onVga s.vga := by
  have hpic : ∀ p, picPorts p → ¬ vgaPorts p := fun p hp => (ports_apart.1 hp).2.2
  have huart : ∀ p, uartPorts p → ¬ vgaPorts p := fun p hu => ports_apart.2.2 hu
  obtain ⟨call, irqs⟩ := c
  cases call with
  | serialPrint text =>
      exact interrupted_other vga_part huart hpic
        (uses_bind (serialPrintPort_uses budget text) fun _ => uses_pure ()) irqs s
  | setPalette index r g b =>
      exact (vga_part.run_interrupted (handler_away hpic irqs) 0 s
        (fbSetPalette_uses index r g b)).2
  | sysSetpalette pal =>
      exact (vga_part.run_interrupted (handler_away hpic irqs) 0 s (sysSetpalette_uses pal)).2

end InterruptedCall

/-! ### Runs -/

/-- What a call sends on the line, at the level of bytes. -/
def RunCall.print (serial : Serial) : RunCall → Serial
  | .serialPrint text => CustomKernel.serialPrint serial text
  | _ => serial

/-- What a sequence of calls sends. -/
def sentBy (calls : List InterruptedCall) (serial : Serial) : Serial :=
  calls.foldl (fun serial (c : InterruptedCall) => c.call.print serial) serial

/-- The calls of the VGA driver in a call. -/
def RunCall.videoCalls : RunCall → List VideoCall
  | .serialPrint _ => []
  | .setPalette index r g b => [.setPalette index r g b]
  | .sysSetpalette pal => [.sysSetpalette pal]

theorem RunCall.videoCalls_run (vga : VgaRegisters) (fb : Framebuffer) (c : RunCall) :
    c.videoCalls.foldl VideoCall.run ⟨vga, fb⟩ = ⟨c.onVga vga, fb⟩ := by
  cases c with
  | serialPrint text => rfl
  | setPalette index r g b => rfl
  | sysSetpalette pal => rfl

namespace InterruptedCall

variable {budget : Nat}

theorem run_pit : ∀ (calls : List InterruptedCall) (s : Platform),
    (calls.foldl (InterruptedCall.exec budget) s).pit = s.pit
  | [], _ => rfl
  | _ :: calls, _ => (run_pit calls _).trans exec_pit

theorem run_pics {pics : PicPair} : ∀ (calls : List InterruptedCall) {s : Platform},
    pics.Kept s.pics → pics.Kept (calls.foldl (InterruptedCall.exec budget) s).pics
  | [], _, h => h
  | _ :: calls, _, h => run_pics calls (exec_pics h)

theorem run_uart : ∀ (calls : List InterruptedCall) (s : Platform),
    (calls.foldl (InterruptedCall.exec budget) s).uart =
      calls.foldl (fun uart c => c.call.onUart budget uart) s.uart
  | [], _ => rfl
  | c :: calls, s => by
      rw [List.foldl_cons, List.foldl_cons, run_uart calls, exec_uart]

theorem run_vga (fb : Framebuffer) : ∀ (calls : List InterruptedCall) (s : Platform),
    ⟨(calls.foldl (InterruptedCall.exec budget) s).vga, fb⟩ =
      (calls.flatMap fun c => c.call.videoCalls).foldl VideoCall.run ⟨s.vga, fb⟩
  | [], _ => rfl
  | c :: calls, s => by
      rw [List.foldl_cons, run_vga fb calls, List.flatMap_cons, List.foldl_append,
        RunCall.videoCalls_run, exec_vga]

/-- What a call sends comes behind what has been sent before. -/
theorem print_front (c : RunCall) (serial : Serial) :
    (c.print serial).sent = serial.sent ++ (c.print {}).sent := by
  cases c with
  | serialPrint text => exact serialPrint_front text serial
  | setPalette index r g b => exact (List.append_nil _).symm
  | sysSetpalette pal => exact (List.append_nil _).symm

theorem prints_front : ∀ (calls : List InterruptedCall) (serial : Serial),
    (sentBy calls serial).sent = serial.sent ++ (sentBy calls {}).sent
  | [], _ => (List.append_nil _).symm
  | c :: calls, serial => by
      rw [sentBy, sentBy, List.foldl_cons, List.foldl_cons, ← sentBy, ← sentBy,
        prints_front calls (c.call.print serial), prints_front calls (c.call.print {}),
        print_front, List.append_assoc]

theorem call_sent (c : RunCall) {uart : Uart} (hlatch : uart.dlab = false) :
    ∃ bound uart', uart.Sent uart' (c.print {}).sent ∧
      ∀ budget, bound ≤ budget → c.onUart budget uart = uart' := by
  cases c with
  | serialPrint text =>
      obtain ⟨bound, uart', hsent, hrun⟩ := serialPrintPort_sent text hlatch
      exact ⟨bound, uart', hsent, fun budget hbudget => congrArg Prod.snd (hrun budget hbudget)⟩
  | setPalette index r g b => exact ⟨0, uart, Uart.Sent.nil uart, fun _ _ => rfl⟩
  | sysSetpalette pal => exact ⟨0, uart, Uart.Sent.nil uart, fun _ _ => rfl⟩

/-- With a large enough budget for all of them, the calls put on the line what they send at the level
    of bytes. -/
theorem run_sent : ∀ (calls : List InterruptedCall) {uart : Uart}, uart.dlab = false →
    ∃ bound uart', uart.Sent uart' (sentBy calls {}).sent ∧
      ∀ budget, bound ≤ budget →
        calls.foldl (fun uart (c : InterruptedCall) => c.call.onUart budget uart) uart = uart'
  | [], uart, _ => ⟨0, uart, Uart.Sent.nil uart, fun _ _ => rfl⟩
  | c :: calls, uart, hlatch => by
      obtain ⟨bound, uart', hsent, hrun⟩ := call_sent c.call hlatch
      obtain ⟨bound', uart'', hsent', hrun'⟩ := run_sent calls (hsent.dlab.trans hlatch)
      refine ⟨max bound bound', uart'', ?_, fun budget hbudget => ?_⟩
      · rw [sentBy, List.foldl_cons, ← sentBy, prints_front calls]
        exact hsent.append hsent'
      · rw [List.foldl_cons, hrun budget (by omega)]
        exact hrun' budget (by omega)

end InterruptedCall

/-- The devices, from the state `s` in which `kernel_main` finds them, after a sequence of calls. -/
structure Platform.Running (s s' : Platform) (calls : List InterruptedCall) : Prop where
  configured : s'.pics.Configured
  masked : ∀ n < 16, s'.pics.masked n = if n < 2 then false else s.pics.masked n
  rate : (s'.pit.counter 0).Rate 100
  line : s'.uart.line = s.uart.line ++ (sentBy calls {}).sent.map fun c => ⟨c, 3, 3⟩
  lost : s'.uart.lost = s.uart.lost
  screen : s'.vga.ShowsFramebuffer
  palette : ∀ n, s'.vga.palette.entries n =
    entryAfter (calls.flatMap fun c => c.call.videoCalls) s.vga.palette n

/-- The controllers behind `pic_init`, `keyboard_init` and `timer_init`: the lines of the timer and the
    keyboard are open, the others as the firmware has left them. -/
theorem bootPics_kept (s : PicPair) :
    ((picUnmask 0).exec picDevice (keyboardInit.exec picDevice (picInit.exec picDevice s))).Configured ∧
      ∀ n < 16, ((picUnmask 0).exec picDevice (keyboardInit.exec picDevice
        (picInit.exec picDevice s))).masked n = if n < 2 then false else s.masked n := by
  have hinit := picInit_configured s
  have hkeyboard := hinit.call (.unmask 1)
  refine ⟨hkeyboard.call (.unmask 0), fun n hn => ?_⟩
  have hone : (PicCall.unmask 1).Defined := by
    show (1 : Nat) < 40
    decide
  have hzero : (PicCall.unmask 0).Defined := by
    show (0 : Nat) < 40
    decide
  have hfirst := masked_call hinit hone hn
  have hsecond := masked_call hkeyboard hzero hn
  have hkept : (picInit.exec picDevice s).masked n = s.masked n := by
    rw [picInit_exec, PicPair.masked, PicPair.masked]
  refine hsecond.trans ?_
  rw [hfirst, hkept]
  show (if 0 = n then false else if 1 = n then false else s.masked n) = _
  by_cases hn2 : n < 2
  · rw [if_pos hn2]
    split_ifs <;> first | rfl | omega
  · rw [if_neg hn2, if_neg (by omega), if_neg (by omega)]

/-- The timer at the frequency of `kernel_main`. -/
theorem timer_hundred {timer : PortProgram Unit} (h : timerInit 100 = some timer)
    (s : IntervalTimer) : ((timer.exec pitDevice s).counter 0).Rate 100 := by
  have hrate := @quotient_fits 100 (by decide)
  rw [timerInit_exec h, rate_iff (by decide)]
  exact (period_eq_quotient (toNat_timerDivisor 100)).2 (hrate.2 (by decide))

/-- The device set-up of `kernel_main`, with the devices in any state, and then any sequence of driver
    calls, with interrupts that end before any of their accesses to a port, any number of them: the
    controllers stay configured, with the lines of the timer and the keyboard open and the others as
    before; the timer ticks at 100 Hz; the serial line carries the bytes of the calls, in order, none of
    them lost; the screen shows the frame buffer, through the palette that the calls have set. -/
theorem device_boot (s : Platform) (calls : List InterruptedCall) :
    ∃ program bound, bootDevices = some program ∧ ∀ budget, bound ≤ budget →
      s.Running (calls.foldl (InterruptedCall.exec budget) (program.exec platformDevice s)) calls := by
  obtain ⟨program, timer, hprogram, htimer, hexec⟩ := bootDevices_exec s
  have hlatch : (serialInit.exec uartDevice s.uart).dlab = false := by
    rw [serialInit_exec]
    show (0x03 : BitVec 8).getLsbD 7 = false
    decide
  obtain ⟨bound, uart', hsent, hrun⟩ := InterruptedCall.run_sent calls hlatch
  refine ⟨program, bound, hprogram, fun budget hbudget => ?_⟩
  obtain ⟨hconfigured, hmasked⟩ := bootPics_kept s.pics
  obtain ⟨hloaded, hpalette⟩ := fbInit_exec s.vga
  let booted : Platform := program.exec platformDevice s
  have hpics : booted.pics = _ := congrArg Platform.pics hexec
  have hpit : booted.pit = _ := congrArg Platform.pit hexec
  have huart : booted.uart = _ := congrArg Platform.uart hexec
  have hvga : booted.vga = _ := congrArg Platform.vga hexec
  have hkept := @InterruptedCall.run_pics budget _ calls booted
    ⟨hpics ▸ hconfigured, fun _ _ => rfl⟩
  have hline : (calls.foldl (InterruptedCall.exec budget) booted).uart = uart' := by
    rw [InterruptedCall.run_uart, huart, hrun budget hbudget]
  have hscreen := @InterruptedCall.run_vga budget { pixels := fun _ => 0 } calls booted
  obtain ⟨palette, hregisters, hentries⟩ := videoCalls_registers
    (calls.flatMap fun c => c.call.videoCalls) ⟨booted.vga, { pixels := fun _ => 0 }⟩
  have hend : (calls.foldl (InterruptedCall.exec budget) booted).vga =
      { booted.vga with palette := palette } :=
    (congrArg Video.registers hscreen).trans hregisters
  rw [serialInit_exec] at hsent
  exact
    { configured := hkept.configured
      masked := fun n hn => (hkept.masked n hn).trans (hpics ▸ hmasked n hn)
      rate := by
        rw [InterruptedCall.run_pit, hpit]
        exact timer_hundred htimer s.pit
      line := by
        rw [hline]
        exact hsent.line
      lost := by
        rw [hline]
        exact hsent.lost
      screen := by
        rw [hend, hvga]
        exact hloaded.showsFramebuffer.withPalette palette
      palette := fun n => by
        rw [hend]
        refine (hentries n).trans ?_
        rw [entryAfter, hvga, hpalette] }

end CustomKernel
