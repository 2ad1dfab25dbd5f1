/-
Module: CustomKernel.Proofs.TimerDelivery
Layer: Proofs
Purpose: Interrupts across context switches. `timer_handler` ends its interrupt behind
  `scheduler_tick`, so that it is up to the process switched to: one that was itself switched out in
  `timer_handler` ends it there, a new one in its trampoline, but one that was switched out inside a
  system call does not. From then on the line of the timer is in service, and neither the timer nor
  any other line gets through until that process gives the processor up itself.
Imports: CustomKernel.Cpu.Idt, CustomKernel.Proofs.PicLines, CustomKernel.Proofs.SyscallFrame
Trusted boundary: the C code of a handler is its port accesses and its calls of the scheduler
Main exports: Continuation, InterruptKernel, InterruptKernel.Step, InterruptKernel.Blocked,
  DeliveryInv, timer_delivery
-/
import CustomKernel.Cpu.Idt
import CustomKernel.Proofs.PicLines
import CustomKernel.Proofs.SyscallFrame

namespace CustomKernel

open StepSystem Scheduler

/-! ### The system -/

/-- Where a process goes on when `context_switch` returns to it. -/
inductive Continuation where
  /-- It has not run yet. -/
  | trampoline
  /-- Behind the `scheduler_tick` of `timer_handler`. -/
  | timerHandler
  /-- Inside a system call. -/
  | systemCall
deriving DecidableEq, Repr

/-- What the process does to the controllers before it runs its own code. -/
def Continuation.ends : Continuation → PicPair → PicPair
  | .trampoline, pics | .timerHandler, pics => (picSendEoi 0).exec picDevice pics
  | .systemCall, pics => pics

/-- The scheduler, the controllers, the interrupt flag, how the processes have been switched out, and
    the continuations that have been taken since the last timer interrupt. -/
structure InterruptKernel where
  sched : Scheduler
  pics : PicPair
  interrupts : Bool
  suspended : Nat → Continuation
  resumed : List Continuation

/-- What can happen. -/
inductive InterruptEvent where
  /-- A device raises its line. -/
  | raise (irq : Nat)
  /-- The processor takes an interrupt. -/
  | interrupt (irq : Nat)
  /-- `syscall`, by the current process. -/
  | syscall
  /-- A part of a system call that ends in `scheduler_tick`. -/
  | call (event : Scheduler.Event)
  | sysret
deriving DecidableEq, Repr

/-- The handlers that `idt_init`, `keyboard_init` and `timer_init` have registered. -/
def kernelHandlers : IsrHandlers :=
  idtRegisterHandler
    (idtRegisterHandler (idtInit 0 (fun _ => 0) (fun _ => 0) noHandlers).2.2
      33 (some .keyboardHandler))
    32 (some .timerHandler)

namespace InterruptKernel

/-- `scheduler_tick` has been called at `own` and has led to `sched`: the processor goes on there, or
    where the process that is current now was switched out. Interrupts are off inside system calls. -/
def goOn (k : InterruptKernel) (own : Continuation) (sched : Scheduler) : InterruptKernel :=
  let how := if sched.current = k.sched.current then own else k.suspended sched.current
  { sched := sched
    pics := how.ends k.pics
    interrupts := decide (how ≠ .systemCall)
    suspended := Function.update k.suspended k.sched.current own
    resumed := k.resumed ++ [how] }

/-- What a handler does. The two that print an exception do not return. -/
def Handled (k : InterruptKernel) : Option Handler → InterruptKernel → Prop
  | some .timerHandler, k' => ∃ sched, k.sched.EventStep .timer sched ∧
      k' = { k with resumed := [] }.goOn .timerHandler sched
  | some .keyboardHandler, k' => ∃ sched, (sched = k.sched ∨ k.sched.EventStep .key sched) ∧
      k' = { k with sched := sched, pics := (picSendEoi 1).exec picDevice k.pics }
  | some .pageFaultHandler, _ | some .udHandler, _ => False
  | none, k' => k' = k

/-- One event. -/
def Step (k : InterruptKernel) : InterruptEvent → InterruptKernel → Prop
  | .raise irq, k' => k' = { k with pics := k.pics.raise irq }
  | .interrupt irq, k' => k.interrupts = true ∧ k.pics.Delivers irq ∧
      ∃ handler, kernelHandlers.load (k.pics.vector irq).toNat = some handler ∧
        { k with pics := k.pics.acknowledge irq }.Handled handler k'
  | .syscall, k' => k.interrupts = true ∧ k.sched.current ≠ k.sched.idle ∧
      k' = { k with interrupts := false }
  | .call event, k' => k.interrupts = false ∧ Scheduler.GivesUp event ∧
      ∃ sched, k.sched.EventStep event sched ∧ k' = k.goOn .systemCall sched
  | .sysret, k' => k.interrupts = false ∧ k' = { k with interrupts := true }

/-- `pic_init`, `keyboard_init`, `timer_init` and `scheduler_start` have been called, and the first
    process has left its trampoline. -/
def start (s : Scheduler) (pics : PicPair) : InterruptKernel where
  sched := s.schedulerStart
  pics := Continuation.trampoline.ends
    ([PicCall.unmask 1, .unmask 0].foldl PicPair.call (picInit.exec picDevice pics))
  interrupts := true
  suspended _ := .trampoline
  resumed := [.trampoline]

/-- Since the last timer interrupt only processes inside system calls have been resumed. -/
def Blocked (k : InterruptKernel) : Prop := ∀ how ∈ k.resumed, how = .systemCall

instance (k : InterruptKernel) : Decidable k.Blocked :=
  inferInstanceAs (Decidable (∀ how ∈ k.resumed, _))

end InterruptKernel

/-! ### In-service bits -/

/-- The end of an interrupt on a master whose timer line may be in service: the timer's bit is
    cleared, and no bit is set. -/
theorem withoutHighest_timer : ∀ isr : BitVec 8, isr.getLsbD 1 = false →
    (Pic.withoutHighest isr).getLsbD 0 = false ∧ (Pic.withoutHighest isr).getLsbD 1 = false := by
  decide +kernel

/-- The end of the keyboard's interrupt. -/
theorem withoutHighest_keyboard : ∀ isr : BitVec 8, isr.getLsbD 0 = false →
    (Pic.withoutHighest (isr ||| BitVec.twoPow 8 1)).getLsbD 0 = false ∧
      (Pic.withoutHighest (isr ||| BitVec.twoPow 8 1)).getLsbD 1 = false := by
  decide +kernel

/-- What holds of the controllers outside of handlers: line 0 is not masked, it is in service exactly
    if `blocked`, and the keyboard's line is not in service. -/
structure TimerLine (pics : PicPair) (blocked : Prop) : Prop where
  configured : pics.Configured
  unmasked : pics.masked 0 = false
  timer : pics.master.isr.getLsbD 0 = true ↔ blocked
  keyboard : pics.master.isr.getLsbD 1 = false

namespace TimerLine

variable {pics : PicPair} {blocked : Prop}

theorem timer_eq_false (h : TimerLine pics blocked) (hb : ¬ blocked) :
    pics.master.isr.getLsbD 0 = false :=
  Bool.eq_false_iff.2 fun ht => hb (h.timer.1 ht)

theorem congr {blocked' : Prop} (h : TimerLine pics blocked) (hb : blocked ↔ blocked') :
    TimerLine pics blocked' :=
  { h with timer := h.timer.trans hb }

/-- A line that is raised has no effect on what is in service. -/
theorem raise (h : TimerLine pics blocked) (irq : Nat) : TimerLine (pics.raise irq) blocked := by
  have hisr : (pics.raise irq).master.isr = pics.master.isr := by
    rw [PicPair.raise]
    split <;> rfl
  exact ⟨h.configured.call (.raise irq),
    (masked_call h.configured (c := .raise irq) trivial (by decide)).trans h.unmasked,
    hisr ▸ h.timer, hisr ▸ h.keyboard⟩

/-- What the master has in service when the processor acknowledges an interrupt. -/
theorem acknowledge_isr (pics : PicPair) (irq : Nat) :
    (pics.acknowledge irq).master.isr =
      pics.master.isr ||| BitVec.twoPow 8 (if irq < 8 then irq else 2) := by
  rw [PicPair.acknowledge]
  split <;> rfl

/-- The end of an interrupt by the line of the timer. -/
theorem eoi (h : TimerLine pics blocked) (irq : BitVec 8) {blocked' : Prop} (hb : ¬ blocked') :
    TimerLine ((picSendEoi irq).exec picDevice pics) blocked' := by
  have hisr : ((picSendEoi irq).exec picDevice pics).master.isr =
      Pic.withoutHighest pics.master.isr := by
    rw [picSendEoi_exec]
    rfl
  obtain ⟨htimer, hkeyboard⟩ := withoutHighest_timer _ h.keyboard
  refine ⟨h.configured.call (.sendEoi irq),
    (masked_call h.configured (c := .sendEoi irq) trivial (by decide)).trans h.unmasked, ?_, ?_⟩
  · rw [hisr, htimer]
    exact ⟨fun ht => absurd ht (by decide), fun hb' => absurd hb' hb⟩
  · rw [hisr, hkeyboard]

/-- The timer's interrupt puts line 0 into service. -/
theorem acknowledge_timer (h : TimerLine pics blocked) : TimerLine (pics.acknowledge 0) True := by
  refine ⟨h.configured.call (.acknowledge 0),
    (masked_call h.configured (c := .acknowledge 0) trivial (by decide)).trans h.unmasked, ?_, ?_⟩
  · rw [acknowledge_isr]
    simp
  · rw [acknowledge_isr]
    simpa using h.keyboard

/-- The keyboard's interrupt is taken when line 0 is not in service, and ended by its handler. -/
theorem keyboard_handled (h : TimerLine pics blocked) (hb : ¬ blocked) :
    TimerLine ((picSendEoi 1).exec picDevice (pics.acknowledge 1)) blocked := by
  have hconfigured := h.configured.call (.acknowledge 1)
  have hisr : ((picSendEoi 1).exec picDevice (pics.acknowledge 1)).master.isr =
      Pic.withoutHighest (pics.master.isr ||| BitVec.twoPow 8 1) := by
    rw [picSendEoi_exec]
    rfl
  obtain ⟨htimer, hkeyboard⟩ := withoutHighest_keyboard _ (h.timer_eq_false hb)
  refine ⟨hconfigured.call (.sendEoi 1),
    (masked_call hconfigured (c := .sendEoi 1) trivial (by decide)).trans
      ((masked_call h.configured (c := .acknowledge 1) trivial (by decide)).trans h.unmasked), ?_, ?_⟩
  · rw [hisr, htimer]
    exact ⟨fun ht => absurd ht (by decide), fun hb' => absurd hb' hb⟩
  · rw [hisr, hkeyboard]

/-- An interrupt without a handler stays in service, but is of lower priority than both. -/
theorem acknowledge_other (h : TimerLine pics blocked) {irq : Nat} (h0 : irq ≠ 0) (h1 : irq ≠ 1) :
    TimerLine (pics.acknowledge irq) blocked := by
  have hline : ∀ n < 2, (BitVec.twoPow 8 (if irq < 8 then irq else 2)).getLsbD n = false := by
    intro n hn
    rw [BitVec.getLsbD_twoPow]
    simp only [Bool.and_eq_false_iff, decide_eq_false_iff_not]
    right
    split <;> omega
  have hisr : ∀ n < 2, (pics.acknowledge irq).master.isr.getLsbD n = pics.master.isr.getLsbD n := by
    intro n hn
    rw [acknowledge_isr, BitVec.getLsbD_or, hline n hn, Bool.or_false]
  refine ⟨h.configured.call (.acknowledge irq),
    (masked_call h.configured (c := .acknowledge irq) trivial (by decide)).trans h.unmasked, ?_, ?_⟩
  · rw [hisr 0 (by decide)]
    exact h.timer
  · rw [hisr 1 (by decide)]
    exact h.keyboard

/-- There are 16 lines. -/
theorem lt_of_delivers {irq : Nat} (h : pics.Delivers irq) : irq < 16 := by
  rw [PicPair.Delivers] at h
  split at h
  · omega
  · exact h.1

/-- Nothing is delivered while line 0 is in service. -/
theorem not_delivers (h : TimerLine pics blocked) (hb : blocked) (irq : Nat) :
    ¬ pics.Delivers irq := by
  have htimer := h.timer.2 hb
  have hwins : ∀ l, ¬ pics.master.Wins pics.masterRequests l := fun l hw => by
    rw [hw.1.2.2 0 (Nat.succ_pos l)] at htimer
    exact absurd htimer (by decide)
  rw [PicPair.Delivers]
  split
  · exact fun hd => hwins irq hd.2
  · exact fun hd => hwins 2 hd.2.1

/-- The timer is delivered as soon as it asks, exactly if line 0 is not in service. -/
theorem delivers_iff (h : TimerLine pics blocked) : (pics.raise 0).Delivers 0 ↔ ¬ blocked := by
  refine ⟨fun hd hb => (h.raise 0).not_delivers hb 0 hd, fun hb => ?_⟩
  have hrequests : (pics.raise 0).masterRequests.getLsbD 0 = true := by
    rw [PicPair.masterRequests]
    split <;> simp [PicPair.raise, Pic.raise]
  have hmask : (pics.raise 0).master.imr.getLsbD 0 = false := (h.raise 0).unmasked
  refine ⟨by decide, ⟨hrequests, hmask, fun j hj => ?_⟩, fun j hj => absurd hj (Nat.not_lt_zero j)⟩
  obtain rfl : j = 0 := by omega
  exact (h.raise 0).timer_eq_false hb

end TimerLine

/-! ### Invariant -/

namespace InterruptKernel

variable {k k' : InterruptKernel}

/-- The controllers agree with the continuations, and idle is never inside a system call. -/
structure DeliveryInv (k : InterruptKernel) : Prop where
  sched : SchedulerInv k.sched
  line : TimerLine k.pics k.Blocked
  idle : k.suspended k.sched.idle ≠ .systemCall
  idle_runs : k.sched.current = k.sched.idle → ¬ k.Blocked

/-- The table of handlers. -/
theorem kernelHandlers_cells (v : Int) :
    kernelHandlers.cells v =
      if v = 32 then some .timerHandler
      else if v = 33 then some .keyboardHandler
      else if v = 6 then some .udHandler
      else if v = 14 then some .pageFaultHandler else none := rfl

/-- The handlers of the lines. -/
theorem kernelHandlers_irq {irq : Nat} (h : irq < 16) :
    kernelHandlers.load ((32 + irq : Nat) : Int) =
      some (if irq = 0 then some .timerHandler
        else if irq = 1 then some .keyboardHandler else none) := by
  have h256 : ((32 + irq : Nat) : Int) < (256 : Nat) := by omega
  have h0 : ((32 + irq : Nat) : Int) = 32 ↔ irq = 0 := by omega
  have h1 : ((32 + irq : Nat) : Int) = 33 ↔ irq = 1 := by omega
  have h6 : ((32 + irq : Nat) : Int) ≠ 6 := by omega
  have h14 : ((32 + irq : Nat) : Int) ≠ 14 := by omega
  rw [LocalArray.load, if_pos ⟨Int.natCast_nonneg _, h256⟩, kernelHandlers_cells]
  simp only [h0, h1, h6, h14, if_false]

theorem blocked_append {resumed : List Continuation} {how : Continuation} :
    (∀ h ∈ resumed ++ [how], h = .systemCall) ↔
      (∀ h ∈ resumed, h = .systemCall) ∧ how = .systemCall := by
  simp only [List.forall_mem_append, List.forall_mem_singleton]

/-- A process goes on: its continuation decides whether line 0 stays in service. -/
theorem TimerLine.ends {pics : PicPair} {resumed : List Continuation}
    (h : TimerLine pics (∀ h ∈ resumed, h = .systemCall)) (how : Continuation) :
    TimerLine (how.ends pics) (∀ h ∈ resumed ++ [how], h = .systemCall) := by
  cases how with
  | systemCall => exact h.congr (blocked_append.trans (and_iff_left rfl)).symm
  | trampoline => exact h.eoi 0 fun hb => by cases (blocked_append.1 hb).2
  | timerHandler => exact h.eoi 0 fun hb => by cases (blocked_append.1 hb).2

/-- Going on keeps the invariant, provided that idle makes no calls. -/
theorem DeliveryInv.goOn {own : Continuation} {sched : Scheduler} (line : TimerLine k.pics k.Blocked)
    (hidle : k.suspended k.sched.idle ≠ .systemCall)
    (hown : k.sched.current = k.sched.idle → own ≠ .systemCall) (hsched : SchedulerInv sched)
    (hsame : sched.idle = k.sched.idle) : DeliveryInv (k.goOn own sched) where
  sched := hsched
  line := TimerLine.ends line _
  idle := by
    show Function.update k.suspended k.sched.current own sched.idle ≠ .systemCall
    rw [hsame]
    by_cases h : k.sched.idle = k.sched.current
    · rw [h, Function.update_self]
      exact hown h.symm
    · rwa [Function.update_of_ne h]
  idle_runs hcur hb := by
    have hcur' : sched.current = sched.idle := hcur
    have hhow := (blocked_append.1 hb).2
    by_cases h : sched.current = k.sched.current
    · rw [if_pos h] at hhow
      exact hown (by rw [← h, hcur', hsame]) hhow
    · rw [if_neg h, hcur', hsame] at hhow
      exact hidle hhow

/-- Calling `scheduler_tick` does not change which process is idle. -/
theorem tickState_idle {s t : Scheduler} {e : Event} (ht : s.tickState e = some t) :
    t.idle = s.idle := by
  cases e with
  | key => cases ht
  | add address created => cases ht
  | timer => exact Option.some.inj ht ▸ rfl
  | yield => exact Option.some.inj ht ▸ rfl
  | sleep ticks => exact Option.some.inj ht ▸ rfl
  | read => exact Option.some.inj ht ▸ rfl
  | exit => exact Option.some.inj ht ▸ rfl

/-- The idle process stays the same. -/
theorem idle_of_event (inv : SchedulerInv k.sched) {e : Event} {sched : Scheduler}
    (step : k.sched.EventStep e sched) : sched.idle = k.sched.idle := by
  rcases eventStep_cases inv step with ⟨t, ht, -, -, -, -, -, rfl⟩ | ⟨-, rfl⟩ |
    ⟨address, created, -, hne, hfresh, hadd⟩
  · rw [ticked_idle, tickState_idle ht]
  · exact (keyWoken_rest k.sched).2.1
  · exact (schedulerAdd_spec inv.ring hne hfresh hadd).2.2.2.1

/-- Waking a reader changes neither the current process nor idle. -/
theorem key_of_event (inv : SchedulerInv k.sched) {sched : Scheduler}
    (step : k.sched.EventStep .key sched) :
    sched.current = k.sched.current ∧ sched.idle = k.sched.idle := by
  rcases eventStep_cases inv step with ⟨t, ht, -⟩ | ⟨-, rfl⟩ | ⟨address, created, h, -⟩
  · cases ht
  · exact ⟨(keyWoken_rest k.sched).1, (keyWoken_rest k.sched).2.1⟩
  · cases h

/-- The system calls are not those of idle. -/
theorem calls_not_idle {event : Event} (hgives : Scheduler.GivesUp event) {sched : Scheduler}
    (step : k.sched.EventStep event sched) : k.sched.current ≠ k.sched.idle := by
  cases event with
  | yield => exact step.1
  | sleep ticks => exact step.1
  | read => exact step.1
  | exit => exact step.1
  | timer => exact hgives.elim
  | key => exact hgives.elim
  | add address created => exact hgives.elim

/-- One event keeps the invariant. -/
theorem DeliveryInv.step (inv : DeliveryInv k) {e : InterruptEvent} (step : k.Step e k') :
    DeliveryInv k' := by
  cases e with
  | raise irq =>
      obtain rfl := step
      exact { inv with line := inv.line.raise irq }
  | interrupt irq =>
      obtain ⟨-, hdelivers, handler, hload, handled⟩ := step
      have hirq : irq < 16 := TimerLine.lt_of_delivers hdelivers
      have hb : ¬ k.Blocked := fun hb => inv.line.not_delivers hb irq hdelivers
      rw [inv.line.configured.vector hirq, kernelHandlers_irq hirq] at hload
      obtain rfl := Option.some.inj hload
      by_cases h0 : irq = 0
      · -- the timer: whoever goes on starts with line 0 in service
        subst h0
        obtain ⟨sched, hevent, rfl⟩ := handled
        have hline := inv.line.acknowledge_timer
        exact DeliveryInv.goOn (hline.congr ⟨fun _ h hh => (by cases hh), fun _ => trivial⟩) inv.idle
          (fun _ => by decide) (inv.sched.of_event hevent) (idle_of_event inv.sched hevent)
      · rw [if_neg h0] at handled
        by_cases h1 : irq = 1
        · subst h1
          obtain ⟨sched, hsched, rfl⟩ := handled
          have hline := inv.line.keyboard_handled hb
          rcases hsched with rfl | hevent
          · exact { inv with line := hline }
          · obtain ⟨hcur, hidle⟩ := key_of_event inv.sched hevent
            exact ⟨inv.sched.of_event hevent, hline, by rw [hidle]; exact inv.idle,
              by rw [hcur, hidle]; exact inv.idle_runs⟩
        · rw [if_neg h1] at handled
          obtain rfl := handled
          exact { inv with line := inv.line.acknowledge_other h0 h1 }
  | syscall =>
      obtain ⟨-, -, rfl⟩ := step
      exact { inv with }
  | call event =>
      obtain ⟨-, hgives, sched, hevent, rfl⟩ := step
      exact DeliveryInv.goOn inv.line inv.idle (fun h => absurd h (calls_not_idle hgives hevent))
        (inv.sched.of_event hevent) (idle_of_event inv.sched hevent)
  | sysret =>
      obtain ⟨-, rfl⟩ := step
      exact { inv with }

/-- Unmasking a line leaves the lines in service alone. -/
theorem unmask_isr {pics : PicPair} (h : pics.Configured) (irq : BitVec 8) :
    (pics.call (.unmask irq)).master.isr = pics.master.isr := by
  show ((updateMask irq _).exec picDevice pics).master.isr = _
  rw [updateMask_exec h]
  split <;> rfl

/-- The controllers when the scheduler starts, whatever the firmware has left in them. -/
theorem timerLine_boot (pics : PicPair) :
    TimerLine ([PicCall.unmask 1, .unmask 0].foldl PicPair.call (picInit.exec picDevice pics))
      False := by
  have hinit := picInit_configured pics
  have hisr : ([PicCall.unmask 1, .unmask 0].foldl PicPair.call
      (picInit.exec picDevice pics)).master.isr = 0 := by
    rw [List.foldl_cons, List.foldl_cons, List.foldl_nil, unmask_isr (hinit.call _),
      unmask_isr hinit, picInit_exec]
  refine ⟨(hinit.call (.unmask 1)).call (.unmask 0), ?_, by rw [hisr]; decide, by rw [hisr]; rfl⟩
  exact masked_call (hinit.call _) (c := .unmask 0) (show (0 : Nat) < 40 by decide) (by decide)

theorem deliveryInv_start {s : Scheduler} (prepared : Prepared s) (pics : PicPair) :
    DeliveryInv (start s pics) := by
  have hnot : ¬ (start s pics).Blocked := fun h => by
    cases h .trampoline (List.mem_singleton.2 rfl)
  exact ⟨schedulerStart_inv prepared.inv, (timerLine_boot pics).eoi 0 hnot,
    by simp [start], fun _ => hnot⟩

/-- While the timer's line is in service and nobody gives the processor up, nothing happens to the
    scheduler. -/
theorem blocked_of_event (inv : DeliveryInv k) (hb : k.Blocked) {e : InterruptEvent}
    (hcall : ∀ event, e ≠ .call event) (step : k.Step e k') :
    k'.Blocked ∧ k'.sched = k.sched := by
  cases e with
  | raise irq =>
      obtain rfl := step
      exact ⟨hb, rfl⟩
  | interrupt irq =>
      exact absurd step.2.1 (inv.line.not_delivers hb irq)
  | syscall =>
      obtain ⟨-, -, rfl⟩ := step
      exact ⟨hb, rfl⟩
  | call event =>
      exact absurd rfl (hcall event)
  | sysret =>
      obtain ⟨-, rfl⟩ := step
      exact ⟨hb, rfl⟩

theorem blocked_of_run {events : List InterruptEvent} (run : Run Step k events k')
    (inv : DeliveryInv k) (hb : k.Blocked) (hcalls : ∀ event, .call event ∉ events) :
    DeliveryInv k' ∧ k'.Blocked ∧ k'.sched = k.sched := by
  induction run with
  | nil => exact ⟨inv, hb, rfl⟩
  | cons head _ ih =>
      obtain ⟨hb', hsched⟩ := blocked_of_event inv hb
        (fun event h => hcalls event (h ▸ List.mem_cons_self)) head
      obtain ⟨inv', hb'', hsched'⟩ := ih (inv.step head) hb'
        fun event h => hcalls event (List.mem_cons_of_mem _ h)
      exact ⟨inv', hb'', hsched'.trans hsched⟩

/-- In every run after `scheduler_start`, whatever the firmware has left in the controllers, the
    timer gets through as soon as it asks exactly if some process that was resumed since its last
    interrupt was not resumed inside a system call; it always does while idle runs. Otherwise no line
    gets through, and until the process that runs gives the processor up by itself, whatever is
    raised, no process is woken or switched to and no tick is counted. -/
theorem timer_delivery (s : Scheduler) (pics : PicPair) (k : InterruptKernel)
    (events : List InterruptEvent) (prepared : Prepared s) (run : Run Step (start s pics) events k) :
    ((k.pics.raise 0).Delivers 0 ↔ ∃ how ∈ k.resumed, how ≠ .systemCall) ∧
      (k.sched.current = k.sched.idle → (k.pics.raise 0).Delivers 0) ∧
      ((∀ how ∈ k.resumed, how = .systemCall) → ∀ (later : List InterruptEvent) (k' : InterruptKernel),
        Run Step k later k' → (∀ event, .call event ∉ later) →
          k'.sched = k.sched ∧ ∀ irq, ¬ k'.pics.Delivers irq) := by
  have inv := run.invariant DeliveryInv (fun _ _ _ inv step => inv.step step)
    (deliveryInv_start prepared pics)
  refine ⟨?_, fun hidle => inv.line.delivers_iff.2 (inv.idle_runs hidle),
    fun hb later k' run' hcalls => ?_⟩
  · rw [inv.line.delivers_iff, Blocked]
    simp only [not_forall, exists_prop]
  · obtain ⟨inv', hb', hsched⟩ := blocked_of_run run' inv hb hcalls
    exact ⟨hsched, inv'.line.not_delivers hb'⟩

/-- The timer is raised and gets through. -/
def timed (k : InterruptKernel) (sched : Scheduler) : InterruptKernel :=
  { k with pics := (k.pics.raise 0).acknowledge 0, resumed := [] }.goOn .timerHandler sched

theorem timed_run (inv : DeliveryInv k) (hon : k.interrupts = true) (hb : ¬ k.Blocked)
    {sched : Scheduler} (hevent : k.sched.EventStep .timer sched) :
    Run Step k [.raise 0, .interrupt 0] (k.timed sched) := by
  have hraised : DeliveryInv { k with pics := k.pics.raise 0 } :=
    inv.step (e := .raise 0) rfl
  refine .cons rfl (.single ⟨hon, inv.line.delivers_iff.2 hb, some .timerHandler, ?_, sched, hevent, rfl⟩)
  rw [hraised.line.configured.vector (by decide), kernelHandlers_irq (by decide)]
  rfl

/-- Going on in another process. -/
theorem goOn_switched (k : InterruptKernel) (own : Continuation) {sched : Scheduler}
    (hne : sched.current ≠ k.sched.current) {how : Continuation}
    (hhow : k.suspended sched.current = how) :
    (k.goOn own sched).interrupts = decide (how ≠ .systemCall) ∧
      (k.goOn own sched).suspended = Function.update k.suspended k.sched.current own ∧
        (k.goOn own sched).resumed = k.resumed ++ [how] := by
  subst hhow
  unfold goOn
  rw [if_neg hne]
  exact ⟨rfl, rfl, rfl⟩

theorem timed_switched (k : InterruptKernel) {sched : Scheduler}
    (hne : sched.current ≠ k.sched.current) {how : Continuation}
    (hhow : k.suspended sched.current = how) :
    (k.timed sched).interrupts = decide (how ≠ .systemCall) ∧
      (k.timed sched).suspended = Function.update k.suspended k.sched.current .timerHandler ∧
        (k.timed sched).resumed = [how] :=
  goOn_switched { k with pics := (k.pics.raise 0).acknowledge 0, resumed := [] } .timerHandler hne hhow

theorem timed_sched (k : InterruptKernel) (sched : Scheduler) : (k.timed sched).sched = sched := rfl

section TwoProcesses

open SyscallKernel (toThird toIdle toSecond start_currents toThird_currents toIdle_current
  toSecond_current toThird_step toIdle_step toSecond_step)

/-- Controllers with nothing masked and nothing pending. -/
def openPics : PicPair := ⟨⟨.ready, 0, 0, 0, 0, 0, 0, 0⟩, ⟨.ready, 0, 0, 0, 0, 0, 0, 0⟩⟩

/-- Process 2 has yielded to process 3, which starts. -/
def secondYielded : InterruptKernel :=
  { start twoAdded openPics with interrupts := false }.goOn .systemCall toThird

theorem secondYielded_run :
    Run Step (start twoAdded openPics) [.syscall, .call .yield] secondYielded := by
  have hne : twoAdded.schedulerStart.current ≠ twoAdded.schedulerStart.idle := by
    rw [start_currents.1, start_currents.2]
    decide
  exact .cons ⟨rfl, hne, rfl⟩ (.single ⟨rfl, trivial, toThird, toThird_step, rfl⟩)

theorem secondYielded_spec : secondYielded.interrupts = true ∧
    secondYielded.suspended = Function.update (fun _ => .trampoline) 2 .systemCall ∧
      secondYielded.resumed = [.trampoline, .trampoline] := by
  have hne : toThird.current ≠ twoAdded.schedulerStart.current := by
    rw [start_currents.1, toThird_currents.1]
    decide
  have h := @goOn_switched { start twoAdded openPics with interrupts := false } .systemCall _ hne
    .trampoline rfl
  exact ⟨h.1, by rw [← start_currents.1]; exact h.2.1, h.2.2⟩

/-- A tick then leads to idle, which starts. -/
theorem idleTimed_spec : (secondYielded.timed toIdle).interrupts = true ∧
    (secondYielded.timed toIdle).suspended 2 = .systemCall ∧
      (secondYielded.timed toIdle).resumed = [.trampoline] := by
  have hsched : secondYielded.sched = toThird := rfl
  have hne : toIdle.current ≠ secondYielded.sched.current := by
    rw [hsched, toIdle_current, toThird_currents.1]
    decide
  have hhow : secondYielded.suspended toIdle.current = .trampoline := by
    rw [secondYielded_spec.2.1, toIdle_current]
    rfl
  obtain ⟨hon, hsuspended, hresumed⟩ := timed_switched secondYielded hne hhow
  refine ⟨hon, ?_, hresumed⟩
  rw [hsuspended, secondYielded_spec.2.1, hsched, toThird_currents.1]
  rfl

/-- The next one leads into the call of process 2. -/
theorem secondTimed_spec : ((secondYielded.timed toIdle).timed toSecond).interrupts = false ∧
    ((secondYielded.timed toIdle).timed toSecond).resumed = [.systemCall] := by
  have hne : toSecond.current ≠ (secondYielded.timed toIdle).sched.current := by
    rw [timed_sched, toIdle_current, toSecond_current]
    decide
  have hhow : (secondYielded.timed toIdle).suspended toSecond.current = .systemCall := by
    rw [toSecond_current]
    exact idleTimed_spec.2.1
  obtain ⟨hoff, -, hresumed⟩ := timed_switched (secondYielded.timed toIdle) hne hhow
  exact ⟨hoff, hresumed⟩

/-- Process 2 is back in its program, with interrupts on, and none gets through. -/
theorem timer_delivery_after_yield : ∃ events k, Run Step (start twoAdded openPics) events k ∧
    k.sched.current = 2 ∧ k.interrupts = true ∧ ∀ irq, ¬ k.pics.Delivers irq := by
  obtain ⟨hon, -, hresumed⟩ := secondYielded_spec
  obtain ⟨hidleOn, -, hidleResumed⟩ := idleTimed_spec
  obtain ⟨hoff, hsecondResumed⟩ := secondTimed_spec
  have reached := fun {events k} (run : Run Step (start twoAdded openPics) events k) =>
    run.invariant DeliveryInv (fun _ _ _ inv step => inv.step step)
      (deliveryInv_start twoAdded_prepared openPics)
  have toIdleRun := secondYielded_run.append (timed_run (reached secondYielded_run) hon
    (fun h => by cases h .trampoline (hresumed ▸ List.mem_cons_self)) toIdle_step)
  have toSecondRun := toIdleRun.append (timed_run (reached toIdleRun) hidleOn
    (fun h => by cases h .trampoline (hidleResumed ▸ List.mem_cons_self)) toSecond_step)
  have sysret : Run Step ((secondYielded.timed toIdle).timed toSecond) [.sysret]
      { (secondYielded.timed toIdle).timed toSecond with interrupts := true } :=
    .single ⟨hoff, rfl⟩
  have returned := toSecondRun.append sysret
  refine ⟨_, _, returned, toSecond_current, rfl, ?_⟩
  refine ((timer_delivery _ _ _ _ twoAdded_prepared returned).2.2 ?_ [] _ (.nil _) ?_).2
  · show ∀ how ∈ ((secondYielded.timed toIdle).timed toSecond).resumed, _
    rw [hsecondResumed]
    exact fun how h => List.mem_singleton.1 h
  · exact fun event h => by cases h

end TwoProcesses

end InterruptKernel

end CustomKernel
