/-
Module: CustomKernel.Process.Scheduler
Layer: Process
Purpose: The round-robin scheduler of `src/process/scheduler.c` and what drives it: the timer
  interrupt of `src/drivers/timer.c`, the key interrupt's wake-up, and the scheduling part of
  `sys_exit`, `sys_yield`, `sys_sleep` and `sys_read` in `src/syscall/syscall.c`.
  The ring is the C ring: descriptors linked by `next` pointers. Its three loops walk these pointers
  and would not come back from a list that is not a ring, so they take a step budget and return
  `none` when it runs out. `members` records which descriptors have been linked in; it sets the
  budget (a walk longer than the number of nodes has met one of them twice, with the same loop
  state, and never ends) and tells which processes are fresh, and is not otherwise read.
Imports: CustomKernel.Process.Process, CustomKernel.Library.Runs
Trusted boundary: the translation of the source; descriptors are beside memory
Main exports: Scheduler, schedulerInit, schedulerAdd, schedulerTick, schedulerWakeKeyWaiter,
  schedulerStart, timerHandler, sysYield, sysSleep, sysReadBlock, sysExit, Event, EventStep
-/
import CustomKernel.Process.Process
import CustomKernel.Library.Runs

namespace CustomKernel

/-- The static data of `scheduler.c`, the descriptors it links, the tick counter of `timer.c`, and
    the two machine registers a switch loads. -/
structure Scheduler where
  procs : Nat → Process
  current : Nat
  idle : Nat
  ticks : Word
  /-- `tss.rsp0`. -/
  tssRsp0 : Word
  cr3 : Word
  /-- The descriptors linked into the ring, in the order added, idle first. -/
  members : List Nat

namespace Scheduler

/-- Step budget of a walk over the ring. -/
def walkBudget (s : Scheduler) : Nat := s.members.length + 1

/-- `scheduler_init`, where `process_create` returned `created`. -/
def schedulerInit (s : Scheduler) (created : Nat) : Scheduler :=
  { s with
    procs := setProcess s.procs created
      { s.procs created with state := .running, next := created }
    current := created
    idle := created
    members := [created] }

/-- `while (tail->next != idle) tail = tail->next`. -/
def tailLoop (procs : Nat → Process) (idle : Nat) : (budget tail : Nat) → Option Nat
  | 0, _ => none
  | budget + 1, tail =>
      if (procs tail).next ≠ idle then tailLoop procs idle budget (procs tail).next
      else some tail

/-- `scheduler_add`. -/
def schedulerAdd (s : Scheduler) (proc : Nat) : Option Scheduler :=
  if proc = 0 then some s
  else do
    let procs := setProcess s.procs proc { s.procs proc with state := .ready }
    let tail ← tailLoop procs s.idle s.walkBudget s.idle
    let procs := setProcess procs proc { procs proc with next := s.idle }
    let procs := setProcess procs tail { procs tail with next := proc }
    some { s with procs := procs, members := s.members ++ [proc] }

/-- Body of the wake loop: a sleeper whose tick has come is made ready. -/
def wakeSleeper (now : Word) (p : Process) : Process :=
  if p.state = .blocked ∧ p.waitReason = .sleep ∧ p.wakeTick ≤ now then
    { p with state := .ready, waitReason := .none }
  else p

/-- The wake loop of `scheduler_tick`: `while (p != idle) { ...; p = p->next; }`. -/
def wakeLoop (now : Word) (idle : Nat) :
    (budget : Nat) → (Nat → Process) → (p : Nat) → Option (Nat → Process)
  | 0, _, _ => none
  | budget + 1, procs, p =>
      if p = idle then some procs
      else
        let procs := setProcess procs p (wakeSleeper now (procs p))
        wakeLoop now idle budget procs (procs p).next

/-- What the selection loop passes over. -/
def Skipped (p : Process) : Prop := p.state = .dead ∨ p.state = .blocked

instance (p : Process) : Decidable (Skipped p) := inferInstanceAs (Decidable (_ ∨ _))

/-- The selection loop of `scheduler_tick`. -/
def selectLoop (procs : Nat → Process) (curr : Nat) : (budget next : Nat) → Option Nat
  | 0, _ => none
  | budget + 1, next =>
      if Skipped (procs next) ∧ next ≠ curr then selectLoop procs curr budget (procs next).next
      else some next

/-- What a switch to `next` loads: `tss_set_kernel_stack`, then the CR3 part of `context_switch`,
    both only for a process that has its own page table. -/
def loadProcess (s : Scheduler) (next : Nat) : Scheduler :=
  if (s.procs next).pageTable ≠ 0 then
    { s with tssRsp0 := (s.procs next).kernelStack, cr3 := (s.procs next).pageTable }
  else s

/-- The rest of `scheduler_tick` once the selection loop has stopped at `next`. -/
def switchTo (s : Scheduler) (next : Nat) : Scheduler :=
  let curr := s.current
  if next = curr then s
  else
    let procs :=
      if (s.procs curr).state = .running then
        setProcess s.procs curr { s.procs curr with state := .ready }
      else s.procs
    let procs := setProcess procs next { procs next with state := .running }
    loadProcess { s with procs := procs, current := next } next

/-- `scheduler_tick`. -/
def schedulerTick (s : Scheduler) : Option Scheduler :=
  if s.current = 0 ∨ (s.procs s.current).next = 0 then some s
  else do
    let procs ← wakeLoop s.ticks s.idle s.walkBudget s.procs (s.procs s.idle).next
    let next ← selectLoop procs s.current s.walkBudget (procs s.current).next
    some (switchTo { s with procs := procs } next)

/-- The scan of `scheduler_wake_key_waiter`. -/
def keyWaiterLoop (idle : Nat) (procs : Nat → Process) :
    (budget p : Nat) → Option (Nat → Process)
  | 0, _ => none
  | budget + 1, p =>
      if p = idle then some procs
      else if (procs p).state = .blocked ∧ (procs p).waitReason = .key then
        some (setProcess procs p { procs p with state := .ready, waitReason := .none })
      else keyWaiterLoop idle procs budget (procs p).next

/-- `scheduler_wake_key_waiter`. -/
def schedulerWakeKeyWaiter (s : Scheduler) : Option Scheduler := do
  let procs ← keyWaiterLoop s.idle s.procs s.walkBudget (s.procs s.idle).next
  some { s with procs := procs }

/-- `scheduler_start`. -/
def schedulerStart (s : Scheduler) : Scheduler :=
  if s.current = 0 ∨ (s.procs s.current).next = 0 then s
  else
    let next := (s.procs s.current).next
    loadProcess
      { s with
        procs := setProcess s.procs next { s.procs next with state := .running }
        current := next }
      next

/-- `timer_handler`. -/
def timerHandler (s : Scheduler) : Option Scheduler :=
  schedulerTick { s with ticks := s.ticks + 1 }

/-- `sys_yield`. -/
def sysYield (s : Scheduler) : Option Scheduler := schedulerTick s

/-- Storing to fields of the running process's descriptor. -/
def updateCurrent (s : Scheduler) (f : Process → Process) : Scheduler :=
  { s with procs := setProcess s.procs s.current (f (s.procs s.current)) }

/-- `sys_sleep`. The deadline is the sum modulo 2^64. -/
def sysSleep (s : Scheduler) (ticks : Word) : Option Scheduler :=
  if s.current = 0 then some s
  else
    schedulerTick (s.updateCurrent fun curr =>
      { curr with wakeTick := s.ticks + ticks, waitReason := .sleep, state := .blocked })

/-- The body of `sys_read`'s waiting loop, entered when no character is buffered. -/
def sysReadBlock (s : Scheduler) : Option Scheduler :=
  schedulerTick (s.updateCurrent fun curr => { curr with waitReason := .key, state := .blocked })

/-- `sys_exit` up to the `hlt` loop behind its `scheduler_tick`. -/
def sysExit (s : Scheduler) : Option Scheduler :=
  schedulerTick
    (if s.current ≠ 0 then s.updateCurrent fun curr => { curr with state := .dead } else s)

/-! ### Runs -/

/-- What can happen to a running scheduler. -/
inductive Event where
  | timer
  /-- A key interrupt that produced a character. -/
  | key
  | yield
  | sleep (ticks : Word)
  | read
  | exit
  /-- `scheduler_add` of a process created at a fresh address. -/
  | add (address : Nat) (created : Process)
deriving DecidableEq, Repr

/-- One event. The system calls are issued by the current process, and `idle_fn` issues none. -/
def EventStep (s : Scheduler) : Event → Scheduler → Prop
  | .timer, s' => s.timerHandler = some s'
  | .key, s' => s.schedulerWakeKeyWaiter = some s'
  | .yield, s' => s.current ≠ s.idle ∧ s.sysYield = some s'
  | .sleep ticks, s' => s.current ≠ s.idle ∧ s.sysSleep ticks = some s'
  | .read, s' => s.current ≠ s.idle ∧ s.sysReadBlock = some s'
  | .exit, s' => s.current ≠ s.idle ∧ s.sysExit = some s'
  | .add address created, s' =>
      address ≠ 0 ∧ address ∉ s.members ∧
        { s with procs := setProcess s.procs address created }.schedulerAdd address = some s'

/-- The events of system calls. -/
def GivesUp : Event → Prop
  | .yield | .sleep _ | .read | .exit => True
  | .timer | .key | .add _ _ => False

/-- The states in which `scheduler_start` can find the scheduler: `scheduler_init`, then any number
    of `scheduler_add` calls with fresh processes. -/
def Prepared (s : Scheduler) : Prop :=
  ∃ (boot : Scheduler) (idle : Nat) (added : List (Nat × Process)), idle ≠ 0 ∧
    StepSystem.Run (fun s (a : Nat × Process) s' => s.EventStep (.add a.1 a.2) s')
      (boot.schedulerInit idle) added s

end Scheduler

end CustomKernel
