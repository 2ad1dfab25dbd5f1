/-
Module: CustomKernel.Proofs.RingIntegrity
Layer: Proofs
Purpose: The ring from `scheduler_init` on, whatever the states of its processes and whoever is
  current. Processes are added while ticks, key wake-ups and stores to descriptors go on, and each of
  these keeps the single cycle through `next`; on a cycle every pointer walk of the scheduler ends.
Imports: CustomKernel.Proofs.Scheduler
Trusted boundary: none (fully proved)
Main exports: RingEvent, RingStep, RingInv.of_ringStep, EventStep.ring, LoopsEnd, ring_integrity
-/
import CustomKernel.Proofs.Scheduler

namespace CustomKernel.Scheduler

open LinkedSegment CyclicOrder StepSystem

/-! ### Events -/

/-- What can happen between `scheduler_init` and any later moment. -/
inductive RingEvent where
  /-- `scheduler_add` of a process that is not in the ring. -/
  | add (address : Nat) (created : Process)
  /-- `scheduler_tick`, when `timer_ticks` returns `now`. -/
  | tick (now : Word)
  | wakeKeyWaiter
  | start
  /-- Stores to any fields of a descriptor but `next`, as system calls make them. -/
  | store (p : Nat) (proc : Process)
deriving DecidableEq, Repr

/-- The process that the event links in. -/
def RingEvent.added : RingEvent → List Nat
  | .add address _ => [address]
  | _ => []

/-- One event, if its call returns. -/
def RingStep (s : Scheduler) : RingEvent → Scheduler → Prop
  | .add address created, s' => address ≠ 0 ∧ address ∉ s.members ∧
      { s with procs := setProcess s.procs address created }.schedulerAdd address = some s'
  | .tick now, s' => { s with ticks := now }.schedulerTick = some s'
  | .wakeKeyWaiter, s' => s.schedulerWakeKeyWaiter = some s'
  | .start, s' => s' = s.schedulerStart
  | .store p proc, s' =>
      s' = { s with procs := setProcess s.procs p { proc with next := (s.procs p).next } }

variable {s s' : Scheduler}

/-! ### One event -/

/-- Every event keeps the ring, and `scheduler_add` puts its process at the end. -/
theorem RingInv.of_ringStep (ring : RingInv s) {e : RingEvent} (step : s.RingStep e s') :
    RingInv s' ∧ s'.members = s.members ++ e.added ∧ s'.idle = s.idle := by
  have hsame : s.members = s.members ++ [] := (List.append_nil _).symm
  cases e with
  | add address created =>
      obtain ⟨hne, hfresh, hadd⟩ := step
      obtain ⟨ring', hmem, -, hidle, -⟩ := schedulerAdd_spec ring hne hfresh hadd
      exact ⟨ring', hmem, hidle⟩
  | tick now =>
      have hring : RingInv { s with ticks := now } :=
        ring.of_next rfl rfl ring.current_mem fun _ _ => rfl
      have htick : { s with ticks := now }.schedulerTick = some s' := step
      rw [schedulerTick_eq hring] at htick
      cases htick
      exact ⟨ticked_ring hring, (ticked_members _).trans hsame, ticked_idle _⟩
  | wakeKeyWaiter =>
      have hwake : s.schedulerWakeKeyWaiter = some s' := step
      rw [schedulerWakeKeyWaiter_eq ring] at hwake
      cases hwake
      obtain ⟨-, hidle, -, hmem⟩ := keyWoken_rest s
      exact ⟨keyWoken_ring ring, hmem.trans hsame, hidle⟩
  | start =>
      obtain rfl : s' = s.schedulerStart := step
      obtain ⟨-, -, hidle, hmem⟩ := schedulerStart_spec ring
      have ring' := schedulerStart_ring ring
      exact ⟨ring', hmem.trans hsame, hidle⟩
  | store p proc =>
      obtain rfl : s' = _ := step
      refine ⟨ring.of_next rfl rfl ring.current_mem fun q _ => ?_, hsame, rfl⟩
      by_cases hq : q = p
      · rw [hq]
        simp
      · simp [hq]

/-- The ring behind `scheduler_init`. -/
theorem ringInv_init (boot : Scheduler) {idle : Nat} (hidle : idle ≠ 0) :
    RingInv (boot.schedulerInit idle) := (preparedInv_init boot hidle).ring

/-- The ring in every state that is reached: idle, then the processes in the order added. -/
theorem RingInv.of_ringRun {events : List RingEvent} (ring : RingInv s)
    (run : Run RingStep s events s') :
    RingInv s' ∧ s'.members = s.members ++ events.flatMap RingEvent.added ∧ s'.idle = s.idle := by
  induction run with
  | nil s => exact ⟨ring, (List.append_nil _).symm, rfl⟩
  | cons head _ ih =>
      obtain ⟨ring₁, hmem₁, hidle₁⟩ := ring.of_ringStep head
      obtain ⟨ring₂, hmem₂, hidle₂⟩ := ih ring₁
      refine ⟨ring₂, ?_, hidle₂.trans hidle₁⟩
      rw [hmem₂, hmem₁, List.flatMap_cons, List.append_assoc]

/-! ### The scheduler's events -/

/-- A store to the current process and a tick. -/
theorem run_store_tick {f : Process → Process} (hnext : ∀ p, (f p).next = p.next)
    (step : (s.updateCurrent f).schedulerTick = some s') :
    Run RingStep s [.store s.current (f (s.procs s.current)), .tick s.ticks] s' := by
  refine .cons (t := s.updateCurrent f) ?_ (.single step)
  show s.updateCurrent f = { s with procs := setProcess s.procs s.current _ }
  rw [← hnext]
  rfl

/-- What the timer, the keyboard and the system calls do to the scheduler is made of ring events. -/
theorem EventStep.ring {e : Event} (step : s.EventStep e s') :
    ∃ events, Run RingStep s events s' := by
  cases e with
  | timer => exact ⟨[.tick (s.ticks + 1)], .single step⟩
  | key => exact ⟨[.wakeKeyWaiter], .single step⟩
  | yield => exact ⟨[.tick s.ticks], .single step.2⟩
  | sleep ticks =>
      have hsleep := step.2
      unfold sysSleep at hsleep
      split at hsleep
      · cases hsleep
        exact ⟨_, .nil _⟩
      · exact ⟨_, run_store_tick (f := fun curr =>
          { curr with wakeTick := s.ticks + ticks, waitReason := .sleep, state := .blocked })
          (fun _ => rfl) hsleep⟩
  | read =>
      exact ⟨_, run_store_tick (f := fun curr => { curr with waitReason := .key, state := .blocked })
        (fun _ => rfl) step.2⟩
  | exit =>
      have hexit := step.2
      unfold sysExit at hexit
      split at hexit
      · exact ⟨_, run_store_tick (f := fun curr => { curr with state := .dead }) (fun _ => rfl) hexit⟩
      · exact ⟨[.tick s.ticks], .single hexit⟩
  | add address created => exact ⟨[.add address created], .single step⟩

/-! ### The walks -/

/-- The pointer walks of the scheduler end, at any time, each within `budget` steps, whichever member
    of the ring is current. -/
structure LoopsEnd (s : Scheduler) (budget : Nat) : Prop where
  tail : ∀ p ∉ s.members, ∀ proc, ∃ tail,
    tailLoop (setProcess s.procs p proc) s.idle budget s.idle = some tail
  wake : ∀ now, ∃ procs, wakeLoop now s.idle budget s.procs (s.procs s.idle).next = some procs ∧
    ∀ curr ∈ s.members, ∃ next, selectLoop procs curr budget (procs curr).next = some next
  key : ∃ procs, keyWaiterLoop s.idle s.procs budget (s.procs s.idle).next = some procs

theorem RingInv.loopsEnd (ring : RingInv s) {budget : Nat} (hbudget : s.walkBudget ≤ budget) :
    LoopsEnd s budget where
  tail p hp proc := by
    refine ⟨_, tailLoop_ring ring (setProcess s.procs p proc) (fun q hq => ?_) hbudget⟩
    have hne : q ≠ p := fun h => hp (h ▸ hq)
    simp [hne]
  wake now := by
    have at_time : ∀ curr ∈ s.members, RingInv { s with ticks := now, current := curr } :=
      fun curr hcurr => ring.of_next rfl rfl hcurr fun _ _ => rfl
    -- the descriptors behind the wake loop do not depend on the current process
    exact ⟨_, wakeLoop_ring (at_time s.idle ring.idle_mem) hbudget, fun curr hcurr =>
      ⟨_, selectLoop_ring (at_time curr hcurr) hbudget⟩⟩
  key := ⟨_, keyWaiterLoop_ring ring hbudget⟩

/-! ### The main result -/

/-- After `scheduler_init` and any events, `next` leads from idle through the added processes, once
    each and in the order added, and back to idle; so the tail search, the wake loop, the selection
    loop and the scan for a key waiter end, whichever process is current, and the calls return. -/
theorem ring_integrity (boot : Scheduler) (idle : Nat) (hidle : idle ≠ 0) (events : List RingEvent)
    (s : Scheduler) (run : Run RingStep (boot.schedulerInit idle) events s) :
    let added := events.flatMap RingEvent.added
    s.idle = idle ∧ (idle :: added).Nodup ∧ Seg (nextOf s.procs) idle added idle ∧
      s.current ∈ idle :: added ∧
      (∀ budget, added.length + 2 ≤ budget → LoopsEnd s budget) ∧
      (∀ p created, p ∉ idle :: added →
        ∃ s', { s with procs := setProcess s.procs p created }.schedulerAdd p = some s') ∧
      (∀ curr ∈ idle :: added, ∀ now,
        ∃ s', { s with current := curr, ticks := now }.schedulerTick = some s') ∧
      ∃ s', s.schedulerWakeKeyWaiter = some s' := by
  intro added
  obtain ⟨ring, hmem, hidle'⟩ := (ringInv_init boot hidle).of_ringRun run
  have hmembers : s.members = idle :: added := hmem
  have hsame : s.idle = idle := hidle'
  have hlinked := ring.linked
  have hnodup := ring.nodup
  have hcurrent := ring.current_mem
  rw [hmembers, hsame] at hlinked
  rw [hmembers] at hnodup hcurrent
  refine ⟨hsame, hnodup, hlinked, hcurrent, fun budget hbudget => ring.loopsEnd ?_,
    fun p created hp => schedulerAdd_returns created ring (hmembers ▸ hp), fun curr hcurr now => ?_,
    _, schedulerWakeKeyWaiter_eq ring⟩
  · rw [walkBudget, hmembers, List.length_cons]
    omega
  · exact ⟨_, schedulerTick_eq (ring.of_next rfl rfl (hmembers ▸ hcurr) fun _ _ => rfl)⟩

/-- One process at address 2, which has been switched to. -/
def oneTicked : Scheduler :=
  ({ addBlank (blankBoot.schedulerInit 1) 2 with ticks := 5 }.schedulerTick).getD blankBoot

/-- It has exited. -/
def oneExited : Scheduler :=
  { oneTicked with
    procs := setProcess oneTicked.procs 2 { state := .dead, next := (oneTicked.procs 2).next } }

theorem oneExited_run : Run RingStep (blankBoot.schedulerInit 1)
    [.add 2 {}, .tick 5, .store 2 { state := .dead }] oneExited := by
  have first : RingStep (blankBoot.schedulerInit 1) (.add 2 {})
      (addBlank (blankBoot.schedulerInit 1) 2) := ⟨by decide, by decide, rfl⟩
  have tick : RingStep (addBlank (blankBoot.schedulerInit 1) 2) (.tick 5) oneTicked :=
    show schedulerTick _ = some _ from rfl
  exact .cons first (.cons tick (.single (show oneExited = _ from rfl)))

/-- Another one is added behind it. -/
theorem ring_integrity_two : Seg (nextOf (addBlank oneExited 3).procs) 1 [2, 3] 1 := by
  have second : RingStep oneExited (.add 3 {}) (addBlank oneExited 3) :=
    ⟨by decide, by decide, rfl⟩
  exact (ring_integrity blankBoot 1 (by decide) _ _ (oneExited_run.append (.single second))).2.2.1

end CustomKernel.Scheduler
