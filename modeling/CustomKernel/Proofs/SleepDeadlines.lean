/-
Module: CustomKernel.Proofs.SleepDeadlines
Layer: Proofs
Purpose: A process asleep in `sys_sleep` is left alone until its tick has come: the wake loop compares
  the deadline, and the key interrupt looks for readers only. What breaks this is the arithmetic: a
  deadline that does not fit in 64 bits lies in the past.
Imports: CustomKernel.Proofs.Scheduler
Trusted boundary: none (fully proved)
Main exports: Asleep, asleep_of_event, TicksFit, no_early_wakeup
-/
import CustomKernel.Proofs.Scheduler

namespace CustomKernel.Scheduler

open StepSystem

variable {s s' : Scheduler} {p deadline : Nat}

/-- `p` is in the ring and sleeps until the tick `deadline`. -/
structure Asleep (p deadline : Nat) (s : Scheduler) : Prop where
  mem : p ∈ s.members
  blocked : (s.procs p).state = .blocked
  reason : (s.procs p).waitReason = .sleep
  wakeTick : (s.procs p).wakeTick.toNat = deadline

/-- A sleeper is not current: the current process runs. -/
theorem Asleep.not_current (h : Asleep p deadline s) (inv : SchedulerInv s) : p ≠ s.current := by
  rintro rfl
  have hrunning := inv.safe.current_running
  rw [h.blocked] at hrunning
  cases hrunning

/-- The wake loop passes over a sleeper that is not due. -/
theorem Asleep.woken (h : Asleep p deadline s) (hearly : s.ticks.toNat < deadline) :
    s.woken p = s.procs p := by
  unfold Scheduler.woken wakeSleeper
  split
  · rw [if_neg]
    rintro ⟨-, -, hdue⟩
    rw [BitVec.le_def, h.wakeTick] at hdue
    omega
  · rfl

/-- So does a tick. -/
theorem Asleep.ticked (h : Asleep p deadline s) (pre : TickPre s)
    (hearly : s.ticks.toNat < deadline) : Asleep p deadline s.ticked := by
  have hwoken := h.woken hearly
  have hsame : s.ticked.procs p = s.procs p := by
    rcases ticked_procs_cases s p with ⟨hchosen, hne, -⟩ | ⟨-, hrunning, -⟩ | ⟨hsame, -⟩
    · -- the search would have passed over it
      rcases chosen_cases pre.ring with ⟨hself, -⟩ | ⟨-, -, hlive⟩
      · exact absurd (hchosen.trans hself) hne
      · rw [← hchosen, hwoken] at hlive
        exact absurd (.inr h.blocked) hlive
    · rw [hwoken, h.blocked] at hrunning
      cases hrunning
    · rw [hsame, hwoken]
  refine ⟨by rw [ticked_members]; exact h.mem, ?_, ?_, ?_⟩
  · rw [hsame, h.blocked]
  · rw [hsame, h.reason]
  · rw [hsame, h.wakeTick]

/-- The key interrupt wakes readers only. -/
theorem keyWoken_procs_of_not_waits (h : ¬ WaitsForKey (s.procs p)) :
    s.keyWoken.procs p = s.procs p := by
  unfold keyWoken
  cases hq : s.keyWaiter with
  | none => rfl
  | some q =>
      have hwait : WaitsForKey (s.procs q) := by simpa using List.find?_some hq
      have hne : p ≠ q := fun hp => h (hp ▸ hwait)
      exact setProcess_of_ne hne _

/-- Only the timer moves the tick counter. -/
theorem ticks_of_event (inv : SchedulerInv s) {e : Event} (step : s.EventStep e s') :
    s'.ticks = if e = .timer then s.ticks + 1 else s.ticks := by
  rcases eventStep_cases inv step with ⟨t, ht, -, -, -, -, -, rfl⟩ | ⟨rfl, rfl⟩ |
    ⟨address, created, rfl, hnull, hfresh, hadd⟩
  · rw [ticked_ticks]
    cases e with
    | timer =>
        cases ht
        rfl
    | yield =>
        cases ht
        rfl
    | sleep ticks =>
        cases ht
        rfl
    | read =>
        cases ht
        rfl
    | exit =>
        cases ht
        rfl
    | key => cases ht
    | add address created => cases ht
  · rw [(keyWoken_rest s).2.2.1]
    rfl
  · rw [(schedulerAdd_spec inv.ring hnull hfresh hadd).2.2.2.2.1]
    rfl

/-- No event wakes a sleeper before its tick. -/
theorem asleep_of_event (inv : SchedulerInv s) {e : Event} (step : s.EventStep e s')
    (h : Asleep p deadline s) : Asleep p deadline s' ∨ deadline ≤ s'.ticks.toNat := by
  have hne := h.not_current inv
  rcases eventStep_cases inv step with ⟨t, -, pre, hmem, -, hsame, -, rfl⟩ | ⟨-, rfl⟩ |
    ⟨address, created, -, hnull, hfresh, hadd⟩
  · by_cases hearly : t.ticks.toNat < deadline
    · have hprocs := hsame p hne
      have hasleep : Asleep p deadline t :=
        ⟨by rw [hmem]; exact h.mem, by rw [hprocs, h.blocked], by rw [hprocs, h.reason],
          by rw [hprocs, h.wakeTick]⟩
      exact .inl (hasleep.ticked pre hearly)
    · rw [ticked_ticks]
      exact .inr (Nat.le_of_not_lt hearly)
  · have hreads : ¬ WaitsForKey (s.procs p) := by
      rintro ⟨-, hkey⟩
      rw [h.reason] at hkey
      cases hkey
    have hprocs := keyWoken_procs_of_not_waits hreads
    refine .inl ⟨by rw [(keyWoken_rest s).2.2.2]; exact h.mem, ?_, ?_, ?_⟩
    · rw [hprocs, h.blocked]
    · rw [hprocs, h.reason]
    · rw [hprocs, h.wakeTick]
  · obtain ⟨-, hmem, -, -, -, -, hold⟩ := schedulerAdd_spec inv.ring hnull hfresh hadd
    have hprocs := hold p h.mem
    refine .inl ⟨by rw [hmem]; exact List.mem_append_left _ h.mem, ?_, ?_, ?_⟩
    · rw [hprocs, h.blocked]
    · rw [hprocs, h.reason]
    · rw [hprocs, h.wakeTick]

/-- A timer interrupt does not take the tick counter back to 0. -/
def TicksFit (s : Scheduler) (e : Event) : Prop := e = .timer → s.ticks.toNat + 1 < 2 ^ 64

/-- While the counter does not wrap around it does not go down. -/
theorem ticks_le_of_event (inv : SchedulerInv s) {e : Event} (hfits : TicksFit s e)
    (step : s.EventStep e s') : s.ticks.toNat ≤ s'.ticks.toNat := by
  rw [ticks_of_event inv step]
  split
  · rename_i htimer
    have hlt := hfits htimer
    rw [BitVec.toNat_add, show (1 : Word).toNat = 1 from rfl, Nat.mod_eq_of_lt hlt]
    omega
  · exact Nat.le_refl _

/-- Where a call of `sys_sleep` leaves its caller. -/
theorem sleep_asleep (inv : SchedulerInv s) {n : Word} (hfits : s.ticks.toNat + n.toNat < 2 ^ 64)
    (step : s.EventStep (.sleep n) s') :
    Asleep s.current (s.ticks.toNat + n.toNat) s' ∨
      s.ticks.toNat + n.toNat ≤ s'.ticks.toNat := by
  rcases eventStep_cases inv step with ⟨t, ht, pre, hmem, -, -, -, rfl⟩ | ⟨hkey, -⟩ |
    ⟨address, created, hadd, -⟩
  · cases ht
    by_cases hn : n.toNat = 0
    · rw [ticked_ticks]
      refine .inr ?_
      show s.ticks.toNat + n.toNat ≤ s.ticks.toNat
      omega
    · refine .inl (Asleep.ticked ⟨inv.ring.current_mem, ?_, ?_, ?_⟩ pre ?_)
      · simp [updateCurrent]
      · simp [updateCurrent]
      · simp only [updateCurrent, setProcess_self]
        rw [BitVec.toNat_add, Nat.mod_eq_of_lt hfits]
      · show s.ticks.toNat < s.ticks.toNat + n.toNat
        omega
  · cases hkey
  · cases hadd

/-- In every run after `scheduler_start` in which the tick counter does not wrap around: a process
    other than idle that calls `sys_sleep` for `n` ticks at tick `t`, with `t + n` a 64-bit number, is
    not current in any later state of the run with a tick below `t + n`. -/
theorem no_early_wakeup (s t u v : Scheduler) (before after : List Event) (n : Word)
    (prepared : Prepared s) (run : Run EventStep s.schedulerStart before t)
    (sleeps : t.EventStep (.sleep n) u) (hfits : t.ticks.toNat + n.toNat < 2 ^ 64)
    (later : Run (Guarded TicksFit EventStep) u after v)
    (hearly : v.ticks.toNat < t.ticks.toNat + n.toNat) : v.current ≠ t.current := by
  have inv := SchedulerInv.of_run prepared run
  have hkept := later.invariant
    (fun v => SchedulerInv v ∧ (Asleep t.current (t.ticks.toNat + n.toNat) v ∨
      t.ticks.toNat + n.toNat ≤ v.ticks.toNat))
    (fun v e v' h step => ⟨h.1.of_event step.2, h.2.elim (asleep_of_event h.1 step.2)
      fun hdue => .inr (hdue.trans (ticks_le_of_event h.1 step.1 step.2))⟩)
    ⟨inv.of_event sleeps, sleep_asleep inv hfits sleeps⟩
  rcases hkept.2 with hasleep | hdue
  · exact (hasleep.not_current hkept.1).symm
  · omega

/-! ### Sleeping after the first tick -/

/-- After the first tick process 3 is current. -/
def firstTick : Scheduler := twoAdded.schedulerStart.timerHandler.getD blankBoot

theorem firstTick_run : Run EventStep twoAdded.schedulerStart [.timer] firstTick :=
  .single (eq_some_getD (by decide +kernel) _)

/-- It sleeps for `n` ticks, and two more ticks pass. -/
def sleeping (n : Word) : Scheduler := (firstTick.sysSleep n).getD blankBoot

def secondTick (n : Word) : Scheduler := (sleeping n).timerHandler.getD blankBoot

def thirdTick (n : Word) : Scheduler := (secondTick n).timerHandler.getD blankBoot

/-- Process 3 sleeps for five ticks, and is not current two ticks later. -/
theorem no_early_wakeup_five :
    firstTick.EventStep (.sleep 5) (sleeping 5) ∧
      Run EventStep (sleeping 5) [.timer, .timer] (thirdTick 5) ∧
      (thirdTick 5).ticks = 3 ∧ (thirdTick 5).current ≠ firstTick.current := by
  have hsleeps : firstTick.EventStep (.sleep 5) (sleeping 5) :=
    ⟨by decide +kernel, eq_some_getD (by decide +kernel) _⟩
  have hticks : firstTick.ticks = 1 ∧ (sleeping 5).ticks = 1 ∧ (secondTick 5).ticks = 2 ∧
      (thirdTick 5).ticks = 3 := by decide +kernel
  have hsecond : (sleeping 5).EventStep .timer (secondTick 5) :=
    eq_some_getD (by decide +kernel) _
  have hthird : (secondTick 5).EventStep .timer (thirdTick 5) :=
    eq_some_getD (by decide +kernel) _
  have hrun : Run (Guarded TicksFit EventStep) (sleeping 5) [.timer, .timer] (thirdTick 5) :=
    .cons ⟨fun _ => by rw [hticks.2.1]; decide, hsecond⟩
      (.single ⟨fun _ => by rw [hticks.2.2.1]; decide, hthird⟩)
  refine ⟨hsleeps, hrun.of_guarded, hticks.2.2.2, no_early_wakeup _ _ _ _ _ _ 5 twoAdded_prepared
    firstTick_run hsleeps ?_ hrun ?_⟩
  · rw [hticks.1]
    decide
  · rw [hticks.1, hticks.2.2.2]
    decide

/-- It sleeps for 2^64 - 1 ticks, and is current two ticks later. -/
theorem early_wakeup :
    Prepared twoAdded ∧ Run EventStep twoAdded.schedulerStart [.timer] firstTick ∧
      firstTick.EventStep (.sleep (-1)) (sleeping (-1)) ∧
      Run EventStep (sleeping (-1)) [.timer, .timer] (thirdTick (-1)) ∧
      (thirdTick (-1)).ticks.toNat < firstTick.ticks.toNat + (-1 : Word).toNat ∧
      (thirdTick (-1)).current = firstTick.current := by
  have hsleeps : firstTick.EventStep (.sleep (-1)) (sleeping (-1)) :=
    ⟨by decide +kernel, eq_some_getD (by decide +kernel) _⟩
  have hsecond : (sleeping (-1)).EventStep .timer (secondTick (-1)) :=
    eq_some_getD (by decide +kernel) _
  have hthird : (secondTick (-1)).EventStep .timer (thirdTick (-1)) :=
    eq_some_getD (by decide +kernel) _
  exact ⟨twoAdded_prepared, firstTick_run, hsleeps, .cons hsecond (.single hthird),
    by decide +kernel, by decide +kernel⟩

end CustomKernel.Scheduler
