/-
Module: CustomKernel.Proofs.RoundRobin
Layer: Proofs
Purpose: The round robin does not let anybody overtake. While a process waits ready, the processes
  that can still run before it are those between the current process and it in the cyclic order;
  every switch moves on inside that stretch, and a process that has been current is behind.
Imports: CustomKernel.Proofs.Scheduler
Trusted boundary: none (fully proved)
Main exports: Waiting, Passed, passed_of_event, timesScheduled, round_robin_no_overtaking
-/
import CustomKernel.Proofs.Scheduler

namespace CustomKernel.Scheduler

open LinkedSegment CyclicOrder StepSystem

variable {s s' : Scheduler} {p q : Nat}

/-- `p` is in the ring, ready, and not current. -/
structure Waiting (p : Nat) (s : Scheduler) : Prop where
  mem : p ∈ s.members
  ready : (s.procs p).state = .ready
  not_current : s.current ≠ p

/-- `q` will not come before `p` in this round. -/
def Passed (p q : Nat) (s : Scheduler) : Prop :=
  q ∈ s.members ∧ q ∉ between s.members s.current p

theorem Waiting.mem_successors (h : Waiting p s) (ring : RingInv s) :
    p ∈ successors s.members s.current :=
  (CyclicOrder.mem_successors ring.nodup ring.current_mem).2 ⟨h.mem, fun hp => h.not_current hp.symm⟩

/-- The current process is behind everybody who waits. -/
theorem passed_current (ring : RingInv s) (p : Nat) : Passed p s.current s := by
  refine ⟨ring.current_mem, fun h => ?_⟩
  have hmem : s.current ∈ successors s.members s.current := (List.takeWhile_prefix _).subset h
  exact ((CyclicOrder.mem_successors ring.nodup ring.current_mem).1 hmem).2 rfl

/-- A tick that does not choose the waiting process chooses one before it. -/
theorem chosen_mem_between (pre : TickPre s) (waiting : Waiting p s) (hne : s.chosen ≠ s.current)
    (hp : s.chosen ≠ p) : s.chosen ∈ between s.members s.current p := by
  have hwoken : s.woken p = s.procs p :=
    woken_state_of_ne_blocked (by rw [waiting.ready]; decide)
  have hrunnable : ¬ Skipped (s.woken p) := by
    rw [hwoken]
    simp [Skipped, waiting.ready]
  cases hfind : (successors s.members s.current).find? fun r => ¬ Skipped (s.woken r) with
  | none =>
      have hself : s.chosen = s.current := by rw [chosen, hfind]; rfl
      exact absurd hself hne
  | some n =>
      have hn : s.chosen = n := by rw [chosen, hfind]; rfl
      rw [hn] at hp ⊢
      exact mem_between_of_find (waiting.mem_successors pre.ring) (by simpa using hrunnable) hfind hp

/-- No event brings a process back in front of one that keeps waiting, so it does not become
    current. -/
theorem passed_of_event (inv : SchedulerInv s) {e : Event} (step : s.EventStep e s')
    (before : Waiting p s) (after : Waiting p s') (passed : Passed p q s) :
    Passed p q s' ∧ (s'.current = q → s.current = q) := by
  rcases eventStep_cases inv step with ⟨t, -, pre, hmem, hcur, hsame, -, rfl⟩ | ⟨-, rfl⟩ |
    ⟨address, created, -, hne, hfresh, hadd⟩
  · have waiting : Waiting p t := by
      refine ⟨hmem ▸ before.mem, ?_, hcur ▸ before.not_current⟩
      rw [hsame p fun h => before.not_current h.symm]
      exact before.ready
    have passed' : Passed p q t := by rwa [Passed, hmem, hcur]
    have hchosen : t.chosen ≠ p := by simpa using after.not_current
    by_cases hstay : t.chosen = t.current
    · refine ⟨?_, fun h => ?_⟩
      · simpa [Passed, hstay] using passed'
      · rw [← hcur, ← hstay]
        simpa using h
    · have hbetween := chosen_mem_between pre waiting hstay hchosen
      refine ⟨⟨by simpa using passed'.1, fun h => ?_⟩, fun h => ?_⟩
      · rw [ticked_members, ticked_current] at h
        exact passed'.2 (mem_between_move pre.ring.nodup pre.ring.current_mem
          (waiting.mem_successors pre.ring) hbetween h).1
      · have hq : t.chosen = q := by simpa using h
        exact absurd (hq ▸ hbetween) passed'.2
  · obtain ⟨hcur, -, -, hmem⟩ := keyWoken_rest s
    rw [Passed, hmem, hcur]
    exact ⟨passed, id⟩
  · obtain ⟨-, hmem, hcur, -, -, -, -⟩ := schedulerAdd_spec inv.ring hne hfresh hadd
    rw [Passed, hmem, hcur]
    refine ⟨⟨List.mem_append_left _ passed.1, fun h => ?_⟩, id⟩
    rcases mem_between_append inv.ring.nodup inv.ring.current_mem
      (before.mem_successors inv.ring) h with h | h
    · exact passed.2 h
    · exact hfresh (h ▸ passed.1)

/-- How often `q` becomes current along a sequence of states. -/
def timesScheduled (q : Nat) : List Scheduler → Nat
  | s :: s' :: rest =>
      (if s.current ≠ q ∧ s'.current = q then 1 else 0) + timesScheduled q (s' :: rest)
  | _ => 0

/-- One event leads from each state of the sequence to the next. -/
def Consecutive (s s' : Scheduler) : Prop := ∃ e, s.EventStep e s'

/-- Whoever is behind the waiting process is not scheduled again while it waits. -/
theorem timesScheduled_passed : ∀ (interval : List Scheduler) (s : Scheduler), SchedulerInv s →
    List.IsChain Consecutive (s :: interval) → (∀ u ∈ s :: interval, Waiting p u) →
    Passed p q s → timesScheduled q (s :: interval) = 0
  | [], _, _, _, _, _ => rfl
  | s' :: rest, s, inv, chain, waiting, passed => by
      obtain ⟨⟨e, step⟩, chain'⟩ := List.isChain_cons_cons.1 chain
      have inv' := inv.of_event step
      obtain ⟨passed', hcur⟩ := passed_of_event inv step (waiting s (by simp))
        (waiting s' (by simp)) passed
      have ih := timesScheduled_passed rest s' inv' chain'
        (fun u hu => waiting u (List.mem_cons_of_mem _ hu)) passed'
      have hnot : ¬ (s.current ≠ q ∧ s'.current = q) := fun h => h.1 (hcur h.2)
      simp only [timesScheduled, if_neg hnot, ih]

theorem timesScheduled_le_one : ∀ (interval : List Scheduler) (s : Scheduler), SchedulerInv s →
    List.IsChain Consecutive (s :: interval) → (∀ u ∈ s :: interval, Waiting p u) →
    timesScheduled q (s :: interval) ≤ 1
  | [], _, _, _, _ => Nat.zero_le _
  | s' :: rest, s, inv, chain, waiting => by
      obtain ⟨⟨e, step⟩, chain'⟩ := List.isChain_cons_cons.1 chain
      have inv' := inv.of_event step
      have waiting' : ∀ u ∈ s' :: rest, Waiting p u :=
        fun u hu => waiting u (List.mem_cons_of_mem _ hu)
      by_cases hbecomes : s.current ≠ q ∧ s'.current = q
      · -- from here on `q` is behind
        have hzero := timesScheduled_passed (q := q) rest s' inv' chain' waiting'
          (hbecomes.2 ▸ passed_current inv'.ring p)
        simp only [timesScheduled, if_pos hbecomes, hzero]
        exact Nat.le_refl 1
      · have ih := timesScheduled_le_one rest s' inv' chain' waiting'
        simpa [timesScheduled, hbecomes] using ih

/-- In every run after `scheduler_start`, with any mixture of ticks, system calls, key interrupts and
    added processes, nobody becomes current twice while some process stays ready and not current. -/
theorem round_robin_no_overtaking (s t : Scheduler) (events : List Event)
    (interval : List Scheduler) (p q : Nat) (prepared : Prepared s)
    (run : Run EventStep s.schedulerStart events t)
    (chain : List.IsChain Consecutive (t :: interval))
    (waiting : ∀ u ∈ t :: interval, Waiting p u) :
    timesScheduled q (t :: interval) ≤ 1 :=
  timesScheduled_le_one interval t (SchedulerInv.of_run prepared run) chain waiting

/-- Of idle and two processes: from the first tick to the second, process 2 waits and idle becomes
    current once. -/
theorem round_robin_no_overtaking_idle :
    ∃ t u, Run EventStep twoAdded.schedulerStart [.timer] t ∧ Consecutive t u ∧
      Waiting 2 t ∧ Waiting 2 u ∧ u.current = 1 ∧ timesScheduled 1 [t, u] ≤ 1 := by
  have first : Run EventStep twoAdded.schedulerStart [.timer]
      (twoAdded.schedulerStart.timerHandler.getD blankBoot) :=
    .single (show timerHandler _ = some _ from rfl)
  have second : Consecutive (twoAdded.schedulerStart.timerHandler.getD blankBoot)
      ((twoAdded.schedulerStart.timerHandler.getD blankBoot).timerHandler.getD blankBoot) :=
    ⟨.timer, show timerHandler _ = some _ from rfl⟩
  have waits := Waiting.mk (p := 2) (s := twoAdded.schedulerStart.timerHandler.getD blankBoot)
    (by decide) rfl (by decide)
  have waits' := Waiting.mk (p := 2)
    (s := (twoAdded.schedulerStart.timerHandler.getD blankBoot).timerHandler.getD blankBoot)
    (by decide) rfl (by decide)
  refine ⟨_, _, first, second, waits, waits', rfl, ?_⟩
  refine round_robin_no_overtaking _ _ _ _ 2 1 twoAdded_prepared first
    (List.isChain_pair.2 second) fun u hu => ?_
  rcases List.mem_cons.1 hu with rfl | hu
  · exact waits
  · rw [List.mem_singleton.1 hu]
    exact waits'

end CustomKernel.Scheduler
