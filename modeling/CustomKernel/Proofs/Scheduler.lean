/-
Module: CustomKernel.Proofs.Scheduler
Layer: Proofs
Purpose: The scheduler as a state machine. `TickPre` is what every caller of `scheduler_tick`
  guarantees (timer, yield, sleep, read and exit leave the current process in four different
  states), `tick_safe` turns it into `SchedulerSafe`, and the run theorems follow by induction. The
  fact everything rests on is that idle is never blocked or dead: a search that starts at any other
  process therefore never comes back empty-handed.
Imports: CustomKernel.Proofs.SchedulerRing
Trusted boundary: none (fully proved)
Main exports: SchedulerSafe, SchedulerInv, tick_safe, SchedulerInv.of_event, SchedulerInv.of_run,
  scheduler_runs_safe
-/
import CustomKernel.Proofs.SchedulerRing

namespace CustomKernel.Scheduler

open LinkedSegment CyclicOrder StepSystem

variable {s s' : Scheduler}

/-- What holds in every state after a `scheduler_tick`. -/
structure SchedulerSafe (s : Scheduler) : Prop where
  idle_state : (s.procs s.idle).state = .ready ∨ (s.procs s.idle).state = .running
  current_running : (s.procs s.current).state = .running
  running_current : ∀ p ∈ s.members, p ≠ s.idle → (s.procs p).state = .running → p = s.current
  blocked_reason : ∀ p ∈ s.members, (s.procs p).state = .blocked →
    (s.procs p).waitReason = .sleep ∨ (s.procs p).waitReason = .key
  sleeper_early : ∀ p ∈ s.members, (s.procs p).state = .blocked →
    (s.procs p).waitReason = .sleep → ¬ (s.procs p).wakeTick ≤ s.ticks

/-- The invariant of a running scheduler. -/
structure SchedulerInv (s : Scheduler) : Prop where
  ring : RingInv s
  safe : SchedulerSafe s

/-- What the callers of `scheduler_tick` guarantee. The current process may be in any state unless
    it is idle. -/
structure TickPre (s : Scheduler) : Prop where
  ring : RingInv s
  idle_state : (s.procs s.idle).state = .ready ∨ (s.procs s.idle).state = .running
  idle_current : s.current = s.idle → (s.procs s.idle).state = .running
  running_current : ∀ p ∈ s.members, p ≠ s.idle → (s.procs p).state = .running → p = s.current
  blocked_reason : ∀ p ∈ s.members, (s.procs p).state = .blocked →
    (s.procs p).waitReason = .sleep ∨ (s.procs p).waitReason = .key

/-! ### Waking -/

/-- The wake loop turns blocked processes into ready ones and does nothing else. -/
theorem wakeSleeper_cases (now : Word) (p : Process) :
    wakeSleeper now p = p ∧ ¬ (p.state = .blocked ∧ p.waitReason = .sleep ∧ p.wakeTick ≤ now) ∨
      wakeSleeper now p = { p with state := .ready, waitReason := .none } ∧ p.state = .blocked := by
  unfold wakeSleeper
  split
  · rename_i h
    exact .inr ⟨rfl, h.1⟩
  · rename_i h
    exact .inl ⟨rfl, h⟩

theorem woken_state_of_ne_blocked {p : Nat} (h : (s.procs p).state ≠ .blocked) :
    s.woken p = s.procs p := by
  unfold woken
  split
  · rcases wakeSleeper_cases s.ticks (s.procs p) with ⟨heq, -⟩ | ⟨-, hb⟩
    · exact heq
    · exact absurd hb h
  · rfl

/-- A state other than `ready` after the wake loop is the state before it. -/
theorem woken_eq_of_ne_ready {p : Nat} (h : (s.woken p).state ≠ .ready) :
    s.woken p = s.procs p := by
  unfold woken at h ⊢
  split
  · rename_i hmem
    rw [if_pos hmem] at h
    rcases wakeSleeper_cases s.ticks (s.procs p) with ⟨heq, -⟩ | ⟨heq, -⟩
    · exact heq
    · rw [heq] at h
      exact absurd rfl h
  · rfl

theorem woken_idle (ring : RingInv s) : s.woken s.idle = s.procs s.idle := by
  rw [woken, if_neg ring.idle_notMem_tail]

/-- Whoever is still blocked after the wake loop is not due. -/
theorem woken_early (ring : RingInv s) {p : Nat} (hp : p ∈ s.members) (hidle : p ≠ s.idle)
    (hb : (s.woken p).state = .blocked) :
    (s.woken p).waitReason = .sleep → ¬ (s.woken p).wakeTick ≤ s.ticks := by
  have htail : p ∈ s.members.tail := (ring.mem_iff.1 hp).resolve_left hidle
  rw [woken, if_pos htail] at hb ⊢
  rcases wakeSleeper_cases s.ticks (s.procs p) with ⟨heq, hnot⟩ | ⟨heq, -⟩
  · rw [heq] at hb ⊢
    exact fun hr hle => hnot ⟨hb, hr, hle⟩
  · rw [heq] at hb
    exact absurd hb (by simp)

/-! ### Switching -/

@[simp] theorem loadProcess_procs (s : Scheduler) (n : Nat) : (s.loadProcess n).procs = s.procs := by
  unfold loadProcess
  split <;> rfl

@[simp] theorem loadProcess_current (s : Scheduler) (n : Nat) :
    (s.loadProcess n).current = s.current := by
  unfold loadProcess
  split <;> rfl

@[simp] theorem loadProcess_idle (s : Scheduler) (n : Nat) : (s.loadProcess n).idle = s.idle := by
  unfold loadProcess
  split <;> rfl

@[simp] theorem loadProcess_ticks (s : Scheduler) (n : Nat) : (s.loadProcess n).ticks = s.ticks := by
  unfold loadProcess
  split <;> rfl

@[simp] theorem loadProcess_members (s : Scheduler) (n : Nat) :
    (s.loadProcess n).members = s.members := by
  unfold loadProcess
  split <;> rfl

@[simp] theorem switchTo_current (s : Scheduler) (n : Nat) : (s.switchTo n).current = n := by
  simp only [switchTo]
  split
  · rename_i h
    exact h.symm
  · simp

@[simp] theorem switchTo_idle (s : Scheduler) (n : Nat) : (s.switchTo n).idle = s.idle := by
  simp only [switchTo]
  split <;> simp

@[simp] theorem switchTo_ticks (s : Scheduler) (n : Nat) : (s.switchTo n).ticks = s.ticks := by
  simp only [switchTo]
  split <;> simp

@[simp] theorem switchTo_members (s : Scheduler) (n : Nat) : (s.switchTo n).members = s.members := by
  simp only [switchTo]
  split <;> simp

/-- The descriptors after a switch to another process. -/
theorem switchTo_procs {n : Nat} (hne : n ≠ s.current) (q : Nat) :
    (s.switchTo n).procs q =
      if q = n then { s.procs q with state := .running }
      else if q = s.current ∧ (s.procs q).state = .running then { s.procs q with state := .ready }
      else s.procs q := by
  simp only [switchTo, if_neg hne, loadProcess_procs]
  by_cases hq : q = n
  · subst hq
    by_cases hr : (s.procs s.current).state = .running
    · simp [hr, hne]
    · simp [hr]
  · by_cases hr : (s.procs s.current).state = .running
    · by_cases hqc : q = s.current
      · subst hqc
        simp [hr, hq]
      · simp [hr, hq, hqc]
    · by_cases hqc : q = s.current
      · subst hqc
        simp [hr, hq]
      · simp [hr, hq, hqc]

theorem switchTo_self (s : Scheduler) : s.switchTo s.current = s := by
  simp [switchTo]

/-! ### One tick -/

/-- The search comes back to the current process only when there is nobody else, and otherwise stops
    at a member of the ring that is neither blocked nor dead. -/
theorem chosen_cases (ring : RingInv s) :
    (s.chosen = s.current ∧ ∀ q ∈ s.members, q ≠ s.current → Skipped (s.woken q)) ∨
      (s.chosen ≠ s.current ∧ s.chosen ∈ s.members ∧ ¬ Skipped (s.woken s.chosen)) := by
  unfold chosen
  cases hfind : (successors s.members s.current).find? fun q => ¬ Skipped (s.woken q) with
  | none =>
      refine .inl ⟨rfl, fun q hq hne => ?_⟩
      have := List.find?_eq_none.1 hfind q ((mem_successors ring.nodup ring.current_mem).2 ⟨hq, hne⟩)
      simpa using this
  | some n =>
      have hmem := (mem_successors ring.nodup ring.current_mem).1 (List.mem_of_find?_eq_some hfind)
      have hrun := List.find?_some hfind
      exact .inr ⟨hmem.2, hmem.1, by simpa using hrun⟩

/-- The state after a tick. -/
def ticked (s : Scheduler) : Scheduler := switchTo { s with procs := s.woken } s.chosen

theorem ticked_ring (ring : RingInv s) : RingInv s.ticked := by
  have hchosen : s.chosen ∈ s.members := by
    rcases chosen_cases ring with ⟨h, -⟩ | ⟨-, h, -⟩
    · rw [h]
      exact ring.current_mem
    · exact h
  refine ring.of_next (by simp [ticked]) (by simp [ticked]) (by simpa [ticked] using hchosen) ?_
  intro p _
  by_cases hne : s.chosen = s.current
  · have : s.ticked = { s with procs := s.woken } := by
      unfold ticked
      rw [hne]
      exact switchTo_self { s with procs := s.woken }
    simp [this]
  · rw [ticked, switchTo_procs (s := { s with procs := s.woken }) hne]
    split
    · simp
    · split <;> simp

/-- A search that comes back empty-handed started at idle: idle is never passed over. -/
theorem TickPre.current_eq_idle (pre : TickPre s)
    (h : ∀ q ∈ s.members, q ≠ s.current → Skipped (s.woken q)) : s.current = s.idle := by
  by_contra hne
  have hskip := h s.idle pre.ring.idle_mem fun h => hne h.symm
  rw [woken_idle pre.ring] at hskip
  rcases pre.idle_state with hi | hi <;> simp [Skipped, hi] at hskip

/-- What a tick does to one descriptor, after the wake loop: the process it switches to is set
    running, the process it switches away from goes from running to ready, and the rest stay. -/
theorem ticked_procs_cases (s : Scheduler) (p : Nat) :
    (p = s.chosen ∧ p ≠ s.current ∧ s.ticked.procs p = { s.woken p with state := .running }) ∨
      (p = s.current ∧ (s.woken p).state = .running ∧ s.chosen ≠ p ∧
        s.ticked.procs p = { s.woken p with state := .ready }) ∨
      (s.ticked.procs p = s.woken p ∧ (p = s.chosen → p = s.current) ∧
        (p = s.current → (s.woken p).state = .running → s.chosen = p)) := by
  by_cases hne : s.chosen = s.current
  · have hticked : s.ticked = { s with procs := s.woken } := by
      unfold ticked
      rw [hne]
      exact switchTo_self { s with procs := s.woken }
    refine .inr (.inr ⟨by rw [hticked], fun h => h.trans hne, fun h _ => hne.trans h.symm⟩)
  · have hprocs := switchTo_procs (s := { s with procs := s.woken }) hne p
    by_cases hp : p = s.chosen
    · refine .inl ⟨hp, fun h => hne (hp.symm.trans h), ?_⟩
      rw [ticked, hprocs, if_pos hp]
    · by_cases hc : p = s.current ∧ (s.woken p).state = .running
      · refine .inr (.inl ⟨hc.1, hc.2, fun h => hp h.symm, ?_⟩)
        rw [ticked, hprocs, if_neg hp, if_pos hc]
      · refine .inr (.inr ⟨?_, fun h => absurd h hp, fun h hr => absurd ⟨h, hr⟩ hc⟩)
        rw [ticked, hprocs, if_neg hp, if_neg hc]

@[simp] theorem ticked_current (s : Scheduler) : s.ticked.current = s.chosen := by simp [ticked]

@[simp] theorem ticked_idle (s : Scheduler) : s.ticked.idle = s.idle := by simp [ticked]

@[simp] theorem ticked_ticks (s : Scheduler) : s.ticked.ticks = s.ticks := by simp [ticked]

@[simp] theorem ticked_members (s : Scheduler) : s.ticked.members = s.members := by simp [ticked]

/-- Whoever is blocked after a tick was blocked before it and is not due. -/
theorem ticked_blocked (pre : TickPre s) {p : Nat} (hp : p ∈ s.members)
    (hb : (s.ticked.procs p).state = .blocked) :
    s.ticked.procs p = s.procs p ∧
      ((s.procs p).waitReason = .sleep → ¬ (s.procs p).wakeTick ≤ s.ticks) := by
  rcases ticked_procs_cases s p with ⟨-, -, h⟩ | ⟨-, -, -, h⟩ | ⟨h, -, -⟩
  · rw [h] at hb
    simp at hb
  · rw [h] at hb
    simp at hb
  · rw [h] at hb ⊢
    have heq := woken_eq_of_ne_ready (s := s) (p := p) (by rw [hb]; decide)
    have hidle : p ≠ s.idle := by
      rintro rfl
      rw [heq] at hb
      rcases pre.idle_state with hi | hi <;> rw [hi] at hb <;> simp at hb
    have hearly := woken_early pre.ring hp hidle hb
    rw [heq] at hearly
    exact ⟨heq, hearly⟩

theorem ticked_idle_state (pre : TickPre s) :
    (s.ticked.procs s.idle).state = .ready ∨ (s.ticked.procs s.idle).state = .running := by
  rcases ticked_procs_cases s s.idle with ⟨-, -, h⟩ | ⟨-, -, -, h⟩ | ⟨h, -, -⟩
  · exact .inr (by rw [h])
  · exact .inl (by rw [h])
  · rw [h, woken_idle pre.ring]
    exact pre.idle_state

/-- The current process runs after a tick. When the search came back to the caller, the caller was
    idle, which was running. -/
theorem ticked_current_running (pre : TickPre s) :
    (s.ticked.procs s.chosen).state = .running := by
  rcases ticked_procs_cases s s.chosen with ⟨-, -, h⟩ | ⟨-, -, hne, -⟩ | ⟨h, hself, -⟩
  · rw [h]
  · exact absurd rfl hne
  · rcases chosen_cases pre.ring with ⟨hchosen, hskip⟩ | ⟨hne, -, -⟩
    · have hidle := pre.current_eq_idle hskip
      rw [h, hchosen, hidle, woken_idle pre.ring]
      exact pre.idle_current hidle
    · exact absurd (hself rfl) hne

theorem ticked_running_current (pre : TickPre s) {p : Nat} (hp : p ∈ s.members)
    (hidle : p ≠ s.idle) (hr : (s.ticked.procs p).state = .running) : p = s.chosen := by
  rcases ticked_procs_cases s p with ⟨h, -, -⟩ | ⟨-, -, -, h⟩ | ⟨h, -, hstay⟩
  · exact h
  · rw [h] at hr
    simp at hr
  · rw [h] at hr
    have heq := woken_eq_of_ne_ready (s := s) (p := p) (by rw [hr]; decide)
    have hrun : (s.procs p).state = .running := by rw [← heq]; exact hr
    exact (hstay (pre.running_current p hp hidle hrun) hr).symm

/-- After a tick from a state the callers guarantee, the scheduler is in a safe state. -/
theorem tick_safe (pre : TickPre s) : SchedulerInv s.ticked where
  ring := ticked_ring pre.ring
  safe := {
    idle_state := by simpa using ticked_idle_state pre
    current_running := by simpa using ticked_current_running pre
    running_current := fun p hp hidle hr => by
      simpa using ticked_running_current pre (by simpa using hp) (by simpa using hidle) hr
    blocked_reason := fun p hp hb => by
      have hp' : p ∈ s.members := by simpa using hp
      have heq := (ticked_blocked pre hp' hb).1
      rw [heq] at hb ⊢
      exact pre.blocked_reason p hp' hb
    sleeper_early := fun p hp hb hr => by
      have hp' : p ∈ s.members := by simpa using hp
      obtain ⟨heq, hearly⟩ := ticked_blocked pre hp' hb
      rw [heq] at hr ⊢
      simpa using hearly hr }

/-- Whoever is dead stays dead, and is not the process a tick switches to. -/
theorem ticked_dead (pre : TickPre s) {p : Nat} (hdead : (s.procs p).state = .dead) :
    (s.ticked.procs p).state = .dead ∧ s.chosen ≠ p := by
  have hw : s.woken p = s.procs p := woken_state_of_ne_blocked (by rw [hdead]; decide)
  have hchosen : s.chosen ≠ p := by
    intro h
    have hrun := ticked_current_running pre
    rcases chosen_cases pre.ring with ⟨hself, hskip⟩ | ⟨-, -, hnot⟩
    · have hidle := pre.current_eq_idle hskip
      have hirun := pre.idle_current hidle
      rw [← hidle, ← hself, h, hdead] at hirun
      simp at hirun
    · rw [h, hw] at hnot
      exact hnot (.inl hdead)
  refine ⟨?_, hchosen⟩
  rcases ticked_procs_cases s p with ⟨h, -, -⟩ | ⟨-, hrun, -, -⟩ | ⟨h, -, -⟩
  · exact absurd h.symm hchosen
  · rw [hw, hdead] at hrun
    simp at hrun
  · rw [h, hw]
    exact hdead

/-! ### The callers of `scheduler_tick` -/

theorem SchedulerInv.tickPre (inv : SchedulerInv s) : TickPre s where
  ring := inv.ring
  idle_state := inv.safe.idle_state
  idle_current h := h ▸ inv.safe.current_running
  running_current := inv.safe.running_current
  blocked_reason := inv.safe.blocked_reason

/-- The timer only advances the clock before it calls `scheduler_tick`. -/
theorem TickPre.advance (pre : TickPre s) : TickPre { s with ticks := s.ticks + 1 } where
  ring := pre.ring.of_next rfl rfl pre.ring.current_mem fun _ _ => rfl
  idle_state := pre.idle_state
  idle_current := pre.idle_current
  running_current := pre.running_current
  blocked_reason := pre.blocked_reason

/-- A system call may leave the current process in any state but running, with a reason if it is
    blocked, as long as the current process is not idle. -/
theorem SchedulerInv.updateCurrent (inv : SchedulerInv s) (hidle : s.current ≠ s.idle)
    {f : Process → Process} (hnext : ∀ p, (f p).next = p.next)
    (hreason : ∀ p, (f p).state = .blocked →
      (f p).waitReason = .sleep ∨ (f p).waitReason = .key) : TickPre (s.updateCurrent f) := by
  have hprocs : ∀ p, p ≠ s.current → (s.updateCurrent f).procs p = s.procs p := fun p hp => by
    simp [Scheduler.updateCurrent, hp]
  have hcur : (s.updateCurrent f).procs s.current = f (s.procs s.current) := by
    simp [Scheduler.updateCurrent]
  have hi : (s.updateCurrent f).procs s.idle = s.procs s.idle := hprocs _ fun h => hidle h.symm
  refine ⟨?_, ?_, fun h => absurd h hidle, fun p hp hpi hr => ?_, fun p hp hb => ?_⟩
  · refine inv.ring.of_next rfl rfl inv.ring.current_mem fun p _ => ?_
    by_cases hp : p = s.current
    · rw [hp, hcur, hnext]
    · rw [hprocs p hp]
  · show ((s.updateCurrent f).procs s.idle).state = .ready ∨ _ = _
    rw [show ((s.updateCurrent f).idle) = s.idle from rfl, hi]
    exact inv.safe.idle_state
  · by_cases hpc : p = s.current
    · exact hpc
    · rw [hprocs p hpc] at hr
      exact inv.safe.running_current p hp hpi hr
  · by_cases hpc : p = s.current
    · rw [hpc, hcur] at hb ⊢
      exact hreason _ hb
    · rw [hprocs p hpc] at hb ⊢
      exact inv.safe.blocked_reason p hp hb

/-- The state in which a system call or the timer calls `scheduler_tick`; `none` for the events that
    do not call it. -/
def tickState (s : Scheduler) : Event → Option Scheduler
  | .timer => some { s with ticks := s.ticks + 1 }
  | .yield => some s
  | .sleep ticks => some (s.updateCurrent fun curr =>
      { curr with wakeTick := s.ticks + ticks, waitReason := .sleep, state := .blocked })
  | .read => some (s.updateCurrent fun curr => { curr with waitReason := .key, state := .blocked })
  | .exit => some (s.updateCurrent fun curr => { curr with state := .dead })
  | .key | .add _ _ => none

/-- Every state in which `scheduler_tick` is called is one its callers guarantee; the calls leave
    every process but the current one alone and keep the dead dead. -/
theorem tickState_pre (inv : SchedulerInv s) {e : Event} (hsys : e = .timer ∨ s.current ≠ s.idle)
    {t : Scheduler} (ht : s.tickState e = some t) :
    TickPre t ∧ t.members = s.members ∧ t.current = s.current ∧
      (∀ p, p ≠ s.current → t.procs p = s.procs p) ∧
      ∀ p, p ∈ s.members → (s.procs p).state = .dead → t.procs p = s.procs p := by
  have hlive : ∀ p, (s.procs p).state = .dead → p ≠ s.current := by
    rintro p hd rfl
    rw [inv.safe.current_running] at hd
    simp at hd
  have hup : ∀ (f : Process → Process) p, p ≠ s.current →
      (s.updateCurrent f).procs p = s.procs p := fun f p hp => by simp [Scheduler.updateCurrent, hp]
  cases e with
  | timer =>
      obtain rfl : { s with ticks := s.ticks + 1 } = t := by simpa [tickState] using ht
      exact ⟨inv.tickPre.advance, rfl, rfl, fun _ _ => rfl, fun _ _ _ => rfl⟩
  | yield =>
      obtain rfl : s = t := by simpa [tickState] using ht
      exact ⟨inv.tickPre, rfl, rfl, fun _ _ => rfl, fun _ _ _ => rfl⟩
  | sleep ticks =>
      obtain rfl := Option.some.inj ht
      have hcur := hsys.resolve_left (by simp)
      exact ⟨inv.updateCurrent hcur (fun _ => rfl) fun _ _ => .inl rfl, rfl, rfl, hup _,
        fun p _ hd => hup _ p (hlive p hd)⟩
  | read =>
      obtain rfl := Option.some.inj ht
      have hcur := hsys.resolve_left (by simp)
      exact ⟨inv.updateCurrent hcur (fun _ => rfl) fun _ _ => .inr rfl, rfl, rfl, hup _,
        fun p _ hd => hup _ p (hlive p hd)⟩
  | exit =>
      obtain rfl := Option.some.inj ht
      have hcur := hsys.resolve_left (by simp)
      exact ⟨inv.updateCurrent hcur (fun _ => rfl) fun _ h => by simp at h, rfl, rfl, hup _,
        fun p _ hd => hup _ p (hlive p hd)⟩
  | key => simp [tickState] at ht
  | add address created => simp [tickState] at ht

/-- What an event does: it calls `scheduler_tick` in the state above, or wakes a key waiter, or adds
    a fresh process to the ring. -/
theorem eventStep_cases (inv : SchedulerInv s) {e : Event} (step : s.EventStep e s') :
    (∃ t, s.tickState e = some t ∧ TickPre t ∧ t.members = s.members ∧ t.current = s.current ∧
        (∀ p, p ≠ s.current → t.procs p = s.procs p) ∧
        (∀ p, p ∈ s.members → (s.procs p).state = .dead → t.procs p = s.procs p) ∧
        s' = t.ticked) ∨
      (e = .key ∧ s' = s.keyWoken) ∨
      ∃ address created, e = .add address created ∧ address ≠ 0 ∧ address ∉ s.members ∧
        { s with procs := setProcess s.procs address created }.schedulerAdd address = some s' := by
  have tick : ∀ {t}, s.tickState e = some t → (e = .timer ∨ s.current ≠ s.idle) →
      t.schedulerTick = some s' →
      ∃ t, s.tickState e = some t ∧ TickPre t ∧ t.members = s.members ∧ t.current = s.current ∧
        (∀ p, p ≠ s.current → t.procs p = s.procs p) ∧
        (∀ p, p ∈ s.members → (s.procs p).state = .dead → t.procs p = s.procs p) ∧
        s' = t.ticked := by
    intro t ht hsys hstep
    obtain ⟨pre, hmem, hcur, hsame, hdead⟩ := tickState_pre inv hsys ht
    refine ⟨t, ht, pre, hmem, hcur, hsame, hdead, ?_⟩
    rw [schedulerTick_eq pre.ring] at hstep
    exact (Option.some.inj hstep).symm
  have hcur0 := inv.ring.ne_null inv.ring.current_mem
  cases e with
  | timer => exact .inl (tick rfl (.inl rfl) step)
  | yield => exact .inl (tick rfl (.inr step.1) step.2)
  | sleep ticks =>
      have hstep := step.2
      rw [sysSleep, if_neg hcur0] at hstep
      exact .inl (tick rfl (.inr step.1) hstep)
  | read => exact .inl (tick rfl (.inr step.1) step.2)
  | exit =>
      have hstep := step.2
      rw [sysExit, if_pos hcur0] at hstep
      exact .inl (tick rfl (.inr step.1) hstep)
  | key =>
      have hstep : s.schedulerWakeKeyWaiter = some s' := step
      rw [schedulerWakeKeyWaiter_eq inv.ring] at hstep
      exact .inr (.inl ⟨rfl, (Option.some.inj hstep).symm⟩)
  | add address created => exact .inr (.inr ⟨address, created, rfl, step⟩)

/-! ### Invariant and runs -/

/-- What the key interrupt does to one descriptor: it may turn a blocked process into a ready one. -/
theorem keyWoken_procs_cases (s : Scheduler) (p : Nat) :
    s.keyWoken.procs p = s.procs p ∨
      (s.procs p).state = .blocked ∧
        s.keyWoken.procs p = { s.procs p with state := .ready, waitReason := .none } := by
  unfold keyWoken
  cases hq : s.keyWaiter with
  | none => exact .inl rfl
  | some q =>
      have hwait : WaitsForKey (s.procs q) := by simpa using List.find?_some hq
      by_cases hp : p = q
      · subst hp
        exact .inr ⟨hwait.1, by simp⟩
      · exact .inl (by simp [hp])

theorem keyWoken_rest (s : Scheduler) :
    s.keyWoken.current = s.current ∧ s.keyWoken.idle = s.idle ∧ s.keyWoken.ticks = s.ticks ∧
      s.keyWoken.members = s.members := by
  unfold keyWoken
  cases s.keyWaiter with
  | none => exact ⟨rfl, rfl, rfl, rfl⟩
  | some q => exact ⟨rfl, rfl, rfl, rfl⟩

/-- The pointers are the same after a key wake-up. -/
theorem keyWoken_ring (ring : RingInv s) : RingInv s.keyWoken := by
  obtain ⟨hcur, hidle, -, hmem⟩ := keyWoken_rest s
  refine ring.of_next hidle hmem (hcur ▸ ring.current_mem) fun p _ => ?_
  rcases keyWoken_procs_cases s p with h | ⟨-, h⟩ <;> rw [h]

theorem SchedulerInv.keyWoken (inv : SchedulerInv s) : SchedulerInv s.keyWoken := by
  obtain ⟨hcur, hidle, hticks, hmem⟩ := keyWoken_rest s
  -- a descriptor that is not ready afterwards has not been touched
  have hsame : ∀ p, (s.keyWoken.procs p).state ≠ .ready → s.keyWoken.procs p = s.procs p :=
    fun p hp => (keyWoken_procs_cases s p).resolve_right fun h => hp (by rw [h.2])
  have hlive : ∀ p, (s.procs p).state ≠ .blocked → s.keyWoken.procs p = s.procs p :=
    fun p hp => (keyWoken_procs_cases s p).resolve_right fun h => hp h.1
  have hidle_same : s.keyWoken.procs s.idle = s.procs s.idle :=
    hlive _ (by rcases inv.safe.idle_state with h | h <;> rw [h] <;> decide)
  refine ⟨keyWoken_ring inv.ring, ?_, ?_, fun p hp hpi hr => ?_, fun p hp hb => ?_,
    fun p hp hb hr => ?_⟩
  · rw [hidle, hidle_same]
    exact inv.safe.idle_state
  · rw [hcur, hlive _ (by rw [inv.safe.current_running]; decide)]
    exact inv.safe.current_running
  · rw [hsame p (by rw [hr]; decide)] at hr
    rw [hcur]
    exact inv.safe.running_current p (hmem ▸ hp) (hidle ▸ hpi) hr
  · have heq := hsame p (by rw [hb]; decide)
    rw [heq] at hb ⊢
    exact inv.safe.blocked_reason p (hmem ▸ hp) hb
  · have heq := hsame p (by rw [hb]; decide)
    rw [heq] at hb hr ⊢
    rw [hticks]
    exact inv.safe.sleeper_early p (hmem ▸ hp) hb hr

theorem SchedulerInv.add (inv : SchedulerInv s) {address : Nat} {created : Process}
    (hne : address ≠ 0) (hfresh : address ∉ s.members)
    (hadd : { s with procs := setProcess s.procs address created }.schedulerAdd address = some s') :
    SchedulerInv s' := by
  obtain ⟨hring, hmem, hcur, hidle, hticks, hready, hold⟩ :=
    schedulerAdd_spec inv.ring hne hfresh hadd
  -- a member that is not ready is one of the old ones, with its fields unchanged
  have hcases : ∀ p ∈ s'.members, (s'.procs p).state ≠ .ready →
      p ∈ s.members ∧ s'.procs p = { s.procs p with next := (s'.procs p).next } := by
    intro p hp hstate
    rw [hmem] at hp
    rcases List.mem_append.1 hp with hp | hp
    · exact ⟨hp, hold p hp⟩
    · rw [List.mem_singleton.1 hp, hready] at hstate
      exact absurd rfl hstate
  refine ⟨hring, ?_, ?_, fun p hp hpi hr => ?_, fun p hp hb => ?_, fun p hp hb hr => ?_⟩
  · rw [hidle, hold _ inv.ring.idle_mem]
    exact inv.safe.idle_state
  · rw [hcur, hold _ inv.ring.current_mem]
    exact inv.safe.current_running
  · obtain ⟨hp', heq⟩ := hcases p hp (by rw [hr]; decide)
    rw [heq] at hr
    rw [hcur]
    exact inv.safe.running_current p hp' (hidle ▸ hpi) hr
  · obtain ⟨hp', heq⟩ := hcases p hp (by rw [hb]; decide)
    rw [heq] at hb ⊢
    exact inv.safe.blocked_reason p hp' hb
  · obtain ⟨hp', heq⟩ := hcases p hp (by rw [hb]; decide)
    rw [heq] at hb hr ⊢
    rw [hticks]
    exact inv.safe.sleeper_early p hp' hb hr

/-- Every event keeps the invariant. -/
theorem SchedulerInv.of_event (inv : SchedulerInv s) {e : Event} (step : s.EventStep e s') :
    SchedulerInv s' := by
  rcases eventStep_cases inv step with ⟨t, -, pre, -, -, -, -, rfl⟩ | ⟨-, rfl⟩ |
    ⟨address, created, -, hne, hfresh, hadd⟩
  · exact tick_safe pre
  · exact inv.keyWoken
  · exact inv.add hne hfresh hadd

/-- Nobody is taken out of the ring. -/
theorem mem_of_event (inv : SchedulerInv s) {e : Event} (step : s.EventStep e s') {p : Nat}
    (hp : p ∈ s.members) : p ∈ s'.members := by
  rcases eventStep_cases inv step with ⟨t, -, -, hmem, -, -, -, rfl⟩ | ⟨-, rfl⟩ |
    ⟨address, created, -, hne, hfresh, hadd⟩
  · simpa [hmem] using hp
  · exact (keyWoken_rest s).2.2.2 ▸ hp
  · have hmem := (schedulerAdd_spec inv.ring hne hfresh hadd).2.1
    exact hmem ▸ List.mem_append_left _ hp

/-- A dead member stays dead, and is not current after the event. -/
theorem dead_of_event (inv : SchedulerInv s) {e : Event} (step : s.EventStep e s') {p : Nat}
    (hp : p ∈ s.members) (hdead : (s.procs p).state = .dead) :
    (s'.procs p).state = .dead ∧ s'.current ≠ p := by
  have hlive : s.current ≠ p := by
    rintro rfl
    rw [inv.safe.current_running] at hdead
    simp at hdead
  rcases eventStep_cases inv step with ⟨t, -, pre, -, -, -, hkeep, rfl⟩ | ⟨-, rfl⟩ |
    ⟨address, created, -, hne, hfresh, hadd⟩
  · have hd : (t.procs p).state = .dead := by rw [hkeep p hp hdead]; exact hdead
    obtain ⟨hd', hne⟩ := ticked_dead pre hd
    exact ⟨hd', by simpa using hne⟩
  · refine ⟨?_, (keyWoken_rest s).1 ▸ hlive⟩
    rcases keyWoken_procs_cases s p with h | ⟨hb, -⟩
    · rw [h]
      exact hdead
    · rw [hdead] at hb
      simp at hb
  · obtain ⟨-, -, hcur, -, -, -, hold⟩ := schedulerAdd_spec inv.ring hne hfresh hadd
    refine ⟨?_, hcur ▸ hlive⟩
    rw [hold p hp]
    exact hdead

/-- What `scheduler_start` finds. -/
structure PreparedInv (s : Scheduler) : Prop where
  ring : RingInv s
  current_idle : s.current = s.idle
  idle_running : (s.procs s.idle).state = .running
  others_ready : ∀ p ∈ s.members, p ≠ s.idle → (s.procs p).state = .ready

theorem preparedInv_init (boot : Scheduler) {idle : Nat} (hidle : idle ≠ 0) :
    PreparedInv (boot.schedulerInit idle) where
  ring := ⟨rfl, by simp [schedulerInit], by simpa [schedulerInit] using hidle.symm,
    by simp [schedulerInit, Seg, nextOf], by simp [schedulerInit]⟩
  current_idle := rfl
  idle_running := by simp [schedulerInit]
  others_ready p hp hne := by simp [schedulerInit] at hp hne; exact absurd hp hne

theorem PreparedInv.add (inv : PreparedInv s) {address : Nat} {created : Process}
    (step : s.EventStep (.add address created) s') : PreparedInv s' := by
  obtain ⟨hne, hfresh, hadd⟩ := step
  obtain ⟨hring, hmem, hcur, hidle, -, hready, hold⟩ := schedulerAdd_spec inv.ring hne hfresh hadd
  refine ⟨hring, by rw [hcur, hidle]; exact inv.current_idle, ?_, fun p hp hpi => ?_⟩
  · rw [hidle, hold _ inv.ring.idle_mem]
    exact inv.idle_running
  · rw [hmem] at hp
    rcases List.mem_append.1 hp with hp | hp
    · rw [hold p hp]
      exact inv.others_ready p hp (hidle ▸ hpi)
    · rw [List.mem_singleton.1 hp]
      exact hready

theorem Prepared.inv (h : Prepared s) : PreparedInv s := by
  obtain ⟨boot, idle, added, hidle, run⟩ := h
  exact run.invariant PreparedInv (fun _ _ _ inv step => inv.add step) (preparedInv_init boot hidle)

/-- `scheduler_start` moves on to the process behind the current one, and sets it running. -/
theorem schedulerStart_spec (ring : RingInv s) :
    (∀ p, s.schedulerStart.procs p =
      if p = (s.procs s.current).next then
        { s.procs (s.procs s.current).next with state := .running }
      else s.procs p) ∧
    s.schedulerStart.current = (s.procs s.current).next ∧ s.schedulerStart.idle = s.idle ∧
      s.schedulerStart.members = s.members := by
  have hnext := ring.next_mem ring.current_mem
  have hguard : ¬ (s.current = 0 ∨ (s.procs s.current).next = 0) :=
    fun h => h.elim (ring.ne_null ring.current_mem) (ring.ne_null hnext)
  unfold schedulerStart
  rw [if_neg hguard]
  refine ⟨fun p => ?_, loadProcess_current .., loadProcess_idle .., loadProcess_members ..⟩
  rw [loadProcess_procs]
  by_cases hp : p = (s.procs s.current).next
  · simp [hp]
  · simp [hp]

/-- The ring stays. -/
theorem schedulerStart_ring (ring : RingInv s) : RingInv s.schedulerStart := by
  obtain ⟨hprocs, hcurrent, hidle, hmem⟩ := schedulerStart_spec ring
  have hnext := ring.next_mem ring.current_mem
  refine ring.of_next hidle hmem (hcurrent ▸ hnext) fun p _ => ?_
  rw [hprocs]
  split
  · rename_i hp
    rw [hp]
  · rfl

/-- `scheduler_start` establishes the invariant. Idle is left running, although it is no longer
    current unless it is alone. -/
theorem schedulerStart_inv (h : PreparedInv s) : SchedulerInv s.schedulerStart := by
  obtain ⟨hprocs, hcurrent, hidle, hmem⟩ := schedulerStart_spec h.ring
  have hnotBlocked : ∀ p ∈ s.members, (s.schedulerStart.procs p).state ≠ .blocked := by
    intro p hp
    rw [hprocs]
    split
    · simp
    · by_cases hpi : p = s.idle
      · rw [hpi, h.idle_running]
        decide
      · rw [h.others_ready p hp hpi]
        decide
  refine ⟨schedulerStart_ring h.ring, ?_, ?_, fun p hp hpi hr => ?_, fun p hp hb => ?_,
    fun p hp hb => ?_⟩
  · rw [hidle, hprocs]
    split
    · exact .inr rfl
    · exact .inr h.idle_running
  · rw [hcurrent, hprocs, if_pos rfl]
  · rw [hcurrent]
    by_contra hne
    rw [hprocs, if_neg hne, h.others_ready p (hmem ▸ hp) (hidle ▸ hpi)] at hr
    simp at hr
  · exact absurd hb (hnotBlocked p (hmem ▸ hp))
  · exact absurd hb (hnotBlocked p (hmem ▸ hp))

/-- The invariant holds in every state after `scheduler_start`. -/
theorem SchedulerInv.of_run {events : List Event} (prepared : Prepared s)
    (run : Run EventStep s.schedulerStart events s') : SchedulerInv s' :=
  run.invariant SchedulerInv (fun _ _ _ inv step => inv.of_event step)
    (schedulerStart_inv prepared.inv)

/-- Every run of the scheduler after `scheduler_start` stays safe: idle is ready or running, the
    current process runs and is the only one apart from idle that does, the blocked processes wait
    for a tick that has not come or for a key, and a process that is dead at some point of the run is
    dead and not current at every later point. -/
theorem scheduler_runs_safe (s t u : Scheduler) (first second : List Event) (prepared : Prepared s)
    (run : Run EventStep s.schedulerStart first t) (later : Run EventStep t second u) :
    SchedulerSafe u ∧
      ∀ p ∈ t.members, (t.procs p).state = .dead → (u.procs p).state = .dead ∧ u.current ≠ p := by
  have invT := SchedulerInv.of_run prepared run
  refine ⟨(SchedulerInv.of_run prepared (run.append later)).safe, fun p hp hdead => ?_⟩
  have hlive : t.current ≠ p := by
    rintro rfl
    rw [invT.safe.current_running] at hdead
    simp at hdead
  have hkept := later.invariant
    (fun s => SchedulerInv s ∧ p ∈ s.members ∧ (s.procs p).state = .dead ∧ s.current ≠ p)
    (fun s e s' h step => ⟨h.1.of_event step, mem_of_event h.1 step h.2.1,
      dead_of_event h.1 step h.2.1 h.2.2.1⟩)
    ⟨invT, hp, hdead, hlive⟩
  exact hkept.2.2

/-- A boot state with blank descriptors. -/
def blankBoot : Scheduler :=
  { procs := fun _ => {}, current := 0, idle := 0, ticks := 0, tssRsp0 := 0, cr3 := 0, members := [] }

/-- A blank process linked in at the given address. -/
def addBlank (s : Scheduler) (address : Nat) : Scheduler :=
  ({ s with procs := setProcess s.procs address {} }.schedulerAdd address).getD s

/-- Idle at address 1, two processes at 2 and 3. -/
def twoAdded : Scheduler := addBlank (addBlank (blankBoot.schedulerInit 1) 2) 3

theorem twoAdded_prepared : Prepared twoAdded :=
  ⟨blankBoot, 1, [(2, {}), (3, {})], by decide,
    .cons (t := addBlank (blankBoot.schedulerInit 1) 2) ⟨by decide, by decide, rfl⟩
      (.cons (t := twoAdded) ⟨by decide, by decide, rfl⟩ (.nil _))⟩

/-- The first process exits, and it is still dead after the next tick. -/
theorem scheduler_runs_safe_after_exit :
    ∃ t u, Run EventStep twoAdded.schedulerStart [.exit] t ∧ Run EventStep t [.timer] u ∧
      (t.procs 2).state = .dead ∧ (u.procs 2).state = .dead ∧ u.current ≠ 2 := by
  have first : Run EventStep twoAdded.schedulerStart [.exit]
      (twoAdded.schedulerStart.sysExit.getD blankBoot) := .single ⟨by decide, rfl⟩
  have second : Run EventStep (twoAdded.schedulerStart.sysExit.getD blankBoot) [.timer]
      ((twoAdded.schedulerStart.sysExit.getD blankBoot).timerHandler.getD blankBoot) :=
    .single (show timerHandler _ = some _ from rfl)
  exact ⟨_, _, first, second, rfl,
    (scheduler_runs_safe _ _ _ _ _ twoAdded_prepared first second).2 2 (by decide) rfl⟩

end CustomKernel.Scheduler
