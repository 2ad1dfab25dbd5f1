/-
Module: CustomKernel.Proofs.BootHandoff
Layer: Proofs
Purpose: From the boot code to the first process. `kernel_main` enables interrupts before it calls
  `scheduler_start`, with `current` already set to idle, and `scheduler_start` saves the boot code in
  `boot_context`, not in idle's context. A tick that switches in between files the boot code under
  the wrong process, and its continuation is resumed twice later on. Without such a tick every
  context is loaded at most once.
  A saved stack pointer stands for the continuation it resumes; each store of one has its origin.
Imports: CustomKernel.Proofs.Scheduler
Trusted boundary: none (fully proved)
Main exports: BootPc, Flow, Origin, Saved, Handoff, Handoff.Step, QuietBoot, HandoffInv,
  boot_handoff
-/
import CustomKernel.Proofs.Scheduler

namespace CustomKernel

open StepSystem Scheduler

/-! ### The system -/

/-- Where the boot code is: behind the `sti`, then behind each statement of `scheduler_start`. -/
inductive BootPc where
  | sti
  | chosen (next : Nat)
  | marked (next : Nat)
  | announced (next : Nat)
  /-- Behind the `context_switch`, or behind an early return: nothing is left to do. -/
  | done
deriving DecidableEq, Repr

/-- What runs: the boot code, or what the constructor of a process set up. -/
inductive Flow where
  | boot (pc : BootPc)
  | proc (p : Nat)
deriving DecidableEq, Repr

/-- Who stored a stack pointer: the constructor of a process, or the `context_switch` number `n`
    with the process, or `boot_context` (`none`), as its first argument. -/
inductive Origin where
  | constructor (p : Nat)
  | switchOut (p : Option Nat) (n : Nat)
deriving DecidableEq, Repr

/-- The process whose context it was stored in. -/
def Origin.owner : Origin → Option Nat
  | .constructor p => some p
  | .switchOut p _ => p

/-- A stored stack pointer. -/
structure Saved where
  origin : Origin
  flow : Flow
deriving DecidableEq, Repr

/-- The scheduler, the contexts (`none` is `boot_context`), what runs, and the loads so far, the
    last one first. -/
structure Handoff where
  sched : Scheduler
  saved : Option Nat → Saved
  running : Flow
  /-- The constructor of a process or its last switch-out. -/
  latest : Nat → Origin
  switches : Nat
  loads : List (Nat × Origin)

/-- What can happen. -/
inductive HandoffEvent where
  /-- The next statement of the boot code. -/
  | boot
  | sched (event : Scheduler.Event)
deriving DecidableEq, Repr

namespace Handoff

/-- `context_switch(x, y)`, without the address space. -/
def contextSwitch (k : Handoff) (x : Option Nat) (y : Nat) : Handoff :=
  { k with
    saved := Function.update k.saved x ⟨.switchOut x k.switches, k.running⟩
    running := (k.saved (some y)).flow
    latest := match x with
      | none => k.latest
      | some p => Function.update k.latest p (.switchOut x k.switches)
    switches := k.switches + 1
    loads := (y, (k.saved (some y)).origin) :: k.loads }

/-- The boot code at one of its statements. -/
def bootStep (k : Handoff) : BootPc → Option Handoff
  | .sti =>
      if k.sched.current = 0 ∨ (k.sched.procs k.sched.current).next = 0 then
        some { k with running := .boot .done }
      else some { k with running := .boot (.chosen (k.sched.procs k.sched.current).next) }
  | .chosen next =>
      some { k with
        sched := { k.sched with
          procs := setProcess k.sched.procs next { k.sched.procs next with state := .running } }
        running := .boot (.marked next) }
  | .marked next =>
      some { k with
        sched := { k.sched with current := next }
        running := .boot (.announced next) }
  | .announced next =>
      some (contextSwitch
        { k with sched := k.sched.loadProcess next, running := .boot .done } none next)
  | .done => none

/-- An event that runs to the end of its `scheduler_tick`: if another process is current then,
    `context_switch` has been called. -/
def ticked (k : Handoff) (s : Scheduler) : Handoff :=
  if s.current = k.sched.current then { k with sched := s }
  else { k.contextSwitch (some k.sched.current) s.current with sched := s }

/-- The boot code makes no system calls, and processes are created before the `sti` only. -/
def Admits : Flow → Scheduler.Event → Prop
  | _, .timer | _, .key => True
  | .proc _, .yield | .proc _, .sleep _ | .proc _, .read | .proc _, .exit => True
  | _, _ => False

/-- One event. -/
def Step (k : Handoff) : HandoffEvent → Handoff → Prop
  | .boot, k' => ∃ pc, k.running = .boot pc ∧ k.bootStep pc = some k'
  | .sched event, k' => Admits k.running event ∧
      ∃ s, k.sched.EventStep event s ∧ k' = k.ticked s

/-- The state behind the `sti`: the contexts are those the constructors have set up. What
    `boot_context` holds, nobody loads. -/
def start (s : Scheduler) : Handoff where
  sched := s
  saved := fun x => match x with
    | none => ⟨.switchOut none 0, .boot .done⟩
    | some p => ⟨.constructor p, .proc p⟩
  running := .boot .sti
  latest := .constructor
  switches := 0
  loads := []

/-- No timer interrupt reaches the boot code, unless there is no other process to switch to. -/
def QuietBoot (k : Handoff) : HandoffEvent → Prop
  | .sched .timer => ∀ pc, k.running = .boot pc → ∀ p ∈ k.sched.members, p = k.sched.current
  | _ => True

/-- A context may be loaded: it is the last one stored for the process, and has not been loaded. -/
def Fresh (k : Handoff) (y : Nat) : Prop :=
  (k.saved (some y)).origin = k.latest y ∧ (k.saved (some y)).origin.owner = some y ∧
    (k.saved (some y)).origin ∉ k.loads.map Prod.snd

end Handoff

/-! ### The boot code without a switch -/

/-- The scheduler at a point of the boot code that found it in the state `s`. -/
def stage (s : Scheduler) : BootPc → Scheduler
  | .sti | .chosen _ | .done => s
  | .marked next =>
      { s with procs := setProcess s.procs next { s.procs next with state := .running } }
  | .announced next =>
      { s with
        procs := setProcess s.procs next { s.procs next with state := .running }
        current := next }

/-- The process that the boot code has picked is the successor of idle. -/
def BootPc.Picked (s : Scheduler) : BootPc → Prop
  | .sti => True
  | .chosen next | .marked next | .announced next => next = (s.procs s.current).next
  | .done => False

section Stages

variable {s : Scheduler} {pc : BootPc}

theorem setRunning_procs (s : Scheduler) (next p : Nat) :
    setProcess s.procs next { s.procs next with state := .running } p = s.procs p ∨
      (p = next ∧ setProcess s.procs next { s.procs next with state := .running } p =
        { s.procs p with state := .running }) := by
  by_cases hp : p = next
  · exact .inr ⟨hp, by rw [hp, setProcess_self]⟩
  · exact .inl (setProcess_of_ne hp _)

/-- The boot code changes states of processes, and nothing about the ring. -/
theorem stage_procs (s : Scheduler) (pc : BootPc) (p : Nat) :
    (stage s pc).procs p = s.procs p ∨
      (stage s pc).procs p = { s.procs p with state := .running } := by
  cases pc with
  | sti => exact .inl rfl
  | chosen next => exact .inl rfl
  | done => exact .inl rfl
  | marked next => exact (setRunning_procs s next p).imp_right And.right
  | announced next => exact (setRunning_procs s next p).imp_right And.right

theorem stage_rest (s : Scheduler) (pc : BootPc) :
    (stage s pc).idle = s.idle ∧ (stage s pc).members = s.members := by
  cases pc <;> exact ⟨rfl, rfl⟩

theorem stage_ring (h : PreparedInv s) (hpc : pc.Picked s) : RingInv (stage s pc) := by
  have hnext := h.ring.next_mem h.ring.current_mem
  refine h.ring.of_next (stage_rest s pc).1 (stage_rest s pc).2 ?_ fun p _ => ?_
  · cases pc with
    | announced next =>
        obtain rfl : next = (s.procs s.current).next := hpc
        exact hnext
    | sti => exact h.ring.current_mem
    | chosen next => exact h.ring.current_mem
    | marked next => exact h.ring.current_mem
    | done => exact h.ring.current_mem
  · rcases stage_procs s pc p with hp | hp <;> rw [hp]

/-- Nobody is blocked yet. -/
theorem stage_not_blocked (h : PreparedInv s) {p : Nat} (hp : p ∈ s.members) :
    ((stage s pc).procs p).state ≠ .blocked := by
  rcases stage_procs s pc p with hsame | hrun
  · rw [hsame]
    by_cases hidle : p = s.idle
    · rw [hidle, h.idle_running]
      decide
    · rw [h.others_ready p hp hidle]
      decide
  · rw [hrun]
    simp

/-- A tick with nobody to switch to advances the clock. -/
theorem stage_tick (h : PreparedInv s) (hpc : pc.Picked s)
    (halone : ∀ p ∈ (stage s pc).members, p = (stage s pc).current) :
    (stage s pc).timerHandler = some { stage s pc with ticks := (stage s pc).ticks + 1 } := by
  have hring := stage_ring h hpc
  have hidle := halone _ hring.idle_mem
  have hring' : RingInv { stage s pc with ticks := (stage s pc).ticks + 1 } :=
    hring.of_next rfl rfl hring.current_mem fun _ _ => rfl
  have hchosen : { stage s pc with ticks := (stage s pc).ticks + 1 }.chosen = (stage s pc).current := by
    rcases chosen_cases hring' with ⟨hc, -⟩ | ⟨hc, hmem, -⟩
    · exact hc
    · exact absurd (halone _ hmem) hc
  have hwoken : { stage s pc with ticks := (stage s pc).ticks + 1 }.woken = (stage s pc).procs := by
    funext p
    refine if_neg fun hp => ?_
    have hpcur := halone p (List.mem_of_mem_tail hp)
    rw [← hidle] at hpcur
    exact hring.idle_notMem_tail (hpcur ▸ hp)
  rw [timerHandler, schedulerTick_eq hring', hchosen, hwoken]
  exact congrArg some (switchTo_self { stage s pc with ticks := (stage s pc).ticks + 1 })

theorem stage_advance (s : Scheduler) (pc : BootPc) :
    { stage s pc with ticks := (stage s pc).ticks + 1 } = stage { s with ticks := s.ticks + 1 } pc := by
  cases pc <;> rfl

/-- A key finds nobody to wake. -/
theorem stage_key (h : PreparedInv s) (hpc : pc.Picked s) :
    (stage s pc).schedulerWakeKeyWaiter = some (stage s pc) := by
  rw [schedulerWakeKeyWaiter_eq (stage_ring h hpc), keyWoken]
  have hnone : (stage s pc).keyWaiter = none := by
    refine List.find?_eq_none.2 fun p hp => ?_
    have hmem : p ∈ s.members := (stage_rest s pc).2 ▸ List.mem_of_mem_tail hp
    have hstate := @stage_not_blocked _ pc h _ hmem
    simp [WaitsForKey, hstate]
  rw [hnone]

/-- The last statement leaves the scheduler as `scheduler_start` does. -/
theorem stage_announced (h : PreparedInv s) :
    (stage s (.announced (s.procs s.current).next)).loadProcess (s.procs s.current).next =
      s.schedulerStart := by
  have hguard : ¬ (s.current = 0 ∨ (s.procs s.current).next = 0) := fun hnull =>
    hnull.elim (h.ring.ne_null h.ring.current_mem)
      (h.ring.ne_null (h.ring.next_mem h.ring.current_mem))
  exact (if_neg hguard).symm

theorem Scheduler.PreparedInv.advance (h : PreparedInv s) : PreparedInv { s with ticks := s.ticks + 1 } :=
  ⟨h.ring.of_next rfl rfl h.ring.current_mem fun _ _ => rfl, h.current_idle, h.idle_running,
    h.others_ready⟩

end Stages

/-! ### The invariant -/

namespace Handoff

/-- The boot code runs, and no context has been loaded. -/
structure InBoot (k : Handoff) (pc : BootPc) (s : Scheduler) : Prop where
  running : k.running = .boot pc
  prepared : PreparedInv s
  sched : k.sched = stage s pc
  picked : pc.Picked s
  saved : ∀ p, k.saved (some p) = ⟨.constructor p, .proc p⟩
  latest : ∀ p, k.latest p = .constructor p
  loads : k.loads = []

/-- A process runs, and the contexts of the others have not been loaded. -/
structure InProcess (k : Handoff) : Prop where
  sched : SchedulerInv k.sched
  running : k.running = .proc k.sched.current
  flow : ∀ p, (k.saved (some p)).flow = .proc p
  origin : ∀ p, (k.saved (some p)).origin = k.latest p ∧ (k.saved (some p)).origin.owner = some p
  waiting : ∀ p, p ≠ k.sched.current → (k.saved (some p)).origin ∉ k.loads.map Prod.snd
  once : (k.loads.map Prod.snd).Nodup
  owned : ∀ y o, (y, o) ∈ k.loads → o.owner = some y
  past : ∀ p n, .switchOut p n ∈ k.loads.map Prod.snd → n < k.switches
  stored : ∀ p q n, (k.saved (some p)).origin = .switchOut q n → n < k.switches

/-- The invariant. -/
def HandoffInv (k : Handoff) : Prop := (∃ pc s, InBoot k pc s) ∨ InProcess k

variable {k k' : Handoff} {pc : BootPc} {s : Scheduler}

theorem InBoot.fresh (h : InBoot k pc s) (p : Nat) : k.Fresh p := by
  refine ⟨by rw [h.saved, h.latest], by rw [h.saved]; rfl, ?_⟩
  rw [h.loads]
  exact List.not_mem_nil

theorem InProcess.fresh (h : InProcess k) {p : Nat} (hp : p ≠ k.sched.current) : k.Fresh p :=
  ⟨(h.origin p).1, (h.origin p).2, h.waiting p hp⟩

/-- What every switch does to the loads. -/
theorem loads_contextSwitch (k : Handoff) (x : Option Nat) (y : Nat) :
    (k.contextSwitch x y).loads = (y, (k.saved (some y)).origin) :: k.loads :=
  rfl

theorem saved_contextSwitch_self (k : Handoff) (x : Option Nat) (y : Nat) :
    (k.contextSwitch x y).saved x = ⟨.switchOut x k.switches, k.running⟩ := by
  unfold contextSwitch
  exact Function.update_self ..

theorem saved_contextSwitch_of_ne (k : Handoff) {x z : Option Nat} (h : z ≠ x) (y : Nat) :
    (k.contextSwitch x y).saved z = k.saved z := by
  unfold contextSwitch
  exact Function.update_of_ne h ..

/-- The first switch, from the boot code to the process it has picked. -/
theorem InBoot.leave {next : Nat} (h : InBoot k (.announced next) s) : InProcess (contextSwitch
    { k with sched := k.sched.loadProcess next, running := .boot .done } none next) := by
  obtain rfl : next = (s.procs s.current).next := h.picked
  have hsched : k.sched.loadProcess (s.procs s.current).next = s.schedulerStart := by
    rw [h.sched, stage_announced h.prepared]
  have hcurrent : (k.sched.loadProcess (s.procs s.current).next).current =
      (s.procs s.current).next := by
    rw [loadProcess_current, h.sched]
    rfl
  have hsaved : ∀ p, (contextSwitch { k with
      sched := k.sched.loadProcess (s.procs s.current).next, running := .boot .done } none
      (s.procs s.current).next).saved (some p) = ⟨.constructor p, .proc p⟩ := by
    intro p
    rw [saved_contextSwitch_of_ne _ (Option.some_ne_none p)]
    exact h.saved p
  have hloads : (contextSwitch { k with
      sched := k.sched.loadProcess (s.procs s.current).next, running := .boot .done } none
      (s.procs s.current).next).loads =
        [((s.procs s.current).next, .constructor (s.procs s.current).next)] := by
    rw [loads_contextSwitch, h.loads, h.saved]
  refine ⟨hsched ▸ schedulerStart_inv h.prepared, ?_, fun p => ?_, fun p => ?_, fun p hp => ?_, ?_,
    fun y o hyo => ?_, fun p n hpn => ?_, fun p q n hpn => ?_⟩
  · show (k.saved (some (s.procs s.current).next)).flow =
      .proc (k.sched.loadProcess (s.procs s.current).next).current
    rw [h.saved, hcurrent]
  · rw [hsaved]
  · rw [hsaved]
    exact ⟨(h.latest p).symm, rfl⟩
  · have hp : p ≠ (s.procs s.current).next := fun heq => hp (heq.trans hcurrent.symm)
    rw [hsaved, hloads]
    simp [hp]
  · rw [hloads]
    simp
  · rw [hloads, List.mem_singleton] at hyo
    obtain ⟨rfl, rfl⟩ := Prod.mk.inj hyo
    rfl
  · rw [hloads] at hpn
    simp at hpn
  · rw [hsaved] at hpn
    cases hpn

/-- A later switch. -/
theorem InProcess.switch (h : InProcess k) {s : Scheduler} (hs : SchedulerInv s)
    (hne : s.current ≠ k.sched.current) :
    InProcess { k.contextSwitch (some k.sched.current) s.current with sched := s } := by
  have hself : (k.contextSwitch (some k.sched.current) s.current).saved (some k.sched.current) =
      ⟨.switchOut (some k.sched.current) k.switches, k.running⟩ :=
    saved_contextSwitch_self k _ _
  have hother : ∀ p, p ≠ k.sched.current →
      (k.contextSwitch (some k.sched.current) s.current).saved (some p) = k.saved (some p) :=
    fun p hp => saved_contextSwitch_of_ne k (fun heq => hp (Option.some.inj heq)) _
  have hlatest : (k.contextSwitch (some k.sched.current) s.current).latest =
      Function.update k.latest k.sched.current (.switchOut (some k.sched.current) k.switches) := rfl
  have hfresh := h.fresh hne
  refine ⟨hs, h.flow s.current, fun p => ?_, fun p => ?_, fun p hp => ?_, ?_, fun y o hyo => ?_,
    fun p n hpn => ?_, fun p q n hpn => ?_⟩
  · by_cases hpc : p = k.sched.current
    · rw [hpc, hself]
      exact h.running
    · rw [hother p hpc]
      exact h.flow p
  · by_cases hpc : p = k.sched.current
    · rw [hpc, hself]
      dsimp only
      rw [hlatest, Function.update_self]
      exact ⟨rfl, rfl⟩
    · rw [hother p hpc]
      dsimp only
      rw [hlatest, Function.update_of_ne hpc]
      exact h.origin p
  · rw [loads_contextSwitch, List.map_cons, List.mem_cons]
    dsimp only
    by_cases hpc : p = k.sched.current
    · -- what has just been stored has not been loaded
      rw [hpc, hself]
      rintro (heq | hmem)
      · have howner := (h.origin s.current).2
        rw [← heq] at howner
        exact hne (Option.some.inj howner).symm
      · exact Nat.lt_irrefl _ (h.past _ _ hmem)
    · rw [hother p hpc]
      rintro (heq | hmem)
      · have howner := (h.origin p).2
        rw [heq, (h.origin s.current).2] at howner
        exact hp (Option.some.inj howner).symm
      · exact h.waiting p hpc hmem
  · exact List.nodup_cons.2 ⟨hfresh.2.2, h.once⟩
  · rcases List.mem_cons.1 hyo with heq | hmem
    · obtain ⟨rfl, rfl⟩ := Prod.mk.inj heq
      exact hfresh.2.1
    · exact h.owned y o hmem
  · show n < k.switches + 1
    rcases List.mem_cons.1 hpn with heq | hmem
    · exact Nat.lt_succ_of_lt (h.stored s.current p n heq.symm)
    · exact Nat.lt_succ_of_lt (h.past p n hmem)
  · show n < k.switches + 1
    by_cases hpc : p = k.sched.current
    · rw [hpc, hself] at hpn
      obtain ⟨-, rfl⟩ := Origin.switchOut.inj hpn
      exact Nat.lt_succ_self _
    · rw [hother p hpc] at hpn
      exact Nat.lt_succ_of_lt (h.stored p q n hpn)

/-- Each statement of the boot code. -/
theorem InBoot.step (h : InBoot k pc s) (step : k.bootStep pc = some k') : HandoffInv k' := by
  have hnull : ¬ (s.current = 0 ∨ (s.procs s.current).next = 0) := fun hnull =>
    hnull.elim (h.prepared.ring.ne_null h.prepared.ring.current_mem)
      (h.prepared.ring.ne_null (h.prepared.ring.next_mem h.prepared.ring.current_mem))
  cases pc with
  | sti =>
      have hsched : k.sched = s := h.sched
      rw [bootStep, hsched, if_neg hnull] at step
      obtain rfl := Option.some.inj step
      exact .inl ⟨_, s, rfl, h.prepared, rfl, rfl, h.saved, h.latest, h.loads⟩
  | chosen next =>
      have hsched : k.sched = s := h.sched
      rw [bootStep, hsched] at step
      obtain rfl := Option.some.inj step
      exact .inl ⟨_, s, rfl, h.prepared, rfl, h.picked, h.saved, h.latest, h.loads⟩
  | marked next =>
      rw [bootStep, h.sched] at step
      obtain rfl := Option.some.inj step
      exact .inl ⟨_, s, rfl, h.prepared, rfl, h.picked, h.saved, h.latest, h.loads⟩
  | announced next =>
      obtain rfl := Option.some.inj step
      exact .inr h.leave
  | done => cases step

/-- An interrupt that reaches the boot code finds nothing to do. -/
theorem InBoot.interrupt (h : InBoot k pc s) {e : Event} (hadmits : Admits k.running e)
    (quiet : k.QuietBoot (.sched e)) {t : Scheduler} (hevent : k.sched.EventStep e t) :
    HandoffInv (k.ticked t) ∧ (k.ticked t).loads = k.loads := by
  rw [h.running] at hadmits
  have stays : ∀ s', PreparedInv s' → pc.Picked s' → t = stage s' pc → t.current = k.sched.current →
      HandoffInv (k.ticked t) ∧ (k.ticked t).loads = k.loads := by
    intro s' hprepared hpicked ht hcurrent
    rw [Handoff.ticked, if_pos hcurrent]
    exact ⟨.inl ⟨pc, s', h.running, hprepared, ht, hpicked, h.saved, h.latest, h.loads⟩, rfl⟩
  cases e with
  | timer =>
      have halone := quiet pc h.running
      have htick : k.sched.timerHandler = some t := hevent
      rw [h.sched] at halone htick
      rw [stage_tick h.prepared h.picked halone] at htick
      obtain rfl := Option.some.inj htick
      refine stays { s with ticks := s.ticks + 1 } h.prepared.advance ?_ (stage_advance s pc) ?_
      · cases pc <;> exact h.picked
      · rw [h.sched]
  | key =>
      have hkey : k.sched.schedulerWakeKeyWaiter = some t := hevent
      rw [h.sched, stage_key h.prepared h.picked] at hkey
      obtain rfl := Option.some.inj hkey
      exact stays s h.prepared h.picked rfl (by rw [h.sched])
  | yield => exact hadmits.elim
  | sleep ticks => exact hadmits.elim
  | read => exact hadmits.elim
  | exit => exact hadmits.elim
  | add address created => exact hadmits.elim

/-- An event while a process runs. -/
theorem InProcess.event (h : InProcess k) {e : Event} {t : Scheduler}
    (hevent : k.sched.EventStep e t) :
    InProcess (k.ticked t) ∧ ((k.ticked t).loads = k.loads ∨
      ∃ y, k.Fresh y ∧ (k.ticked t).loads = (y, (k.saved (some y)).origin) :: k.loads) := by
  have hs := h.sched.of_event hevent
  unfold Handoff.ticked
  split
  · rename_i hcurrent
    refine ⟨⟨hs, ?_, h.flow, h.origin, fun p hp => ?_, h.once, h.owned, h.past, h.stored⟩, .inl rfl⟩
    · rw [hcurrent]
      exact h.running
    · exact h.waiting p (hcurrent ▸ hp)
  · rename_i hne
    exact ⟨h.switch hs hne, .inr ⟨t.current, h.fresh hne, rfl⟩⟩

/-- Every event keeps the invariant, and loads a fresh context if it loads one. -/
theorem HandoffInv.step (inv : HandoffInv k) {e : HandoffEvent} (quiet : k.QuietBoot e)
    (step : k.Step e k') :
    HandoffInv k' ∧ (k'.loads = k.loads ∨
      ∃ y, k.Fresh y ∧ k'.loads = (y, (k.saved (some y)).origin) :: k.loads) := by
  cases e with
  | boot =>
      obtain ⟨pc', hrunning, hboot⟩ := step
      rcases inv with ⟨pc, s, h⟩ | h
      · obtain rfl : pc = pc' := by
          rw [h.running] at hrunning
          exact Flow.boot.inj hrunning
        refine ⟨h.step hboot, ?_⟩
        cases pc with
        | announced next =>
            obtain rfl := Option.some.inj hboot
            exact .inr ⟨next, h.fresh next, rfl⟩
        | sti =>
            rw [bootStep] at hboot
            split at hboot <;> obtain rfl := Option.some.inj hboot <;> exact .inl rfl
        | chosen next =>
            obtain rfl := Option.some.inj hboot
            exact .inl rfl
        | marked next =>
            obtain rfl := Option.some.inj hboot
            exact .inl rfl
        | done => cases hboot
      · rw [h.running] at hrunning
        cases hrunning
  | sched e =>
      obtain ⟨hadmits, t, hevent, rfl⟩ := step
      rcases inv with ⟨pc, s, h⟩ | h
      · obtain ⟨hinv, hloads⟩ := h.interrupt hadmits quiet hevent
        exact ⟨hinv, .inl hloads⟩
      · obtain ⟨hinv, hloads⟩ := h.event hevent
        exact ⟨.inr hinv, hloads⟩

/-- In every run in which no timer interrupt reaches the boot code (unless idle is alone), every
    switch loads the context that was stored last for its process and has not been loaded before, no
    context is loaded twice, and the contexts of the processes that do not run are not stale. -/
theorem boot_handoff (s : Scheduler) (prepared : Prepared s) (events : List HandoffEvent)
    (k : Handoff) (run : Run (Guarded QuietBoot Step) (start s) events k) :
    (k.loads.map Prod.snd).Nodup ∧ (∀ y o, (y, o) ∈ k.loads → o.owner = some y) ∧
      (∀ p, p ≠ k.sched.current → k.Fresh p) ∧
      ∀ e k', k.QuietBoot e → k.Step e k' → k'.loads = k.loads ∨
        ∃ y, k.Fresh y ∧ k'.loads = (y, (k.saved (some y)).origin) :: k.loads := by
  have hstart : HandoffInv (start s) :=
    .inl ⟨.sti, s, rfl, prepared.inv, rfl, trivial, fun _ => rfl, fun _ => rfl, rfl⟩
  have inv : HandoffInv k :=
    run.invariant HandoffInv (fun _ _ _ inv step => (inv.step step.1 step.2).1) hstart
  have hsteps : ∀ e k', k.QuietBoot e → k.Step e k' → k'.loads = k.loads ∨
      ∃ y, k.Fresh y ∧ k'.loads = (y, (k.saved (some y)).origin) :: k.loads :=
    fun e k' quiet step => (inv.step quiet step).2
  rcases inv with ⟨pc, t, h⟩ | h
  · refine ⟨?_, ?_, fun p _ => h.fresh p, hsteps⟩
    · rw [h.loads]
      exact List.nodup_nil
    · rw [h.loads]
      exact fun y o hyo => absurd hyo List.not_mem_nil
  · exact ⟨h.once, h.owned, fun p hp => h.fresh hp, hsteps⟩

/-! ### One process besides idle -/

/-- Idle at 1, and one process at 2. -/
def oneAdded : Scheduler := addBlank (blankBoot.schedulerInit 1) 2

theorem oneAdded_prepared : Prepared oneAdded :=
  ⟨blankBoot, 1, [(2, {})], by decide, .single ⟨by decide, by decide, rfl⟩⟩

/-- The next statement of the boot code, where it is the boot code that runs. -/
def afterBoot (k : Handoff) : Handoff :=
  match k.running with
  | .boot pc => (k.bootStep pc).getD k
  | .proc _ => k

/-- A timer interrupt, where its handler comes to an end. -/
def afterTimer (k : Handoff) : Handoff := k.ticked (k.sched.timerHandler.getD k.sched)

theorem step_afterBoot (k : Handoff) (pc : BootPc) (hrunning : k.running = .boot pc)
    (hpc : pc ≠ .done) : k.Step .boot k.afterBoot := by
  have hsome : (k.bootStep pc).isSome := by
    cases pc with
    | sti =>
        rw [bootStep]
        split <;> rfl
    | chosen next => rfl
    | marked next => rfl
    | announced next => rfl
    | done => exact absurd rfl hpc
  refine ⟨pc, hrunning, ?_⟩
  unfold afterBoot
  rw [hrunning]
  exact eq_some_getD hsome _

theorem step_afterTimer (k : Handoff) (h : k.sched.timerHandler.isSome) :
    k.Step (.sched .timer) k.afterTimer :=
  ⟨by cases k.running <;> trivial, _, eq_some_getD h _, rfl⟩

/-- The boot code as far as its `context_switch`. -/
def handedOver (k : Handoff) : Handoff := k.afterBoot.afterBoot.afterBoot.afterBoot

/-- Without an interrupt in the boot code, the second process runs first, and idle next. -/
theorem boot_handoff_oneAdded :
    ((start oneAdded).handedOver.afterTimer.loads.map Prod.snd).Nodup ∧
      (start oneAdded).handedOver.afterTimer.loads = [(1, .constructor 1), (2, .constructor 2)] := by
  have hrun : Run (Guarded QuietBoot Step) (start oneAdded)
      [.boot, .boot, .boot, .boot, .sched .timer] (start oneAdded).handedOver.afterTimer := by
    refine .cons ⟨trivial, step_afterBoot _ .sti (by decide +kernel) (by decide)⟩ <|
      .cons ⟨trivial, step_afterBoot _ (.chosen 2) (by decide +kernel) (by decide)⟩ <|
      .cons ⟨trivial, step_afterBoot _ (.marked 2) (by decide +kernel) (by decide)⟩ <|
      .cons ⟨trivial, step_afterBoot _ (.announced 2) (by decide +kernel) (by decide)⟩ <|
      .single ⟨fun pc hpc => ?_, step_afterTimer _ (by decide +kernel)⟩
    have hproc : (start oneAdded).handedOver.running = .proc 2 := by decide +kernel
    exact absurd (hproc.symm.trans hpc) (by simp)
  exact ⟨(boot_handoff oneAdded oneAdded_prepared _ _ hrun).1, by decide +kernel⟩

/-- Two ticks before `scheduler_start`: the first one files the boot code under idle, the second
    one resumes it there. `scheduler_start` then leaves idle without storing its context, and the
    next tick loads the boot code a second time. -/
def resumedTwice : Handoff := (start oneAdded).afterTimer.afterTimer.handedOver.afterTimer

/-- That run loads one stored context twice. -/
theorem boot_resumed_twice :
    ∃ events, Run Step (start oneAdded) events resumedTwice ∧
      ¬ (resumedTwice.loads.map Prod.snd).Nodup := by
  refine ⟨[.sched .timer, .sched .timer, .boot, .boot, .boot, .boot, .sched .timer], ?_,
    by decide +kernel⟩
  exact .cons (step_afterTimer _ (by decide +kernel)) <|
    .cons (step_afterTimer _ (by decide +kernel)) <|
    .cons (step_afterBoot _ .sti (by decide +kernel) (by decide)) <|
    .cons (step_afterBoot _ (.chosen 2) (by decide +kernel) (by decide)) <|
    .cons (step_afterBoot _ (.marked 2) (by decide +kernel) (by decide)) <|
    .cons (step_afterBoot _ (.announced 2) (by decide +kernel) (by decide)) <|
    .single (step_afterTimer _ (by decide +kernel))

end Handoff

end CustomKernel
