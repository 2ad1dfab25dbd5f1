/-
Module: CustomKernel.Proofs.PrivilegeState
Layer: Proofs
Purpose: What a trap from ring 3 relies on: while a user process is current, `tss.rsp0` points to its
  kernel stack and CR3 holds its page table. The scheduler loads both on a switch to a user process
  and neither on a switch to a kernel process; the calls that change an address space move CR3 for
  the time of a mapping and put it back.
Imports: CustomKernel.Proofs.Scheduler, CustomKernel.Proofs.UserConfinement
Trusted boundary: as in SystemRuns: the kernel heap, the descriptors and the archive are beside
  physical memory
Main exports: RunningKernel, KernelStep, Loaded, privilege_state
-/
import CustomKernel.Proofs.Scheduler
import CustomKernel.Proofs.UserConfinement

namespace CustomKernel

open CustomKernel.Memory CustomKernel.Syscall StepSystem

/-! ### The kernel -/

/-- The scheduler and the machine whose CR3 it loads. -/
structure RunningKernel where
  sched : Scheduler
  vmm : Vmm
  cr3_eq : vmm.cr3 = sched.cr3

/-- An event of the scheduler, or a call of the current process that changes its address space. -/
inductive KernelEvent where
  | sched (event : Scheduler.Event)
  | call (call : UserCall)
deriving DecidableEq, Repr

/-- The process that runs. -/
def RunningKernel.proc (k : RunningKernel) : Process := k.sched.procs k.sched.current

/-- One event. -/
def KernelStep (k : RunningKernel) : KernelEvent → RunningKernel → Prop
  | .sched event, k' =>
      k.sched.EventStep event k'.sched ∧ k'.vmm = { k.vmm with cr3 := k'.sched.cr3 }
  | .call call, k' => k.sched.current ≠ k.sched.idle ∧ ∃ r, call.run k.vmm k.proc = .ok r ∧
      k'.vmm = r.vmm ∧
      k'.sched = { k.sched.updateCurrent (fun _ => r.proc) with cr3 := r.vmm.cr3 }

/-- The state after `scheduler_start`. -/
def RunningKernel.start (s : Scheduler) (vmm : Vmm) : RunningKernel where
  sched := s.schedulerStart
  vmm := { vmm with cr3 := s.schedulerStart.cr3 }
  cr3_eq := rfl

/-- What the hardware uses on a trap belongs to the running process. -/
def Loaded (s : Scheduler) : Prop :=
  (s.procs s.current).pageTable ≠ 0 →
    s.tssRsp0 = (s.procs s.current).kernelStack ∧ s.cr3 = (s.procs s.current).pageTable

/-! ### Switches -/

section Switches

open Scheduler

variable {s s' : Scheduler}

/-- Two descriptors with the same stack and page table. -/
def SameSpace (p q : Process) : Prop := p.kernelStack = q.kernelStack ∧ p.pageTable = q.pageTable

theorem woken_space (s : Scheduler) (p : Nat) : SameSpace (s.woken p) (s.procs p) := by
  unfold woken
  split
  · rcases wakeSleeper_cases s.ticks (s.procs p) with ⟨h, -⟩ | ⟨h, -⟩
    · rw [h]
      exact ⟨rfl, rfl⟩
    · rw [h]
      exact ⟨rfl, rfl⟩
  · exact ⟨rfl, rfl⟩

/-- A process that keeps running keeps what was loaded for it. -/
theorem Loaded.congr (h : Loaded s) (hcur : s'.current = s.current)
    (hspace : SameSpace (s'.procs s.current) (s.procs s.current)) (htss : s'.tssRsp0 = s.tssRsp0)
    (hcr3 : s'.cr3 = s.cr3) : Loaded s' := by
  unfold Loaded
  rw [hcur, htss, hcr3, hspace.1, hspace.2]
  exact h

/-- What a switch loads, it loads for the process that is current afterwards. -/
theorem loaded_loadProcess (s : Scheduler) : Loaded (s.loadProcess s.current) := by
  intro huser
  rw [loadProcess_procs, loadProcess_current] at huser ⊢
  unfold loadProcess
  rw [if_pos huser]
  exact ⟨rfl, rfl⟩

theorem loaded_switchTo {n : Nat} (hne : n ≠ s.current) : Loaded (s.switchTo n) := by
  unfold switchTo
  rw [if_neg hne]
  exact loaded_loadProcess _

/-- A tick loads what belongs to the process it switches to, and leaves the caller's as it is. -/
theorem loaded_ticked (h : Loaded s) : Loaded s.ticked := by
  by_cases hne : s.chosen = s.current
  · have hticked : s.ticked = { s with procs := s.woken } := by
      unfold ticked
      rw [hne]
      exact switchTo_self { s with procs := s.woken }
    rw [hticked]
    exact h.congr rfl (woken_space s s.current) rfl rfl
  · exact loaded_switchTo (s := { s with procs := s.woken }) hne

/-- The callers of `scheduler_tick` leave stack, page table and CR3 alone. -/
theorem loaded_tickState {e : Event} (h : Loaded s) {t : Scheduler} (ht : s.tickState e = some t) :
    Loaded t := by
  have hup : ∀ f : Process → Process, (∀ p, SameSpace (f p) p) → Loaded (s.updateCurrent f) := by
    intro f hf
    refine h.congr rfl ?_ rfl rfl
    rw [show (s.updateCurrent f).procs s.current = f (s.procs s.current) from by
      simp [updateCurrent]]
    exact hf _
  cases e with
  | timer =>
      obtain rfl := Option.some.inj ht
      exact h
  | yield =>
      obtain rfl := Option.some.inj ht
      exact h
  | sleep ticks =>
      obtain rfl := Option.some.inj ht
      exact hup _ fun _ => ⟨rfl, rfl⟩
  | read =>
      obtain rfl := Option.some.inj ht
      exact hup _ fun _ => ⟨rfl, rfl⟩
  | exit =>
      obtain rfl := Option.some.inj ht
      exact hup _ fun _ => ⟨rfl, rfl⟩
  | key => cases ht
  | add address created => cases ht

theorem loaded_keyWoken (h : Loaded s) : Loaded s.keyWoken := by
  have hrest : s.keyWoken.tssRsp0 = s.tssRsp0 ∧ s.keyWoken.cr3 = s.cr3 := by
    unfold keyWoken
    cases s.keyWaiter with
    | none => exact ⟨rfl, rfl⟩
    | some q => exact ⟨rfl, rfl⟩
  refine h.congr (keyWoken_rest s).1 ?_ hrest.1 hrest.2
  rcases keyWoken_procs_cases s s.current with hsame | ⟨-, hsame⟩
  · rw [hsame]
    exact ⟨rfl, rfl⟩
  · rw [hsame]
    exact ⟨rfl, rfl⟩

/-- A process that joins the ring does not touch what is loaded. -/
theorem loaded_add (inv : SchedulerInv s) (h : Loaded s) {address : Nat} {created : Process}
    (hne : address ≠ 0) (hfresh : address ∉ s.members)
    (hadd : { s with procs := setProcess s.procs address created }.schedulerAdd address = some s') :
    Loaded s' := by
  obtain ⟨-, -, hcur, -, -, -, hold⟩ := schedulerAdd_spec inv.ring hne hfresh hadd
  have hrest : s'.tssRsp0 = s.tssRsp0 ∧ s'.cr3 = s.cr3 := by
    unfold schedulerAdd at hadd
    rw [if_neg hne] at hadd
    obtain ⟨tail, -, hadd⟩ := Option.bind_eq_some_iff.1 hadd
    cases hadd
    exact ⟨rfl, rfl⟩
  refine h.congr hcur ?_ hrest.1 hrest.2
  rw [hold _ inv.ring.current_mem]
  exact ⟨rfl, rfl⟩

/-- Every event of the scheduler keeps the loaded state right. -/
theorem loaded_event (inv : SchedulerInv s) (h : Loaded s) {e : Event} (step : s.EventStep e s') :
    Loaded s' := by
  rcases eventStep_cases inv step with ⟨t, ht, -, -, -, -, -, rfl⟩ | ⟨-, rfl⟩ |
    ⟨address, created, -, hne, hfresh, hadd⟩
  · exact loaded_ticked (loaded_tickState h ht)
  · exact loaded_keyWoken h
  · exact loaded_add inv h hne hfresh hadd

theorem loaded_schedulerStart (ring : RingInv s) : Loaded s.schedulerStart := by
  have hcur := ring.ne_null ring.current_mem
  have hnext := ring.ne_null (ring.next_mem ring.current_mem)
  unfold schedulerStart
  rw [if_neg (fun h => h.elim hcur hnext)]
  exact loaded_loadProcess _

end Switches

/-! ### Calls that change an address space -/

section Calls

variable {s s' : Vmm} {proc : Process} {r : HeapReturn}

theorem mapFreshPages_cr3 {pml4 flags : Word} {virt : Nat → Word} {count i : Nat} {out : FreshPages}
    (h : mapFreshPages pml4 virt flags count i s = .ok out) : out.vmm.cr3 = s.cr3 := by
  induction count generalizing i s out with
  | zero =>
      cases h
      rfl
  | succ count ih =>
      unfold mapFreshPages at h
      dsimp only at h
      split at h
      · cases h
        rfl
      · obtain ⟨s₁, hmap, h⟩ := Loops.bind_ok h
        obtain ⟨rest, hrest, h⟩ := Loops.bind_ok h
        cases h
        have hcr3 := vmmMapIn_cr3 hmap
        exact (ih hrest).trans hcr3

theorem sysMapFb_cr3 (h : sysMapFb s proc = .ok r) : r.vmm.cr3 = s.cr3 ∧ r.proc = proc := by
  unfold sysMapFb at h
  split at h
  · cases h
    exact ⟨rfl, rfl⟩
  · obtain ⟨s₁, hloop, h⟩ := Loops.bind_ok h
    cases h
    refine ⟨?_, rfl⟩
    exact Loops.forRangeE_invariant (fun _ t => t.cr3 = s.cr3) (Nat.zero_le 16) rfl
      (fun i t t' _ ht hmap => (vmmMapIn_cr3 hmap).trans ht) hloop

/-- The calls move the break at most, and leave CR3 as they found it. -/
theorem userCall_frame {call : UserCall} (h : call.run s proc = .ok r) :
    r.vmm.cr3 = s.cr3 ∧ ∃ brk, r.proc = { proc with heapEnd := brk } := by
  by_cases hfb : call = .mapFb
  · subst hfb
    obtain ⟨hcr3, hproc⟩ := sysMapFb_cr3 h
    exact ⟨hcr3, proc.heapEnd, hproc⟩
  · obtain ⟨hproc, ⟨hvmm, -⟩ | ⟨out, hmap, hvmm, -⟩⟩ := UserCall.run_cases hfb h
    · rw [hvmm]
      exact ⟨rfl, hproc⟩
    · rw [hvmm]
      exact ⟨mapFreshPages_cr3 hmap, hproc⟩

end Calls

/-- A call that moves the break changes nothing the scheduler looks at. -/
theorem Scheduler.SchedulerInv.moveBreak {s : Scheduler} (inv : Scheduler.SchedulerInv s)
    (brk cr3 : Word) : Scheduler.SchedulerInv
      { s.updateCurrent (fun p => { p with heapEnd := brk }) with cr3 := cr3 } := by
  have hprocs : ∀ p, ∃ brk', (s.updateCurrent fun p => { p with heapEnd := brk }).procs p =
      { s.procs p with heapEnd := brk' } := by
    intro p
    by_cases hp : p = s.current
    · exact ⟨brk, by simp [Scheduler.updateCurrent, hp]⟩
    · exact ⟨(s.procs p).heapEnd, by simp [Scheduler.updateCurrent, hp]⟩
  have hstate : ∀ p, ((s.updateCurrent fun p => { p with heapEnd := brk }).procs p).state =
      (s.procs p).state := fun p => by
    obtain ⟨brk', h⟩ := hprocs p
    rw [h]
  have hreason : ∀ p, ((s.updateCurrent fun p => { p with heapEnd := brk }).procs p).waitReason =
      (s.procs p).waitReason := fun p => by
    obtain ⟨brk', h⟩ := hprocs p
    rw [h]
  refine ⟨inv.ring.of_next rfl rfl inv.ring.current_mem fun p _ => ?_, ?_, ?_, ?_, ?_, ?_⟩
  · obtain ⟨brk', h⟩ := hprocs p
    dsimp only
    rw [h]
  · dsimp only
    rw [hstate]
    exact inv.safe.idle_state
  · dsimp only
    rw [hstate]
    exact inv.safe.current_running
  · intro p hp hpi hr
    rw [hstate] at hr
    exact inv.safe.running_current p hp hpi hr
  · intro p hp hb
    rw [hstate] at hb
    rw [hreason]
    exact inv.safe.blocked_reason p hp hb
  · intro p hp hb hr
    rw [hstate] at hb
    rw [hreason] at hr
    obtain ⟨brk', h⟩ := hprocs p
    dsimp only
    rw [h]
    exact inv.safe.sleeper_early p hp hb hr

/-! ### Runs -/

/-- The invariant of the kernel. -/
structure PrivilegeInv (k : RunningKernel) : Prop where
  sched : Scheduler.SchedulerInv k.sched
  loaded : Loaded k.sched

theorem PrivilegeInv.step {k k' : RunningKernel} {e : KernelEvent} (inv : PrivilegeInv k)
    (step : KernelStep k e k') : PrivilegeInv k' := by
  cases e with
  | sched event =>
      obtain ⟨hevent, -⟩ := step
      exact ⟨inv.sched.of_event hevent, loaded_event inv.sched inv.loaded hevent⟩
  | call call =>
      obtain ⟨-, r, hrun, -, hsched⟩ := step
      obtain ⟨hcr3, brk, hproc⟩ := userCall_frame hrun
      have hupdate : k.sched.updateCurrent (fun _ => r.proc) =
          k.sched.updateCurrent fun p => { p with heapEnd := brk } := by
        unfold Scheduler.updateCurrent
        rw [hproc]
        rfl
      rw [hupdate] at hsched
      refine ⟨hsched ▸ inv.sched.moveBreak brk r.vmm.cr3, ?_⟩
      rw [hsched]
      refine inv.loaded.congr rfl ?_ rfl (hcr3.trans k.cr3_eq)
      rw [show (k.sched.updateCurrent fun p => { p with heapEnd := brk }).procs k.sched.current =
        { k.sched.procs k.sched.current with heapEnd := brk } from by
          simp [Scheduler.updateCurrent]]
      exact ⟨rfl, rfl⟩

/-- After `scheduler_start`, whenever a user process is current, `tss.rsp0` is its kernel stack and
    CR3 its page table. -/
theorem privilege_state (s : Scheduler) (vmm : Vmm) (prepared : Scheduler.Prepared s)
    (events : List KernelEvent) (k : RunningKernel)
    (run : Run KernelStep (RunningKernel.start s vmm) events k)
    (huser : k.proc.pageTable ≠ 0) :
    k.sched.tssRsp0 = k.proc.kernelStack ∧ k.vmm.cr3 = k.proc.pageTable := by
  have inv := run.invariant PrivilegeInv (fun _ _ _ inv step => inv.step step)
    ⟨Scheduler.schedulerStart_inv prepared.inv, loaded_schedulerStart prepared.inv.ring⟩
  rw [k.cr3_eq]
  exact inv.loaded huser

/-- A user process at address 2 and a kernel process at 3. -/
def mixedProcesses : Scheduler :=
  let user : Process := { pageTable := 0x5000, kernelStack := 0x9000 }
  let s := Scheduler.blankBoot.schedulerInit 1
  let s := ({ s with procs := setProcess s.procs 2 user }.schedulerAdd 2).getD s
  Scheduler.addBlank s 3

theorem mixedProcesses_prepared : Scheduler.Prepared mixedProcesses :=
  ⟨Scheduler.blankBoot, 1, [(2, { pageTable := 0x5000, kernelStack := 0x9000 }), (3, {})], by decide,
    .cons ⟨by decide, by decide, rfl⟩ (.cons (t := mixedProcesses) ⟨by decide, by decide, rfl⟩
      (.nil _))⟩

/-- A machine with the CR3 that the scheduler loaded. -/
def RunningKernel.on (vmm : Vmm) (s : Scheduler) : RunningKernel :=
  ⟨s, { vmm with cr3 := s.cr3 }, rfl⟩

/-- The statement applies to a user process that has been switched away from and back to. -/
theorem privilege_state_three_ticks : ∃ (vmm : Vmm) (k : RunningKernel),
    Run KernelStep (RunningKernel.start mixedProcesses vmm)
      [.sched .timer, .sched .timer, .sched .timer] k ∧ k.sched.current = 2 ∧
      k.sched.tssRsp0 = 0x9000 ∧ k.vmm.cr3 = 0x5000 := by
  have hticks : (do
      let s ← mixedProcesses.schedulerStart.timerHandler
      let s ← s.timerHandler
      let s ← s.timerHandler
      return (s.current, (s.procs 2).pageTable, (s.procs 2).kernelStack)) =
        some (2, 0x5000, 0x9000) := by
    decide +kernel
  obtain ⟨t₁, h₁, hticks⟩ := Option.bind_eq_some_iff.1 hticks
  obtain ⟨t₂, h₂, hticks⟩ := Option.bind_eq_some_iff.1 hticks
  obtain ⟨t₃, h₃, hticks⟩ := Option.bind_eq_some_iff.1 hticks
  simp only [Option.pure_def, Option.some.injEq, Prod.mk.injEq] at hticks
  obtain ⟨hcurrent, htable, hstack⟩ := hticks
  obtain ⟨vmm⟩ : Nonempty Vmm := ⟨{ pmm := pmmInit megabyteImage, mem := fun _ _ => 0, cr3 := 0 }⟩
  have run : Run KernelStep (RunningKernel.start mixedProcesses vmm)
      [.sched .timer, .sched .timer, .sched .timer] (RunningKernel.on vmm t₃) :=
    .cons (t := RunningKernel.on vmm t₁) ⟨h₁, rfl⟩ (.cons (t := RunningKernel.on vmm t₂) ⟨h₂, rfl⟩
      (.single ⟨h₃, rfl⟩))
  have hproc : (RunningKernel.on vmm t₃).proc = t₃.procs 2 := by
    rw [← hcurrent]
    rfl
  obtain ⟨htss, hcr3⟩ := privilege_state mixedProcesses vmm mixedProcesses_prepared _ _ run (by
    rw [hproc, htable]
    decide)
  rw [hproc] at htss hcr3
  exact ⟨vmm, _, run, hcurrent, htss.trans hstack, hcr3.trans htable⟩

end CustomKernel
