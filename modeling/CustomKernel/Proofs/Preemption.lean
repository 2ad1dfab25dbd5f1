/-
Module: CustomKernel.Proofs.Preemption
Layer: Proofs
Purpose: Preempted programs. An interrupt leaves the registers of the program it finds on the kernel
  stack of the current process, and the timer's handler may switch away with that frame in place. As
  `tss.rsp0` follows the current process and the stacks are apart, no process that runs in between
  comes near the frame, and the program goes on with the registers it was interrupted with.
Imports: CustomKernel.Proofs.InterruptFrame, CustomKernel.Proofs.PrivilegeState
Trusted boundary: the C code of a handler keeps to the SysV convention and to its stack
Main exports: Doing, PreemptiveKernel, PreemptiveKernel.Step, StacksApart, PreemptionInv,
  preemption_transparent
-/
import CustomKernel.Proofs.InterruptFrame
import CustomKernel.Proofs.PrivilegeState

namespace CustomKernel

open ByteMemory StepSystem Scheduler

/-! ### The system -/

/-- What a process is doing, or will do when it is switched to. -/
inductive Doing where
  /-- It has not run yet. -/
  | fresh
  /-- It runs its own program: code in ring 3, or in ring 0 on its kernel stack. -/
  | program
  /-- Its program was in a context when an interrupt came, whose dispatcher was entered with some
      stack pointer. -/
  | preempted (c : Context) (called : Word)
  /-- It is inside a system call. -/
  | calling
deriving DecidableEq

/-- The scheduler, the memory, the registers of the program that runs, and what everybody does. -/
structure PreemptiveKernel where
  sched : Scheduler
  machine : Machine
  context : Context
  doing : Nat → Doing

/-- What can happen. -/
inductive PreemptiveEvent where
  /-- The program of the current process runs. -/
  | code
  /-- A hardware interrupt with its vector, the start of its stub, and what it makes the scheduler
      do. -/
  | interrupt (n : Nat) (target next : Word) (event : Option Scheduler.Event)
  | syscall
  /-- A part of a system call that gives the processor up. -/
  | call (event : Scheduler.Event)
  | sysret
deriving DecidableEq, Repr

/-- A process has 16 KiB of kernel stack. -/
def OnStack (s : Scheduler) (p a : Nat) : Prop :=
  (s.procs p).kernelStack.toNat - 16384 ≤ a ∧ a < (s.procs p).kernelStack.toNat

/-- No kernel stack overlaps another. -/
def StacksApart (s : Scheduler) : Prop :=
  (∀ p ∈ s.members, 16384 ≤ (s.procs p).kernelStack.toNat) ∧
    ∀ p ∈ s.members, ∀ q ∈ s.members, p ≠ q → ∀ a, OnStack s p a → ¬ OnStack s q a

/-- The context is one that a process can be in when it runs its own program: a program of the kernel
    keeps its stack pointer in its stack, with room for an interrupt. -/
def Runs (s : Scheduler) (p : Nat) (c : Context) : Prop :=
  if (s.procs p).pageTable ≠ 0 then c.User
  else ¬ c.User ∧ (s.procs p).kernelStack.toNat - 16384 + 200 ≤ c.cpu.rsp.toNat ∧
    c.cpu.rsp.toNat ≤ (s.procs p).kernelStack.toNat

/-- Nothing is written to the kernel stacks of the other processes. -/
def SparesOthers (s : Scheduler) (p : Nat) (mem mem' : ByteMem) : Prop :=
  ∀ q ∈ s.members, q ≠ p → ∀ a, OnStack s q a → mem' a = mem a

/-- Nothing is written to the process's own stack from an address on, either. -/
def SparesFrom (s : Scheduler) (p lo : Nat) (mem mem' : ByteMem) : Prop :=
  SparesOthers s p mem mem' ∧ ∀ a, lo ≤ a → OnStack s p a → mem' a = mem a

/-- What the interrupts of the controllers make the scheduler do. -/
def Serves (n : Nat) : Option Scheduler.Event → Prop
  | some .timer => n = 32
  | some .key => n = 33
  | none => n ≠ 32
  | some _ => False

namespace PreemptiveKernel

/-- The current process goes on with what it is doing, from some memory. A handler returns with the
    stack pointer it was called with, past its return address, and leaves what is above alone; a new
    process starts its program in any context. -/
def GoesOn (k : PreemptiveKernel) (k' : PreemptiveKernel) : Prop :=
  k'.sched = k.sched ∧
  match k.doing k.sched.current with
  | .preempted _ called => ∃ returned : Machine,
      returned.cpu.rsp = called + 8 ∧ returned.cpu.cr3 = k.sched.cr3 ∧
      SparesFrom k.sched k.sched.current called.toNat k.machine.mem returned.mem ∧
      k'.machine = returned ∧ k'.context = returned.isrCommonReturn.iretq ∧
      k'.doing = Function.update k.doing k.sched.current .program
  | .fresh =>
      SparesOthers k.sched k.sched.current k.machine.mem k'.machine.mem ∧
      Runs k.sched k.sched.current k'.context ∧ k'.context.cpu.cr3 = k.sched.cr3 ∧
      k'.doing = Function.update k.doing k.sched.current .program
  | .calling =>
      SparesOthers k.sched k.sched.current k.machine.mem k'.machine.mem ∧ k'.doing = k.doing
  | .program => False

/-- One event. The program of a user process cannot write to the kernel, and what runs in the kernel
    runs on the stack of the current process or on the one for system calls. -/
def Step (k : PreemptiveKernel) : PreemptiveEvent → PreemptiveKernel → Prop
  | .code, k' => k.doing k.sched.current = .program ∧ k'.sched = k.sched ∧ k'.doing = k.doing ∧
      SparesOthers k.sched k.sched.current k.machine.mem k'.machine.mem ∧
      Runs k.sched k.sched.current k'.context ∧ k'.context.cpu.cr3 = k.context.cpu.cr3
  | .interrupt n target next event, k' =>
      k.doing k.sched.current = .program ∧ 32 ≤ n ∧ n < 48 ∧ Serves n event ∧
      ∃ (sched : Scheduler) (handled : Machine),
        (match event with
          | some e => k.sched.EventStep e sched
          | none => sched = k.sched) ∧
        SparesFrom k.sched k.sched.current
          (k.machine.enter k.context k.sched.tssRsp0 none target n next).cpu.rsp.toNat
          (k.machine.enter k.context k.sched.tssRsp0 none target n next).mem handled.mem ∧
        GoesOn
          { sched := sched, machine := handled, context := k.context
            doing := Function.update k.doing k.sched.current (.preempted k.context
              (k.machine.enter k.context k.sched.tssRsp0 none target n next).cpu.rsp) } k'
  | .syscall, k' => k.doing k.sched.current = .program ∧ k.sched.current ≠ k.sched.idle ∧
      (k.sched.procs k.sched.current).pageTable ≠ 0 ∧ k'.sched = k.sched ∧
      k'.doing = Function.update k.doing k.sched.current .calling ∧
      SparesOthers k.sched k.sched.current k.machine.mem k'.machine.mem
  | .call event, k' => k.doing k.sched.current = .calling ∧ Scheduler.GivesUp event ∧
      ∃ (sched : Scheduler) (machine : Machine), k.sched.EventStep event sched ∧
        SparesOthers k.sched k.sched.current k.machine.mem machine.mem ∧
        GoesOn { k with sched := sched, machine := machine } k'
  | .sysret, k' => k.doing k.sched.current = .calling ∧ k'.sched = k.sched ∧
      k'.doing = Function.update k.doing k.sched.current .program ∧
      SparesOthers k.sched k.sched.current k.machine.mem k'.machine.mem ∧
      Runs k.sched k.sched.current k'.context ∧ k'.context.cpu.cr3 = k.sched.cr3

/-- `scheduler_start` has switched to the first process, which starts its program in some context. -/
def Start (s : Scheduler) (k : PreemptiveKernel) : Prop :=
  k.sched = s.schedulerStart ∧ Runs k.sched k.sched.current k.context ∧
    k.context.cpu.cr3 = k.sched.cr3 ∧
    k.doing = Function.update (fun _ => .fresh) k.sched.current .program

end PreemptiveKernel

/-! ### Scheduling and stacks -/

section Space

variable {s s' : Scheduler} {p : Nat}

theorem SameSpace.trans {a b c : Process} (h : SameSpace a b) (h' : SameSpace b c) :
    SameSpace a c :=
  ⟨h.1.trans h'.1, h.2.trans h'.2⟩

theorem ticked_space (s : Scheduler) (p : Nat) : SameSpace (s.ticked.procs p) (s.procs p) := by
  rcases ticked_procs_cases s p with ⟨-, -, h⟩ | ⟨-, -, -, h⟩ | ⟨h, -, -⟩
  · rw [h]
    exact woken_space s p
  · rw [h]
    exact woken_space s p
  · rw [h]
    exact woken_space s p

theorem tickState_space {e : Event} {t : Scheduler} (ht : s.tickState e = some t) (p : Nat) :
    SameSpace (t.procs p) (s.procs p) := by
  have hup : ∀ f : Process → Process, (∀ q, SameSpace (f q) q) →
      SameSpace ((s.updateCurrent f).procs p) (s.procs p) := by
    intro f hf
    by_cases hp : p = s.current
    · rw [hp, show (s.updateCurrent f).procs s.current = f (s.procs s.current) from by
        simp [updateCurrent]]
      exact hf _
    · rw [show (s.updateCurrent f).procs p = s.procs p from by simp [updateCurrent, hp]]
      exact ⟨rfl, rfl⟩
  cases e with
  | timer => exact Option.some.inj ht ▸ ⟨rfl, rfl⟩
  | yield => exact Option.some.inj ht ▸ ⟨rfl, rfl⟩
  | sleep ticks => exact Option.some.inj ht ▸ hup _ fun _ => ⟨rfl, rfl⟩
  | read => exact Option.some.inj ht ▸ hup _ fun _ => ⟨rfl, rfl⟩
  | exit => exact Option.some.inj ht ▸ hup _ fun _ => ⟨rfl, rfl⟩
  | key => cases ht
  | add address created => cases ht

/-- No event but a new process changes who is in the ring, or anybody's stack or page table. -/
theorem event_space (inv : SchedulerInv s) {e : Event} (step : s.EventStep e s')
    (hadd : ∀ address created, e ≠ .add address created) :
    s'.members = s.members ∧ ∀ p, SameSpace (s'.procs p) (s.procs p) := by
  rcases eventStep_cases inv step with ⟨t, ht, -, hmem, -, -, -, rfl⟩ | ⟨-, rfl⟩ |
    ⟨address, created, he, -⟩
  · refine ⟨(ticked_members t).trans hmem, fun p => (ticked_space t p).trans (tickState_space ht p)⟩
  · refine ⟨(keyWoken_rest s).2.2.2, fun p => ?_⟩
    rcases keyWoken_procs_cases s p with h | ⟨-, h⟩
    · rw [h]
      exact ⟨rfl, rfl⟩
    · rw [h]
      exact ⟨rfl, rfl⟩
  · exact absurd he (hadd address created)

theorem OnStack.congr (h : SameSpace (s'.procs p) (s.procs p)) {a : Nat} :
    OnStack s' p a ↔ OnStack s p a := by
  unfold OnStack
  rw [h.1]

theorem Runs.congr (h : SameSpace (s'.procs p) (s.procs p)) {c : Context} (hruns : Runs s p c) :
    Runs s' p c := by
  unfold Runs at hruns ⊢
  rw [h.1, h.2]
  exact hruns

theorem StacksApart.congr (h : StacksApart s) (hmem : s'.members = s.members)
    (hspace : ∀ p, SameSpace (s'.procs p) (s.procs p)) : StacksApart s' := by
  refine ⟨fun p hp => ?_, fun p hp q hq hne a hpa hqa => ?_⟩
  · rw [(hspace p).1]
    exact h.1 p (hmem ▸ hp)
  · exact h.2 p (hmem ▸ hp) q (hmem ▸ hq) hne a ((OnStack.congr (hspace p)).1 hpa)
      ((OnStack.congr (hspace q)).1 hqa)

theorem SparesOthers.trans {mem mem' mem'' : ByteMem} (h : SparesOthers s p mem mem')
    (h' : SparesOthers s p mem' mem'') : SparesOthers s p mem mem'' :=
  fun q hq hne a ha => (h' q hq hne a ha).trans (h q hq hne a ha)

end Space

/-! ### Frames -/

/-- The frame of a preempted program is on the stack of its process, from the stack pointer of the
    dispatcher on, and holds the context. -/
structure FrameKept (s : Scheduler) (mem : ByteMem) (p : Nat) (c : Context) (called : Word) : Prop where
  holds : ∃ n, HoldsRegisters mem (called + 8) (c.registers n 0)
  low : (s.procs p).kernelStack.toNat - 16384 ≤ called.toNat
  high : called.toNat + 184 ≤ (s.procs p).kernelStack.toNat
  runs : Runs s p c
  space : (s.procs p).pageTable ≠ 0 → c.cpu.cr3 = (s.procs p).pageTable

section Frames

variable {s s' : Scheduler} {mem mem' : ByteMem} {p : Nat} {c : Context} {called : Word}

/-- A frame lasts as long as the part of the stack it is on. -/
theorem FrameKept.congr (h : FrameKept s mem p c called)
    (hspace : SameSpace (s'.procs p) (s.procs p))
    (hmem : ∀ a, called.toNat ≤ a → OnStack s p a → mem' a = mem a) :
    FrameKept s' mem' p c called := by
  obtain ⟨n, hholds⟩ := h.holds
  have hlow := h.low
  have hhigh := h.high
  have hlt := (s.procs p).kernelStack.isLt
  have hregs : (called + 8).toNat = called.toNat + 8 := by bv_omega
  refine ⟨⟨n, hholds.congr (by omega) fun a hlo hhi => ?_⟩, ?_, ?_, h.runs.congr hspace, ?_⟩
  · exact hmem a (by omega) ⟨by omega, by omega⟩
  · rw [hspace.1]
    exact hlow
  · rw [hspace.1]
    exact hhigh
  · rw [hspace.2]
    exact h.space

/-- The bounds of a stack pointer that the processor aligns. -/
theorem aligned_bounds (w : Word) : (w &&& ~~~15).toNat ≤ w.toNat ∧ w.toNat < (w &&& ~~~15).toNat + 16 := by
  have hmask : (15 : Word) = BitVec.ofNat 64 (2 ^ 4 - 1) := rfl
  rw [hmask, Bits.toNat_and_not_lowMask w (by decide)]
  omega

/-- Where the interrupt of a program goes: on its process's own stack. -/
theorem trapStack_bounds (loaded : Loaded s) (hroom : 16384 ≤ (s.procs s.current).kernelStack.toNat)
    (hruns : Runs s s.current c) :
    (s.procs s.current).kernelStack.toNat - 16384 + 185 ≤ (c.trapStack s.tssRsp0).toNat ∧
      (c.trapStack s.tssRsp0).toNat ≤ (s.procs s.current).kernelStack.toNat := by
  unfold Runs at hruns
  unfold Context.trapStack
  by_cases huser : (s.procs s.current).pageTable ≠ 0
  · rw [if_pos huser] at hruns
    rw [if_pos hruns, (loaded huser).1]
    have hbounds := aligned_bounds (s.procs s.current).kernelStack
    omega
  · rw [if_neg huser] at hruns
    rw [if_neg hruns.1]
    have hbounds := aligned_bounds c.cpu.rsp
    omega

end Frames

namespace PreemptiveKernel

variable {k k' : PreemptiveKernel}

/-! ### Invariant -/

/-- What holds at any time, also inside a handler. -/
structure FramesInv (k : PreemptiveKernel) : Prop where
  sched : SchedulerInv k.sched
  loaded : Loaded k.sched
  apart : StacksApart k.sched
  frames : ∀ p c called, k.doing p = .preempted c called →
    p ∈ k.sched.members ∧ FrameKept k.sched k.machine.mem p c called

/-- What holds between two events: the current process runs its program or is inside a call. -/
structure PreemptionInv (k : PreemptiveKernel) : Prop extends FramesInv k where
  current : ∀ c called, k.doing k.sched.current ≠ .preempted c called
  runs : k.doing k.sched.current = .program → Runs k.sched k.sched.current k.context
  space : k.doing k.sched.current = .program → (k.sched.procs k.sched.current).pageTable ≠ 0 →
    k.context.cpu.cr3 = (k.sched.procs k.sched.current).pageTable

/-- Memory that is written on nobody else's stack keeps the frames of the others. -/
theorem FramesInv.spared (h : FramesInv k) {mem : ByteMem}
    (hspares : SparesOthers k.sched k.sched.current k.machine.mem mem) {p : Nat} {c : Context}
    {called : Word} (hp : k.doing p = .preempted c called) (hne : p ≠ k.sched.current) :
    FrameKept k.sched mem p c called := by
  obtain ⟨hmem, hframe⟩ := h.frames p c called hp
  exact hframe.congr ⟨rfl, rfl⟩ fun a _ ha => hspares p hmem hne a ha

/-- A context whose page table is exchanged for that of the current process. -/
theorem runs_withCr3 {s : Scheduler} {p : Nat} {c : Context} (h : Runs s p c) (cr3 : Word) :
    Runs s p (c.withCr3 cr3) := h

/-- Going on ends in a state between two events; a preempted program goes on in its context. -/
theorem FramesInv.goesOn (h : FramesInv k) (go : GoesOn k k') :
    PreemptionInv k' ∧ ∀ c called, k.doing k.sched.current = .preempted c called →
      k'.context = c.withCr3 k.sched.cr3 := by
  obtain ⟨hsched, go⟩ := go
  -- the frames of the others, with the current process in its program afterwards
  have hothers : SparesOthers k.sched k.sched.current k.machine.mem k'.machine.mem →
      k'.doing = Function.update k.doing k.sched.current .program → FramesInv k' := by
    intro hspares hdoing
    refine ⟨hsched ▸ h.sched, hsched ▸ h.loaded, hsched ▸ h.apart, fun p c called hp => ?_⟩
    have hne : p ≠ k.sched.current := by
      rintro rfl
      rw [hdoing, Function.update_self] at hp
      cases hp
    rw [hdoing, Function.update_of_ne hne] at hp
    rw [hsched]
    exact ⟨(h.frames p c called hp).1, h.spared hspares hp hne⟩
  have hcurrent : k'.doing = Function.update k.doing k.sched.current .program →
      k'.doing k'.sched.current = .program := by
    intro hdoing
    rw [hdoing, hsched, Function.update_self]
  cases hd : k.doing k.sched.current with
  | preempted c called =>
      rw [hd] at go
      obtain ⟨returned, hrsp, hcr3, hspares, hmachine, hcontext, hdoing⟩ := go
      obtain ⟨-, hframe⟩ := h.frames _ c called hd
      have hkept : FrameKept k.sched returned.mem k.sched.current c called :=
        hframe.congr ⟨rfl, rfl⟩ fun a ha hon => hspares.2 a ha hon
      obtain ⟨n, hholds⟩ := hkept.holds
      have hback : k'.context = c.withCr3 k.sched.cr3 := by
        rw [hcontext, Machine.return_context, hrsp, Machine.registers_of_holds hholds, hcr3,
          Context.registers_context]
      refine ⟨⟨hothers (hmachine ▸ hspares.1) hdoing, ?_, fun _ => ?_, fun _ huser => ?_⟩, ?_⟩
      · intro c' called' hp
        rw [hcurrent hdoing] at hp
        cases hp
      · rw [hsched, hback]
        exact runs_withCr3 hframe.runs _
      · rw [hback]
        rw [hsched] at huser ⊢
        exact (h.loaded huser).2
      · intro c' called' hp
        cases hp
        exact hback
  | fresh =>
      rw [hd] at go
      obtain ⟨hspares, hruns, hcr3, hdoing⟩ := go
      refine ⟨⟨hothers hspares hdoing, ?_, fun _ => ?_, fun _ huser => ?_⟩, fun c called hp => ?_⟩
      · intro c' called' hp
        rw [hcurrent hdoing] at hp
        cases hp
      · rw [hsched]
        exact hruns
      · rw [hcr3]
        rw [hsched] at huser ⊢
        exact (h.loaded huser).2
      · cases hp
  | calling =>
      rw [hd] at go
      obtain ⟨hspares, hdoing⟩ := go
      refine ⟨⟨⟨hsched ▸ h.sched, hsched ▸ h.loaded, hsched ▸ h.apart, fun p c called hp => ?_⟩,
        ?_, ?_, ?_⟩, fun c called hp => ?_⟩
      · rw [hdoing] at hp
        have hne : p ≠ k.sched.current := by
          rintro rfl
          rw [hd] at hp
          cases hp
        rw [hsched]
        exact ⟨(h.frames p c called hp).1, h.spared hspares hp hne⟩
      · rw [hdoing, hsched, hd]
        intro c called hp
        cases hp
      · rw [hdoing, hsched, hd]
        intro hp
        cases hp
      · rw [hdoing, hsched, hd]
        intro hp
        cases hp
      · cases hp
  | program =>
      rw [hd] at go
      exact go.elim

/-- The entry of an interrupt puts the frame of the current program beside those of the others. -/
theorem PreemptionInv.entered (h : PreemptionInv k) (hd : k.doing k.sched.current = .program)
    {n : Nat} (hn : 32 ≤ n) (target next : Word) {handled : Machine}
    (hspares : SparesFrom k.sched k.sched.current
      (k.machine.enter k.context k.sched.tssRsp0 none target n next).cpu.rsp.toNat
      (k.machine.enter k.context k.sched.tssRsp0 none target n next).mem handled.mem) :
    FramesInv { k with
      machine := handled
      doing := Function.update k.doing k.sched.current (.preempted k.context
        (k.machine.enter k.context k.sched.tssRsp0 none target n next).cpu.rsp) } := by
  have hmember := h.sched.ring.current_mem
  have hroom := h.apart.1 _ hmember
  have hruns := h.runs hd
  obtain ⟨hlow, hhigh⟩ := trapStack_bounds h.loaded hroom hruns
  have hfits : Machine.RoomFor k.context k.sched.tssRsp0 := by
    unfold Machine.RoomFor
    omega
  obtain ⟨hframe, hdeep⟩ := hfits.frame
  have herr : (none : Option Word).isSome = isrErr n := by
    have hnot : n ∉ [8, 10, 11, 12, 13, 14, 17, 30] := by
      simp only [List.mem_cons, List.not_mem_nil, or_false]
      omega
    exact (decide_eq_false hnot).symm
  have hrsp : (k.machine.enter k.context k.sched.tssRsp0 none target n next).cpu.rsp =
      k.context.trapFrame k.sched.tssRsp0 - 8 := by
    rw [Machine.enter_cpu k.machine k.context herr]
    rfl
  have hcalled : (k.context.trapFrame k.sched.tssRsp0 - 8).toNat =
      (k.context.trapFrame k.sched.tssRsp0).toNat - 8 := toNat_sub_eight hdeep
  have hholds := @Machine.enter_holds k.context k.machine k.sched.tssRsp0 target next none n herr hfits
  rw [hrsp] at hspares ⊢
  refine ⟨h.sched, h.loaded, h.apart, fun p c called hp => ?_⟩
  by_cases hpc : p = k.sched.current
  · -- the frame just pushed
    subst hpc
    dsimp only at hp
    rw [Function.update_self] at hp
    cases hp
    have hentered : FrameKept k.sched
        (k.machine.enter k.context k.sched.tssRsp0 none target n next).mem k.sched.current k.context
          (k.context.trapFrame k.sched.tssRsp0 - 8) := by
      refine ⟨⟨n, ?_⟩, by omega, by omega, hruns, h.space hd⟩
      rw [BitVec.sub_add_cancel]
      exact hholds
    exact ⟨hmember, hentered.congr ⟨rfl, rfl⟩ hspares.2⟩
  · dsimp only at hp
    rw [Function.update_of_ne hpc] at hp
    obtain ⟨hmem, hkept⟩ := h.frames p c called hp
    refine ⟨hmem, hkept.congr ⟨rfl, rfl⟩ fun a _ ha => ?_⟩
    have hoff : ¬ OnStack k.sched k.sched.current a := h.apart.2 p hmem _ hmember hpc a ha
    unfold OnStack at hoff
    rw [hspares.1 p hmem hpc a ha, Machine.enter_outside k.machine herr hfits (by omega)]

/-- What the scheduler does in between leaves the frames where they are. -/
theorem FramesInv.event (h : FramesInv k) {e : Event} {sched : Scheduler}
    (step : k.sched.EventStep e sched) (hadd : ∀ address created, e ≠ .add address created) :
    FramesInv { k with sched := sched } := by
  obtain ⟨hmem, hspace⟩ := event_space h.sched step hadd
  refine ⟨h.sched.of_event step, loaded_event h.sched h.loaded step, h.apart.congr hmem hspace,
    fun p c called hp => ?_⟩
  obtain ⟨hmember, hframe⟩ := h.frames p c called hp
  exact ⟨hmem.symm ▸ hmember, hframe.congr (hspace p) fun _ _ _ => rfl⟩

/-- Memory that is written on nobody else's stack, by a process without a frame. -/
theorem PreemptionInv.written (h : PreemptionInv k) {machine : Machine}
    (hspares : SparesOthers k.sched k.sched.current k.machine.mem machine.mem) :
    FramesInv { k with machine := machine } := by
  refine ⟨h.sched, h.loaded, h.apart, fun p c called hp => ?_⟩
  have hne : p ≠ k.sched.current := by
    rintro rfl
    exact h.current c called hp
  exact ⟨(h.frames p c called hp).1, h.toFramesInv.spared hspares hp hne⟩

/-- The current process turns to its program, or to a system call. -/
theorem PreemptionInv.turned (h : PreemptionInv k) (hsched : k'.sched = k.sched) {now : Doing}
    (hdoing : k'.doing = Function.update k.doing k.sched.current now)
    (hspares : SparesOthers k.sched k.sched.current k.machine.mem k'.machine.mem)
    (hnow : now = .program ∧ Runs k.sched k.sched.current k'.context ∧
        k'.context.cpu.cr3 = k.sched.cr3 ∨ now = .calling) : PreemptionInv k' := by
  have hcurrent : k'.doing k'.sched.current = now := by
    rw [hdoing, hsched, Function.update_self]
  have hne : ∀ c called, now ≠ .preempted c called := by
    intro c called hp
    rcases hnow with ⟨h', -⟩ | h'
    · rw [h'] at hp
      cases hp
    · rw [h'] at hp
      cases hp
  refine ⟨⟨hsched ▸ h.sched, hsched ▸ h.loaded, hsched ▸ h.apart, fun p c called hp => ?_⟩,
    fun c called hp => hne c called (hcurrent.symm.trans hp), fun hp => ?_, fun hp huser => ?_⟩
  · have hpc : p ≠ k.sched.current := by
      rintro rfl
      rw [hdoing, Function.update_self] at hp
      exact hne c called hp
    rw [hdoing, Function.update_of_ne hpc] at hp
    rw [hsched]
    exact ⟨(h.frames p c called hp).1, h.toFramesInv.spared hspares hp hpc⟩
  · rcases hnow with ⟨-, hruns, -⟩ | h'
    · rw [hsched]
      exact hruns
    · rw [hcurrent, h'] at hp
      cases hp
  · rcases hnow with ⟨-, -, hcr3⟩ | h'
    · rw [hcr3]
      rw [hsched] at huser ⊢
      exact (h.loaded huser).2
    · rw [hcurrent, h'] at hp
      cases hp

theorem calls_not_add {event : Event} (h : Scheduler.GivesUp event) (address : Nat) (created : Process) :
    event ≠ .add address created := by
  rintro rfl
  exact h

theorem serves_not_add {n : Nat} {event : Event} (h : Serves n (some event)) (address : Nat)
    (created : Process) : event ≠ .add address created := by
  rintro rfl
  exact h

/-- What leads to `GoesOn`, for an interrupt: the frame is in place, and the scheduler has run. -/
theorem PreemptionInv.interrupted (h : PreemptionInv k) {n : Nat} {target next : Word}
    {event : Option Event} (step : k.Step (.interrupt n target next event) k') :
    ∃ mid : PreemptiveKernel, FramesInv mid ∧ GoesOn mid k' ∧
      mid.doing k.sched.current = .preempted k.context
        (k.machine.enter k.context k.sched.tssRsp0 none target n next).cpu.rsp ∧
      ∀ p, p ≠ k.sched.current → mid.doing p = k.doing p := by
  obtain ⟨hd, hn, -, hserves, sched, handled, hevent, hspares, go⟩ := step
  have entered := h.entered hd hn target next hspares
  refine ⟨_, ?_, go, Function.update_self .., fun p hp => Function.update_of_ne hp ..⟩
  cases event with
  | none =>
      obtain rfl := hevent
      exact entered
  | some e =>
      exact entered.event hevent (serves_not_add hserves)

/-- And for a part of a system call. -/
theorem PreemptionInv.called (h : PreemptionInv k) {event : Event} (step : k.Step (.call event) k') :
    ∃ mid : PreemptiveKernel, FramesInv mid ∧ GoesOn mid k' ∧ mid.doing = k.doing := by
  obtain ⟨-, hcalls, sched, machine, hevent, hspares, go⟩ := step
  exact ⟨_, (h.written hspares).event hevent (calls_not_add hcalls), go, rfl⟩

/-- Every event keeps the invariant. -/
theorem PreemptionInv.step (h : PreemptionInv k) {e : PreemptiveEvent} (step : k.Step e k') :
    PreemptionInv k' := by
  cases e with
  | code =>
      obtain ⟨hd, hsched, hdoing, hspares, hruns, hcr3⟩ := step
      have hcurrent : k'.doing k'.sched.current = .program := by rw [hdoing, hsched, hd]
      refine ⟨⟨hsched ▸ h.sched, hsched ▸ h.loaded, hsched ▸ h.apart, fun p c called hp => ?_⟩,
        fun c called hp => ?_, fun _ => hsched ▸ hruns, fun _ huser => ?_⟩
      · rw [hdoing] at hp
        rw [hsched]
        exact (h.written hspares).frames p c called hp
      · rw [hcurrent] at hp
        cases hp
      · rw [hcr3]
        rw [hsched] at huser ⊢
        exact h.space hd huser
  | interrupt n target next event =>
      obtain ⟨mid, inv, go, -⟩ := h.interrupted step
      exact (inv.goesOn go).1
  | syscall =>
      obtain ⟨-, -, -, hsched, hdoing, hspares⟩ := step
      exact h.turned hsched hdoing hspares (.inr rfl)
  | call event =>
      obtain ⟨mid, inv, go, -⟩ := h.called step
      exact (inv.goesOn go).1
  | sysret =>
      obtain ⟨-, hsched, hdoing, hspares, hruns, hcr3⟩ := step
      exact h.turned hsched hdoing hspares (.inl ⟨rfl, hruns, hcr3⟩)

/-- After `scheduler_start`. -/
theorem PreemptionInv.start {s : Scheduler} (prepared : Prepared s) (apart : StacksApart s)
    (h : Start s k) : PreemptionInv k := by
  obtain ⟨hsched, hruns, hcr3, hdoing⟩ := h
  have hspec := schedulerStart_spec prepared.inv.ring
  have hloaded := hsched ▸ loaded_schedulerStart prepared.inv.ring
  have hspace : ∀ p, SameSpace (s.schedulerStart.procs p) (s.procs p) := by
    intro p
    rw [hspec.1]
    split
    · rename_i hp
      rw [hp]
      exact ⟨rfl, rfl⟩
    · exact ⟨rfl, rfl⟩
  have hcurrent : k.doing k.sched.current = .program := by rw [hdoing, Function.update_self]
  refine ⟨⟨hsched ▸ schedulerStart_inv prepared.inv, hloaded,
    hsched ▸ apart.congr hspec.2.2.2 hspace, fun p c called hp => ?_⟩, fun c called hp => ?_,
    fun _ => hruns, fun _ huser => hcr3.trans (hloaded huser).2⟩
  · by_cases hpc : p = k.sched.current
    · rw [hpc, hcurrent] at hp
      cases hp
    · rw [hdoing, Function.update_of_ne hpc] at hp
      cases hp
  · rw [hcurrent] at hp
    cases hp

/-- In every run after `scheduler_start` in which the kernel stacks are apart: an interrupt that leads
    back to the program it came from gives it back all its registers. If it leads to another process,
    or a system call does, and that process was preempted, its program goes on with all the registers
    it had then, however many processes have run and been interrupted in between; a user program in
    its own address space. -/
theorem preemption_transparent (s : Scheduler) (start k k' : PreemptiveKernel)
    (events : List PreemptiveEvent) (e : PreemptiveEvent) (prepared : Prepared s)
    (apart : StacksApart s) (hstart : Start s start) (run : Run Step start events k)
    (step : k.Step e k') :
    (∀ n target next event, e = .interrupt n target next event →
      k'.sched.current = k.sched.current → k'.context = k.context.withCr3 k'.sched.cr3 ∧
        ((k'.sched.procs k'.sched.current).pageTable ≠ 0 → k'.context = k.context)) ∧
    ∀ p c called, k.doing p = .preempted c called → k'.sched.current = p →
      k'.context = c.withCr3 k'.sched.cr3 ∧
        ((k'.sched.procs p).pageTable ≠ 0 → k'.context = c) := by
  have inv := run.invariant PreemptionInv (fun _ _ _ inv step => inv.step step)
    (PreemptionInv.start prepared apart hstart)
  -- where a preempted program goes on, its own page table is loaded
  have back : ∀ (mid : PreemptiveKernel) c called, FramesInv mid → GoesOn mid k' →
      mid.doing k'.sched.current = .preempted c called → k'.context = c.withCr3 k'.sched.cr3 ∧
        ((k'.sched.procs k'.sched.current).pageTable ≠ 0 → k'.context = c) := by
    intro mid c called hmid go hp
    have hsched := go.1
    rw [hsched] at hp ⊢
    have hcontext := (hmid.goesOn go).2 c called hp
    refine ⟨hcontext, fun huser => ?_⟩
    rw [hcontext, (hmid.loaded huser).2, ← (hmid.frames _ c called hp).2.space huser]
    rfl
  refine ⟨fun n target next event he hcur => ?_, fun p c called hp hcur => ?_⟩
  · subst he
    obtain ⟨mid, hmid, go, hown, -⟩ := inv.interrupted step
    exact back mid _ _ hmid go (hcur ▸ hown)
  · subst hcur
    have hne : k'.sched.current ≠ k.sched.current := by
      intro h
      rw [h] at hp
      exact inv.current c called hp
    cases e with
    | code => exact absurd (congrArg Scheduler.current step.2.1) hne
    | interrupt n target next event =>
        obtain ⟨mid, hmid, go, -, hothers⟩ := inv.interrupted step
        exact back mid _ _ hmid go ((hothers _ hne).trans hp)
    | syscall => exact absurd (congrArg Scheduler.current step.2.2.2.1) hne
    | call event =>
        obtain ⟨mid, hmid, go, hdoing⟩ := inv.called step
        exact back mid _ _ hmid go ((congrFun hdoing _).trans hp)
    | sysret => exact absurd (congrArg Scheduler.current step.2.1) hne

section UserAndIdle

/-- A user process at address 2 and idle at 1, with stacks of their own. -/
def ownStacks : Scheduler :=
  let boot : Scheduler := { blankBoot with procs := fun _ => { kernelStack := 0x10000 } }
  let s := boot.schedulerInit 1
  ({ s with procs := setProcess s.procs 2 { pageTable := 0x5000, kernelStack := 0x20000 } }
    |>.schedulerAdd 2).getD s

theorem ownStacks_prepared : Prepared ownStacks :=
  ⟨{ blankBoot with procs := fun _ => { kernelStack := 0x10000 } }, 1,
    [(2, { pageTable := 0x5000, kernelStack := 0x20000 })], by decide,
    .single ⟨by decide, by decide, rfl⟩⟩

theorem ownStacks_spec : ownStacks.members = [1, 2] ∧
    (ownStacks.procs 1).kernelStack = 0x10000 ∧ (ownStacks.procs 2).kernelStack = 0x20000 := by
  decide +kernel

theorem ownStacks_apart : StacksApart ownStacks := by
  obtain ⟨hmembers, h1, h2⟩ := ownStacks_spec
  have hcases : ∀ p ∈ ownStacks.members, p = 1 ∨ p = 2 := by
    intro p hp
    rw [hmembers] at hp
    simpa using hp
  have hon : ∀ a, ¬ (OnStack ownStacks 1 a ∧ OnStack ownStacks 2 a) := by
    rintro a ⟨⟨-, hhi⟩, hlo, -⟩
    rw [h1] at hhi
    rw [h2] at hlo
    have hgap : (0x10000 : Word).toNat ≤ (0x20000 : Word).toNat - 16384 := by decide
    omega
  refine ⟨fun p hp => ?_, fun p hp q hq hne a hpa hqa => ?_⟩
  · rcases hcases p hp with rfl | rfl
    · rw [h1]
      decide
    · rw [h2]
      decide
  · rcases hcases p hp with rfl | rfl <;> rcases hcases q hq with rfl | rfl
    · exact hne rfl
    · exact hon a ⟨hpa, hqa⟩
    · exact hon a ⟨hqa, hpa⟩
    · exact hne rfl

/-- The scheduler after each of the two ticks. -/
def firstTick : Scheduler := ownStacks.schedulerStart.timerHandler.getD blankBoot

def secondTick : Scheduler := firstTick.timerHandler.getD blankBoot

theorem ticks_spec :
    ownStacks.schedulerStart.timerHandler.isSome ∧ firstTick.timerHandler.isSome ∧
      ownStacks.schedulerStart.current = 2 ∧ firstTick.current = 1 ∧ secondTick.current = 2 ∧
      (ownStacks.schedulerStart.procs 2).pageTable = 0x5000 ∧
      ownStacks.schedulerStart.cr3 = 0x5000 ∧ (firstTick.procs 1).pageTable = 0 ∧
      (firstTick.procs 1).kernelStack = 0x10000 ∧ firstTick.cr3 = 0x5000 ∧
      (secondTick.procs 2).pageTable = 0x5000 := by
  decide +kernel

/-- A program of process 2, and idle in `idle_fn`. -/
def userContext : Context where
  cpu := { rax := 7, rip := 0x8000200000, rsp := 0x8000040000, rflags := 0x202, cr3 := 0x5000 }
  cs := 0x23
  ss := 0x1B

def idleContext : Context where
  cpu := { rip := 0x101000, rsp := 0xFF00, rflags := 0x202, cr3 := 0x5000 }
  cs := 0x08
  ss := 0x10

/-- Memory is empty, and process 2 runs. -/
def userRuns : PreemptiveKernel where
  sched := ownStacks.schedulerStart
  machine := { cpu := {}, mem := fun _ => 0, kernelStackTop := 0x120000, userRspTmp := 0 }
  context := userContext
  doing := Function.update (fun _ => .fresh) ownStacks.schedulerStart.current .program

/-- The timer interrupts the current program, and its handler returns from `scheduler_tick`. -/
def handling (k : PreemptiveKernel) (sched : Scheduler) : PreemptiveKernel where
  sched := sched
  machine := k.machine.enter k.context k.sched.tssRsp0 none 0x102000 32 0x103000
  context := k.context
  doing := Function.update k.doing k.sched.current (.preempted k.context
    (k.machine.enter k.context k.sched.tssRsp0 none 0x102000 32 0x103000).cpu.rsp)

theorem handling_step {sched : Scheduler} (hd : k.doing k.sched.current = .program)
    (hevent : k.sched.EventStep .timer sched) (go : GoesOn (k.handling sched) k') :
    k.Step (.interrupt 32 0x102000 0x103000 (some .timer)) k' :=
  ⟨hd, by decide, by decide, rfl, sched, _, hevent, ⟨fun _ _ _ _ _ => rfl, fun _ _ _ => rfl⟩, go⟩

theorem handling_doing_self (k : PreemptiveKernel) (sched : Scheduler) :
    (k.handling sched).doing k.sched.current = .preempted k.context
      (k.machine.enter k.context k.sched.tssRsp0 none 0x102000 32 0x103000).cpu.rsp :=
  Function.update_self ..

theorem handling_doing_ne (k : PreemptiveKernel) (sched : Scheduler) {p : Nat}
    (hp : p ≠ k.sched.current) : (k.handling sched).doing p = k.doing p :=
  Function.update_of_ne hp ..

/-- A new process starts in a context. -/
def starting (k : PreemptiveKernel) (c : Context) : PreemptiveKernel :=
  { k with context := c, doing := Function.update k.doing k.sched.current .program }

theorem starting_goesOn {c : Context} (hd : k.doing k.sched.current = .fresh)
    (hruns : Runs k.sched k.sched.current c) (hcr3 : c.cpu.cr3 = k.sched.cr3) :
    GoesOn k (k.starting c) := by
  unfold GoesOn
  rw [hd]
  exact ⟨rfl, fun _ _ _ _ _ => rfl, hruns, hcr3, rfl⟩

theorem starting_doing_self (k : PreemptiveKernel) (c : Context) :
    (k.starting c).doing k.sched.current = .program :=
  Function.update_self ..

theorem starting_doing_ne (k : PreemptiveKernel) (c : Context) {p : Nat}
    (hp : p ≠ k.sched.current) : (k.starting c).doing p = k.doing p :=
  Function.update_of_ne hp ..

/-- The machine with which a handler returns at once. -/
def returned (k : PreemptiveKernel) (called : Word) : Machine :=
  { k.machine with cpu := { rsp := called + 8, cr3 := k.sched.cr3 } }

def returning (k : PreemptiveKernel) (called : Word) : PreemptiveKernel where
  sched := k.sched
  machine := k.returned called
  context := (k.returned called).isrCommonReturn.iretq
  doing := Function.update k.doing k.sched.current .program

theorem returning_goesOn {c : Context} {called : Word}
    (hd : k.doing k.sched.current = .preempted c called) : GoesOn k (k.returning called) := by
  unfold GoesOn
  rw [hd]
  exact ⟨rfl, k.returned called, rfl, rfl, ⟨fun _ _ _ _ _ => rfl, fun _ _ _ => rfl⟩, rfl, rfl, rfl⟩

/-- The timer has preempted process 2 for idle, which starts. -/
def idleStarts : PreemptiveKernel := (userRuns.handling firstTick).starting idleContext

theorem userRuns_start : Start ownStacks userRuns := by
  obtain ⟨-, -, h2, -, -, htable, hcr3, -⟩ := ticks_spec
  refine ⟨rfl, ?_, hcr3.symm, rfl⟩
  show Runs ownStacks.schedulerStart ownStacks.schedulerStart.current userContext
  unfold Runs
  rw [h2, htable, if_pos (by decide)]
  decide

theorem idleStarts_step :
    userRuns.Step (.interrupt 32 0x102000 0x103000 (some .timer)) idleStarts := by
  obtain ⟨hfirst, -, h2, h1, -, -, -, htable, hstack, hcr3, -⟩ := ticks_spec
  have hne : firstTick.current ≠ ownStacks.schedulerStart.current := by
    rw [h1, h2]
    decide
  have hdoing : userRuns.doing =
      Function.update (fun _ => .fresh) ownStacks.schedulerStart.current .program := rfl
  have hprogram : userRuns.doing ownStacks.schedulerStart.current = .program := by
    rw [hdoing, Function.update_self]
  have hfresh : userRuns.doing firstTick.current = .fresh := by
    rw [hdoing, Function.update_of_ne hne]
  have hevent : userRuns.sched.EventStep .timer firstTick := eq_some_getD hfirst _
  refine handling_step hprogram hevent (starting_goesOn ?_ ?_ hcr3.symm)
  · exact (handling_doing_ne userRuns firstTick hne).trans hfresh
  · show Runs firstTick firstTick.current idleContext
    unfold Runs
    rw [h1, htable, hstack, if_neg (fun h => h rfl)]
    decide

/-- What process 2 does while idle runs. -/
theorem idleStarts_doing : idleStarts.doing 2 = .preempted userContext
    (userRuns.machine.enter userContext userRuns.sched.tssRsp0 none 0x102000 32 0x103000).cpu.rsp := by
  obtain ⟨-, -, h2, h1, -⟩ := ticks_spec
  have hne : (2 : Nat) ≠ (userRuns.handling firstTick).sched.current := by
    show (2 : Nat) ≠ firstTick.current
    rw [h1]
    decide
  have hcurrent : userRuns.sched.current = 2 := h2
  have hself := handling_doing_self userRuns firstTick
  rw [hcurrent] at hself
  exact (starting_doing_ne (userRuns.handling firstTick) idleContext hne).trans hself

/-- The next tick leads back to the program of process 2, with 7 in `rax`. -/
theorem preemption_transparent_two_ticks : ∃ k', idleStarts.Step
    (.interrupt 32 0x102000 0x103000 (some .timer)) k' ∧ k'.context = userContext := by
  obtain ⟨-, hsecond, -, h1, h2, -, -, -, -, -, htable⟩ := ticks_spec
  have hne : (2 : Nat) ≠ idleStarts.sched.current := by
    show (2 : Nat) ≠ firstTick.current
    rw [h1]
    decide
  have hprogram : idleStarts.doing idleStarts.sched.current = .program :=
    starting_doing_self (userRuns.handling firstTick) idleContext
  have hdoing : (idleStarts.handling secondTick).doing (idleStarts.handling secondTick).sched.current =
      .preempted userContext (userRuns.machine.enter userContext userRuns.sched.tssRsp0 none 0x102000
        32 0x103000).cpu.rsp := by
    show (idleStarts.handling secondTick).doing secondTick.current = _
    rw [h2, handling_doing_ne idleStarts secondTick hne, idleStarts_doing]
  have hevent : idleStarts.sched.EventStep .timer secondTick := eq_some_getD hsecond _
  have step := handling_step hprogram hevent (returning_goesOn hdoing)
  refine ⟨_, step, ((preemption_transparent ownStacks userRuns idleStarts _ _ _ ownStacks_prepared
    ownStacks_apart userRuns_start (.single idleStarts_step) step).2 2 userContext _
      idleStarts_doing h2).2 ?_⟩
  show (secondTick.procs 2).pageTable ≠ 0
  rw [htable]
  decide

end UserAndIdle

end PreemptiveKernel

end CustomKernel
