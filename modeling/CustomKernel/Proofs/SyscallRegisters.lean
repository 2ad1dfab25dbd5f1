/-
Module: CustomKernel.Proofs.SyscallRegisters
Layer: Proofs
Purpose: The registers of a user program across a system call that does not block. `syscall_entry`
  hands the number and the arguments to `syscall_dispatch` and restores what it has saved. The
  registers that C code may use as it likes are not among these, apart from `rcx` and `r11`, so the
  program finds in them what the dispatcher left there.
Imports: CustomKernel.Proofs.ContextSwitch, CustomKernel.Proofs.SyscallFrame
Trusted boundary: the dispatcher is any function that keeps to the SysV convention
Main exports: UserRegisters, SyscallKeeps, Scratch, syscall_registers
-/
import CustomKernel.Proofs.ContextSwitch
import CustomKernel.Proofs.SyscallFrame

namespace CustomKernel

open ByteMemory

/-- The registers a system call should not change: all but `rax`, `rcx` and `r11`. -/
structure UserRegisters where
  rbx : Word
  rdx : Word
  rsi : Word
  rdi : Word
  rbp : Word
  rsp : Word
  r8 : Word
  r9 : Word
  r10 : Word
  r12 : Word
  r13 : Word
  r14 : Word
  r15 : Word
deriving DecidableEq, Repr

/-- These of a register file. -/
def Cpu.userRegisters (c : Cpu) : UserRegisters where
  rbx := c.rbx
  rdx := c.rdx
  rsi := c.rsi
  rdi := c.rdi
  rbp := c.rbp
  rsp := c.rsp
  r8 := c.r8
  r9 := c.r9
  r10 := c.r10
  r12 := c.r12
  r13 := c.r13
  r14 := c.r14
  r15 := c.r15

/-- Those of them that are not in the frame, and that C code may use as it likes. -/
structure Scratch where
  rdx : Word
  rsi : Word
  rdi : Word
  r8 : Word
  r9 : Word
  r10 : Word
deriving DecidableEq, Repr

def Cpu.scratch (c : Cpu) : Scratch where
  rdx := c.rdx
  rsi := c.rsi
  rdi := c.rdi
  r8 := c.r8
  r9 := c.r9
  r10 := c.r10

namespace Machine

/-- The last three registers of parameters are not touched. -/
theorem syscallEntry_rest (m : Machine) (after : Word) :
    (m.syscallEntry after).cpu.r8 = m.cpu.r8 ∧ (m.syscallEntry after).cpu.r9 = m.cpu.r9 ∧
      (m.syscallEntry after).cpu.r10 = m.cpu.r10 := by
  simp only [syscallEntry, Machine.call, Machine.push, pushAll_cpu, and_self]

/-- Neither the pops nor `sysretq` write `rax` or a scratch register. -/
theorem sysret_scratch (m : Machine) :
    m.syscallReturn.sysretq.cpu.rax = m.cpu.rax ∧
      m.syscallReturn.sysretq.cpu.scratch = m.cpu.scratch := by
  simp only [sysretq, syscallReturn, Cpu.scratch, and_self]

/-- The registers of the frame and the scratch registers are the registers of the program. -/
theorem userRegisters_eq_iff {c d : Cpu} (h : c.userFrame = d.userFrame) :
    c.userRegisters = d.userRegisters ↔ c.scratch = d.scratch := by
  simp only [Cpu.userFrame, UserFrame.mk.injEq] at h
  obtain ⟨-, -, hrbp, hrbx, h12, h13, h14, h15, hrsp⟩ := h
  simp only [Cpu.userRegisters, UserRegisters.mk.injEq, Cpu.scratch, Scratch.mk.injEq, hrbp, hrbx,
    h12, h13, h14, h15, hrsp, true_and, and_true]

variable {user returned : Machine} {next after : Word}

/-- A dispatcher that obeys the convention gives the frame back. -/
theorem dispatch_frame (hroom : 16384 ≤ user.kernelStackTop.toNat)
    (htop : returned.kernelStackTop = user.kernelStackTop)
    (hsysv : SysVReturn user.kernelStackTop ((user.syscall next).syscallEntry after) returned) :
    returned.syscallReturn.sysretq.cpu.userFrame = (user.syscall next).cpu.userFrame ∧
      returned.syscallReturn.sysretq.cpu.rip = next := by
  have hcalled : ((user.syscall next).syscallEntry after).cpu.rsp = user.kernelStackTop - 80 :=
    syscallEntry_rsp (user.syscall next) after
  have hrsp : returned.cpu.rsp = returned.kernelStackTop - 72 := by
    rw [hsysv.rsp, hcalled, htop]
    bv_omega
  have hspares : SparesFrame ((user.syscall next).syscallEntry after) returned := by
    have hentered : ((user.syscall next).syscallEntry after).kernelStackTop = user.kernelStackTop :=
      syscallEntry_kernelStackTop (user.syscall next) after
    rw [SparesFrame, hentered]
    refine ⟨htop, fun a hlo hhi => hsysv.stack a ?_ hhi⟩
    rw [hcalled]
    bv_omega
  have hentry := @syscallEntry_frame (user.syscall next) hroom after
  have hframe : FrameAt returned.mem returned.kernelStackTop (user.syscall next).cpu.userFrame := by
    refine hspares.frameAt ?_ ?_
    · rw [syscallEntry_kernelStackTop]
      exact hroom
    · rw [syscallEntry_kernelStackTop]
      exact hentry
  obtain ⟨hregs, hrip⟩ := sysretq_userFrame returned.syscallReturn
  rw [hregs, hrip, syscallReturn_frame hframe hrsp]
  exact ⟨rfl, rfl⟩

end Machine

/-- What the program should find behind its `syscall` instruction: the result in `rax`, and its
    registers. -/
def SyscallKeeps (user back : Cpu) (result : Word) : Prop :=
  back.rax = result ∧ back.userRegisters = user.userRegisters

/-- For every register file and every dispatcher that obeys the convention: it is called with the
    number and the arguments of the user, execution goes on behind the `syscall`, with the user's
    flags, and the registers are kept exactly if the dispatcher has left the user's values in the
    scratch registers. One that leaves them as they are does so exactly if the user had the same value
    in `rax`, `rdi`, `rsi` and `rdx`. -/
theorem syscall_registers (user returned : Machine) (next after : Word)
    (hroom : 16384 ≤ user.kernelStackTop.toNat)
    (htop : returned.kernelStackTop = user.kernelStackTop)
    (hsysv : SysVReturn user.kernelStackTop ((user.syscall next).syscallEntry after) returned) :
    let called := ((user.syscall next).syscallEntry after).cpu
    let back := returned.syscallReturn.sysretq.cpu
    (called.rdi = user.cpu.rax ∧ called.rsi = user.cpu.rdi ∧ called.rdx = user.cpu.rsi ∧
      called.rcx = user.cpu.rdx) ∧
    (back.rip = next ∧ back.rflags = user.cpu.rflags &&& 0x3C7FD7 ||| 2) ∧
    (SyscallKeeps user.cpu back returned.cpu.rax ↔ returned.cpu.scratch = user.cpu.scratch) ∧
    (returned.cpu.scratch = called.scratch →
      (SyscallKeeps user.cpu back returned.cpu.rax ↔
        user.cpu.rax = user.cpu.rdi ∧ user.cpu.rdi = user.cpu.rsi ∧
          user.cpu.rsi = user.cpu.rdx)) := by
  intro called back
  obtain ⟨hrdi, hrsi, hrdx, hrcx⟩ := Machine.syscallEntry_arguments (user.syscall next) after
  obtain ⟨hr8, hr9, hr10⟩ := Machine.syscallEntry_rest (user.syscall next) after
  obtain ⟨hframe, hrip⟩ := Machine.dispatch_frame hroom htop hsysv
  obtain ⟨hrax, hscratch⟩ := Machine.sysret_scratch returned
  have hflags : back.rflags = user.cpu.rflags &&& 0x3C7FD7 ||| 2 := by
    have hr11 := congrArg UserFrame.r11 hframe
    simp only [Cpu.userFrame, Machine.sysretq, Machine.syscall] at hr11
    simp only [back, Machine.sysretq, hr11]
  have hkeeps : SyscallKeeps user.cpu back returned.cpu.rax ↔
      returned.cpu.scratch = user.cpu.scratch := by
    have hregs := Machine.userRegisters_eq_iff hframe
    have huser : (user.syscall next).cpu.userRegisters = user.cpu.userRegisters := rfl
    have huser' : (user.syscall next).cpu.scratch = user.cpu.scratch := rfl
    rw [huser, huser', hscratch] at hregs
    exact ⟨fun h => hregs.1 h.2, fun h => ⟨hrax, hregs.2 h⟩⟩
  refine ⟨⟨hrdi, hrsi, hrdx, hrcx⟩, ⟨hrip, hflags⟩, hkeeps, fun huntouched => ?_⟩
  rw [hkeeps, huntouched]
  show Scratch.mk called.rdx called.rsi called.rdi called.r8 called.r9 called.r10 =
    Scratch.mk user.cpu.rdx user.cpu.rsi user.cpu.rdi user.cpu.r8 user.cpu.r9 user.cpu.r10 ↔ _
  have h8 : called.r8 = user.cpu.r8 := hr8
  have h9 : called.r9 = user.cpu.r9 := hr9
  have h10 : called.r10 = user.cpu.r10 := hr10
  have hdi : called.rdi = user.cpu.rax := hrdi
  have hsi : called.rsi = user.cpu.rdi := hrsi
  have hdx : called.rdx = user.cpu.rsi := hrdx
  rw [Scratch.mk.injEq, h8, h9, h10, hdi, hsi, hdx]
  constructor
  · rintro ⟨hrdx', hrsi', hrdi', -⟩
    exact ⟨hrdi', hrsi', hrdx'⟩
  · rintro ⟨hrdi', hrsi', hrdx'⟩
    exact ⟨hrdx', hrsi', hrdi', rfl, rfl, rfl⟩

/-! ### A call with an argument -/

/-- A user program about to make call `number`, with `arg` in `rdi`. -/
def callingMachine (number arg : Word) : Machine where
  cpu := { rsp := 0x8000040000, rax := number, rdi := arg, rflags := 0x202 }
  mem := fun _ => 0
  kernelStackTop := 0x120000
  userRspTmp := 0

/-- A dispatcher that returns 0 and leaves everything else alone. -/
def quietDispatch (m : Machine) : Machine :=
  { m with cpu := { m.cpu with rax := 0, rsp := m.cpu.rsp + 8 } }

theorem quietDispatch_sysV (top : Word) (m : Machine) : SysVReturn top m (quietDispatch m) :=
  ⟨rfl, rfl, fun _ _ _ => rfl⟩

/-- What a program finds behind such a call. -/
def afterCall (user : Machine) : Cpu :=
  (quietDispatch ((user.syscall 0x8000200002).syscallEntry 0x100100)).syscallReturn.sysretq.cpu

/-- A program with the same value in `rax`, `rdi`, `rsi` and `rdx`. -/
def sameArguments : Machine :=
  { callingMachine 3 3 with
    cpu := { (callingMachine 3 3).cpu with rsi := 3, rdx := 3, r8 := 8, r9 := 9, r10 := 10, rbx := 11 } }

/-- It gets its registers back. -/
theorem syscall_registers_same_arguments :
    SyscallKeeps sameArguments.cpu (afterCall sameArguments) 0 := by
  have htop : (quietDispatch ((sameArguments.syscall 0x8000200002).syscallEntry
      0x100100)).kernelStackTop = sameArguments.kernelStackTop := by
    rw [quietDispatch, Machine.syscallEntry_kernelStackTop, Machine.syscall]
  obtain ⟨-, -, -, hquiet⟩ := syscall_registers sameArguments _ 0x8000200002 0x100100
    (by decide) htop (quietDispatch_sysV _ _)
  exact (hquiet rfl).2 ⟨rfl, rfl, rfl⟩

/-- With 7 in `rdi` for call 1, there is 1 in `rdi` behind the call. -/
theorem argument_register_lost :
    SysVReturn (callingMachine 1 7).kernelStackTop
        (((callingMachine 1 7).syscall 0x8000200002).syscallEntry 0x100100)
        (quietDispatch (((callingMachine 1 7).syscall 0x8000200002).syscallEntry 0x100100)) ∧
      (callingMachine 1 7).cpu.rdi = 7 ∧ (afterCall (callingMachine 1 7)).rdi = 1 ∧
      ¬ SyscallKeeps (callingMachine 1 7).cpu (afterCall (callingMachine 1 7)) 0 := by
  have hrdi : (afterCall (callingMachine 1 7)).rdi = 1 :=
    (Machine.syscallEntry_arguments ((callingMachine 1 7).syscall 0x8000200002) 0x100100).1
  refine ⟨quietDispatch_sysV _ _, rfl, hrdi, fun hkeeps => ?_⟩
  have hsame : (afterCall (callingMachine 1 7)).rdi = 7 := congrArg UserRegisters.rdi hkeeps.2
  rw [hrdi] at hsame
  exact absurd hsame (by decide)

end CustomKernel
