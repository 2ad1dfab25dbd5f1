/-
Module: CustomKernel.Cpu.Isr
Layer: Cpu
Purpose: The way into an interrupt handler and back: what the processor pushes when it takes an
  interrupt, the stubs of `src/cpu/isr.asm` push by push, and the `iretq` at their end.
Imports: CustomKernel.Cpu.Idt, CustomKernel.Process.Cpu
Trusted boundary: the translation of the assembly, instruction by instruction
Main exports: Context, Machine.interrupt, isrErr, Machine.isrStub, Machine.isrCommonStub,
  Machine.isrCommonReturn, Machine.iretq, Machine.registers
-/
import CustomKernel.Cpu.Idt
import CustomKernel.Process.Cpu

namespace CustomKernel

/-- What an interrupt interrupts: the registers, and the selectors of code and stack segment. -/
structure Context where
  cpu : Cpu
  cs : Word
  ss : Word
deriving DecidableEq, Repr

/-- The code runs in ring 3. -/
def Context.User (c : Context) : Prop := c.cs &&& 3 = 3

instance (c : Context) : Decidable c.User := inferInstanceAs (Decidable (_ = _))

/-- The flags an interrupt gate clears: IF, TF, NT, RF and VM. -/
def gateFlags : Word := 0x34300

/-- The vectors whose stub is an `ISR_ERR`, which relies on an error code from the processor. -/
def isrErr (n : Nat) : Bool := n ∈ [8, 10, 11, 12, 13, 14, 17, 30]

namespace Machine

/-- The processor takes an interrupt through an interrupt gate that leads to `target`: it goes to the
    stack of ring 0 if it comes from ring 3, aligns the stack pointer, and pushes the interrupted
    context and, for some exceptions, an error code. -/
def interrupt (m : Machine) (c : Context) (rsp0 : Word) (err : Option Word) (target : Word) :
    Machine :=
  let stack := (if c.User then rsp0 else c.cpu.rsp) &&& ~~~15
  let m := { m with cpu := { c.cpu with rsp := stack } }
  let m := m.pushAll ([c.ss, c.cpu.rsp, c.cpu.rflags, c.cs, c.cpu.rip] ++ err.toList)
  { m with cpu := { m.cpu with rip := target, rflags := c.cpu.rflags &&& ~~~gateFlags } }

/-- `isr_n` of `ISR_NOERR` and `ISR_ERR`, and `irq_n`, which is an `ISR_NOERR`. -/
def isrStub (m : Machine) (n : Nat) : Machine :=
  if isrErr n then m.push (BitVec.ofNat 64 n)
  else (m.push 0).push (BitVec.ofNat 64 n)

/-- `isr_common_stub` and `irq_common_stub` up to and including the `call` of the dispatcher, whose
    return address is `next`. -/
def isrCommonStub (m : Machine) (next : Word) : Machine :=
  let m := m.pushAll
    [m.cpu.rax, m.cpu.rbx, m.cpu.rcx, m.cpu.rdx, m.cpu.rsi, m.cpu.rdi, m.cpu.rbp, m.cpu.r8,
      m.cpu.r9, m.cpu.r10, m.cpu.r11, m.cpu.r12, m.cpu.r13, m.cpu.r14, m.cpu.r15]
  let m := { m with cpu := { m.cpu with rdi := m.cpu.rsp } }
  m.call next

/-- The stubs behind the call, up to the `iretq`: fifteen registers are popped, and the number and the
    error code dropped. -/
def isrCommonReturn (m : Machine) : Machine :=
  { m with
    cpu := { m.cpu with
      r15 := m.popped 0
      r14 := m.popped 1
      r13 := m.popped 2
      r12 := m.popped 3
      r11 := m.popped 4
      r10 := m.popped 5
      r9 := m.popped 6
      r8 := m.popped 7
      rbp := m.popped 8
      rdi := m.popped 9
      rsi := m.popped 10
      rdx := m.popped 11
      rcx := m.popped 12
      rbx := m.popped 13
      rax := m.popped 14
      rsp := m.cpu.rsp + 120 + 16 } }

/-- `iretq`. -/
def iretq (m : Machine) : Context :=
  let frame := m.iretFrame
  { cpu := { m.cpu with rip := frame.rip, rflags := frame.rflags, rsp := frame.rsp }
    cs := frame.cs
    ss := frame.ss }

/-- `*regs`, for a pointer to a `registers_t`. -/
def registers (m : Machine) (regs : Word) : Registers :=
  let field (i : Nat) := loadWord m.mem (regs + BitVec.ofNat 64 (8 * i))
  { r15 := field 0
    r14 := field 1
    r13 := field 2
    r12 := field 3
    r11 := field 4
    r10 := field 5
    r9 := field 6
    r8 := field 7
    rbp := field 8
    rdi := field 9
    rsi := field 10
    rdx := field 11
    rcx := field 12
    rbx := field 13
    rax := field 14
    intNo := field 15
    errCode := field 16
    rip := field 17
    cs := field 18
    rflags := field 19
    rsp := field 20
    ss := field 21 }

end Machine

end CustomKernel
