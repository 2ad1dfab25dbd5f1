/-
Module: CustomKernel.Process.Cpu
Layer: Process
Purpose: The hand-written assembly the kernel switches stacks with: `context_switch` of
  `src/process/context.asm`, the trampolines of `src/process/process_asm.asm` and `syscall_entry` of
  `src/syscall/syscall_entry.asm`, instruction by instruction. Memory is the kernel's, which every
  address space maps alike: descriptors, kernel stacks and the system call stack. `rip` is followed
  only where a return address decides it, the arithmetic flags are not.
Imports: CustomKernel.Process.Process, CustomKernel.Library.ByteMemory
Trusted boundary: the translation of the assembly, instruction by instruction
Main exports: Cpu, Machine, push, pop, call, ret, contextSwitch, syscallEntry, syscallReturn,
  sysretq, processTrampolineFn, processTrampolineEnter, processUserTrampolineFn,
  processUserTrampolineEnter
-/
import CustomKernel.Process.Process
import CustomKernel.Library.ByteMemory

namespace CustomKernel

open ByteMemory

/-- The registers of the processor. -/
structure Cpu where
  rax : Word := 0
  rbx : Word := 0
  rcx : Word := 0
  rdx : Word := 0
  rsi : Word := 0
  rdi : Word := 0
  rbp : Word := 0
  rsp : Word := 0
  r8 : Word := 0
  r9 : Word := 0
  r10 : Word := 0
  r11 : Word := 0
  r12 : Word := 0
  r13 : Word := 0
  r14 : Word := 0
  r15 : Word := 0
  rip : Word := 0
  rflags : Word := 0
  cr3 : Word := 0
deriving DecidableEq, Repr, Inhabited

/-- The processor, kernel memory, and the two variables `syscall_entry` uses. -/
structure Machine where
  cpu : Cpu
  mem : ByteMem
  /-- `kernel_stack_top`, set once, to the end of `syscall_stack`. -/
  kernelStackTop : Word
  /-- `user_rsp_tmp`. -/
  userRspTmp : Word

/-- The word at an address. -/
def loadWord (mem : ByteMem) (addr : Word) : Word := BitVec.ofNat 64 (load mem 8 addr.toNat)

/-- Store a word at an address. -/
def storeWord (mem : ByteMem) (addr value : Word) : ByteMem := store 8 addr.toNat value.toNat mem

namespace Machine

/-- `push`. -/
def push (m : Machine) (value : Word) : Machine :=
  { m with
    cpu := { m.cpu with rsp := m.cpu.rsp - 8 }
    mem := storeWord m.mem (m.cpu.rsp - 8) value }

/-- `pop`: the word on top of the stack, and the machine without it. -/
def pop (m : Machine) : Word × Machine :=
  (loadWord m.mem m.cpu.rsp, { m with cpu := { m.cpu with rsp := m.cpu.rsp + 8 } })

/-- `call`, where `next` is the address of the instruction behind it. -/
def call (m : Machine) (next : Word) : Machine := m.push next

/-- `ret`. -/
def ret (m : Machine) : Machine :=
  let (target, m) := m.pop
  { m with cpu := { m.cpu with rip := target } }

/-! ### Switching between processes -/

/-- `PROCESS_CONTEXT_RSP`. -/
def processContextRsp : Word := 8

/-- `PROCESS_PAGE_TABLE`. -/
def processPageTable : Word := 176

/-- `context_switch`, from the instruction behind its label to the `ret`. -/
def contextSwitch (m : Machine) : Machine :=
  let m := { m with mem := storeWord m.mem (m.cpu.rdi + processContextRsp) m.cpu.rsp }
  let m := { m with cpu := { m.cpu with rax := loadWord m.mem (m.cpu.rsi + processPageTable) } }
  -- `jz .no_cr3_swap`: a kernel process runs in whatever address space is loaded
  let m := { m with
    cpu := { m.cpu with cr3 := if m.cpu.rax = 0 then m.cpu.cr3 else m.cpu.rax } }
  let m := { m with cpu := { m.cpu with rsp := loadWord m.mem (m.cpu.rsi + processContextRsp) } }
  m.ret

/-! ### System calls -/

/-- The `syscall` instruction: `next` is the address behind it, `IA32_FMASK` is `0x200`. -/
def syscall (m : Machine) (next : Word) : Machine :=
  { m with
    cpu := { m.cpu with
      rcx := next
      r11 := m.cpu.rflags
      rflags := m.cpu.rflags &&& ~~~0x200 } }

/-- A row of `push` instructions whose operands the pushes do not change. -/
def pushAll (m : Machine) : List Word → Machine
  | [] => m
  | value :: values => (m.push value).pushAll values

/-- The word the `pop` number `i` of a row of them takes. -/
def popped (m : Machine) (i : Nat) : Word := loadWord m.mem (m.cpu.rsp + BitVec.ofNat 64 (8 * i))

/-- `syscall_entry` up to and including the `call syscall_dispatch`, whose return address is
    `next`. -/
def syscallEntry (m : Machine) (next : Word) : Machine :=
  let m := { m with userRspTmp := m.cpu.rsp, cpu := { m.cpu with rsp := m.kernelStackTop } }
  let m := m.pushAll
    [m.cpu.rcx, m.cpu.r11, m.cpu.rbp, m.cpu.rbx, m.cpu.r12, m.cpu.r13, m.cpu.r14, m.cpu.r15,
      m.userRspTmp]
  let m := m.pushAll [m.cpu.rdi, m.cpu.rsi, m.cpu.rdx]
  -- the four moves into the argument registers, then three times `pop rax`
  let m := { m with
    cpu := { m.cpu with
      rcx := m.cpu.rdx
      rdx := m.cpu.rsi
      rsi := m.cpu.rdi
      rdi := m.cpu.rax
      rax := m.popped 2
      rsp := m.cpu.rsp + 24 } }
  m.call next

/-- `syscall_entry` behind the call, up to the `sysretq`: nine words are popped, the first into
    `user_rsp_tmp`, and the stack is the user's again. -/
def syscallReturn (m : Machine) : Machine :=
  { m with
    userRspTmp := m.popped 0
    cpu := { m.cpu with
      r15 := m.popped 1
      r14 := m.popped 2
      r13 := m.popped 3
      r12 := m.popped 4
      rbx := m.popped 5
      rbp := m.popped 6
      r11 := m.popped 7
      rcx := m.popped 8
      rsp := m.popped 0 } }

/-- `sysretq`: `0x3C7FD7` are the flags it can set, bit 1 is always set. -/
def sysretq (m : Machine) : Machine :=
  { m with
    cpu := { m.cpu with rip := m.cpu.rcx, rflags := m.cpu.r11 &&& 0x3C7FD7 ||| 2 } }

/-! ### New processes -/

/-- `process_trampoline_fn` up to and including the `call pic_send_eoi`, whose return address is
    `next`. -/
def processTrampolineFn (m : Machine) (next : Word) : Machine :=
  let (entry, m) := m.pop
  let m := { m with cpu := { m.cpu with rdi := entry } }
  let m := m.push m.cpu.rdi
  let m := { m with cpu := { m.cpu with rdi := 0 } }
  m.call next

/-- `process_trampoline_fn` behind the call, up to and including the `call rax`, with `next` behind
    it. -/
def processTrampolineEnter (m : Machine) (next : Word) : Machine :=
  let (entry, m) := m.pop
  let m := { m with cpu := { m.cpu with rax := entry } }
  -- `sti`
  let m := { m with cpu := { m.cpu with rflags := m.cpu.rflags ||| 0x200 } }
  let m := m.call next
  { m with cpu := { m.cpu with rip := m.cpu.rax } }

/-- `process_user_trampoline_fn` up to and including the `call pic_send_eoi`. -/
def processUserTrampolineFn (m : Machine) (next : Word) : Machine :=
  let m := { m with cpu := { m.cpu with rdi := 0 } }
  m.call next

/-- The two `pop` instructions behind the call. -/
def popEntry (m : Machine) : Machine :=
  let (rip, m) := m.pop
  { m with cpu := { m.cpu with rcx := rip } }

def popUserStack (m : Machine) : Machine :=
  let (rsp, m) := m.pop
  { m with cpu := { m.cpu with rdx := rsp } }

/-- What is pushed for the `iretq`. -/
def iretWords (m : Machine) : List Word := [0x1B, m.cpu.rdx, 0x202, 0x23, m.cpu.rcx]

/-- `process_user_trampoline_fn` behind the call, up to the `iretq`. -/
def processUserTrampolineEnter (m : Machine) : Machine :=
  let m := m.popEntry
  let m := m.popUserStack
  let m := m.pushAll m.iretWords
  { m with
    cpu := { m.cpu with
      rax := 0
      rbx := 0
      rcx := 0
      rdx := 0
      rsi := 0
      rdi := 0
      r8 := 0
      r9 := 0
      r10 := 0
      r11 := 0
      r12 := 0
      r13 := 0
      r14 := 0
      r15 := 0
      rbp := 0 } }

/-- What an `iretq` loads. -/
structure IretFrame where
  rip : Word
  cs : Word
  rflags : Word
  rsp : Word
  ss : Word
deriving DecidableEq, Repr

/-- The frame on top of the stack. -/
def iretFrame (m : Machine) : IretFrame where
  rip := m.popped 0
  cs := m.popped 1
  rflags := m.popped 2
  rsp := m.popped 3
  ss := m.popped 4

end Machine

/-! ### Words in memory -/

/-- Two words that do not overlap. -/
def WordsApart (a b : Word) : Prop := a.toNat + 8 ≤ b.toNat ∨ b.toNat + 8 ≤ a.toNat

instance (a b : Word) : Decidable (WordsApart a b) := inferInstanceAs (Decidable (_ ∨ _))

theorem loadWord_storeWord_self (mem : ByteMem) (addr value : Word) :
    loadWord (storeWord mem addr value) addr = value := by
  rw [loadWord, storeWord, load_store_word value rfl, BitVec.ofNat_toNat, BitVec.setWidth_eq]

theorem loadWord_storeWord_apart {mem : ByteMem} {addr other : Word} (h : WordsApart other addr)
    (value : Word) : loadWord (storeWord mem addr value) other = loadWord mem other := by
  rw [loadWord, storeWord, load_store_apart h, loadWord]

/-- A word is the same in two memories that agree on its bytes. -/
theorem loadWord_congr {mem mem' : ByteMem} {addr : Word}
    (h : ∀ a, addr.toNat ≤ a → a < addr.toNat + 8 → mem' a = mem a) :
    loadWord mem' addr = loadWord mem addr := by
  rw [loadWord, load_congr h, loadWord]

end CustomKernel
