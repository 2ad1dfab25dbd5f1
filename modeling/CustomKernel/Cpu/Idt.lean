/-
Module: CustomKernel.Cpu.Idt
Layer: Cpu
Purpose: The interrupt descriptor table and the C side of interrupts, `src/cpu/idt.c`: the gates as
  bytes in memory, the table of handlers and the two dispatchers. What a gate means to the processor
  is read from its bytes by `gateAt`.
Imports: CustomKernel.Library.ByteMemory, CustomKernel.Library.Loops,
  CustomKernel.Library.LocalArray, CustomKernel.Process.Process
Trusted boundary: the translation of the source; `gateAt` is read off the manual of the processor
Main exports: Gate, gateAt, idtSetEntry, Handler, IsrHandlers, idtRegisterHandler, idtInit,
  Registers, isrHandler
-/
import CustomKernel.Library.ByteMemory
import CustomKernel.Library.Loops
import CustomKernel.Library.LocalArray
import CustomKernel.Process.Process

namespace CustomKernel

open ByteMemory

/-! ### Gates -/

/-- `idt_set_entry`, where `idt` is the address of the table. The offsets are those of the packed
    `idt_entry_t`, which has 16 bytes. -/
def idtSetEntry (idt : Nat) (n : BitVec 8) (handler : Word) (typeAttr : BitVec 8)
    (mem : ByteMem) : ByteMem :=
  let entry := idt + 16 * n.toNat
  -- `offset_low`, `offset_mid`, `offset_high`
  let mem := store 2 entry (handler &&& 0xFFFF).toNat mem
  let mem := store 2 (entry + 6) (handler >>> 16 &&& 0xFFFF).toNat mem
  let mem := store 4 (entry + 8) (handler >>> 32 &&& 0xFFFFFFFF).toNat mem
  -- `segment_selector`, `ist`, `type_attr`, `zero`
  let mem := store 2 (entry + 2) 0x08 mem
  let mem := store 1 (entry + 4) 0 mem
  let mem := store 1 (entry + 5) typeAttr.toNat mem
  store 4 (entry + 12) 0 mem

/-- A gate of the 64-bit table as the processor reads it. -/
structure Gate where
  offset : Nat
  selector : Nat
  ist : Nat
  /-- `0xE` is the interrupt gate, which clears the interrupt flag. -/
  type : Nat
  dpl : Nat
  present : Bool
deriving DecidableEq, Repr

/-- The gate of a vector. -/
def gateAt (mem : ByteMem) (idt vector : Nat) : Gate :=
  let entry := idt + 16 * vector
  let attr := load mem 1 (entry + 5)
  { offset := load mem 2 entry + 2 ^ 16 * load mem 2 (entry + 6) + 2 ^ 32 * load mem 4 (entry + 8)
    selector := load mem 2 (entry + 2)
    ist := load mem 1 (entry + 4) % 8
    type := attr % 16
    dpl := attr / 32 % 4
    present := attr / 128 % 2 = 1 }

/-! ### Handlers -/

/-- The functions that are registered as handlers. -/
inductive Handler where
  | timerHandler
  | keyboardHandler
  | pageFaultHandler
  | udHandler
deriving DecidableEq, Repr

/-- `isr_handlers`: no entry is `NULL`. -/
abbrev IsrHandlers := LocalArray (Option Handler) 256

/-- `isr_handlers` before anything is registered. -/
def noHandlers : IsrHandlers := ⟨fun _ => none⟩

/-- `idt_register_handler`. -/
def idtRegisterHandler (handlers : IsrHandlers) (n : BitVec 8) (handler : Option Handler) :
    IsrHandlers :=
  ⟨fun i => if i = n.toNat then handler else handlers.cells i⟩

/-- `registers_t`. -/
structure Registers where
  r15 : Word
  r14 : Word
  r13 : Word
  r12 : Word
  r11 : Word
  r10 : Word
  r9 : Word
  r8 : Word
  rbp : Word
  rdi : Word
  rsi : Word
  rdx : Word
  rcx : Word
  rbx : Word
  rax : Word
  intNo : Word
  errCode : Word
  rip : Word
  cs : Word
  rflags : Word
  rsp : Word
  ss : Word
deriving DecidableEq, Repr

/-- The fields in the order they are laid out in. -/
def Registers.words (r : Registers) : List Word :=
  [r.r15, r.r14, r.r13, r.r12, r.r11, r.r10, r.r9, r.r8, r.rbp, r.rdi, r.rsi, r.rdx, r.rcx, r.rbx,
    r.rax, r.intNo, r.errCode, r.rip, r.cs, r.rflags, r.rsp, r.ss]

/-- `isr_handlers[regs->int_no]`, which both dispatchers call if it is not `NULL`. There is no result
    for an index outside the table. `isr_common_handler` prints a line before. -/
def isrHandler (handlers : IsrHandlers) (regs : Registers) : Option (Option Handler) :=
  handlers.load regs.intNo.toNat

/-! ### Initialisation -/

/-- What `lidt` loads. -/
structure Idtr where
  limit : BitVec 16
  base : Nat
deriving DecidableEq, Repr

/-- `idt_init`: the table in memory, `idt_ptr`, and the handlers. -/
def idtInit (idt : Nat) (isrStubTable : Nat → Word) (mem : ByteMem) (handlers : IsrHandlers) :
    ByteMem × Idtr × IsrHandlers :=
  let idtr := { limit := BitVec.ofNat 16 (256 * 16 - 1), base := idt }
  let mem := Loops.forRange 0 48
    (fun i => idtSetEntry idt (BitVec.ofNat 8 i) (isrStubTable i) 0x8E) mem
  let handlers := idtRegisterHandler handlers 14 (some .pageFaultHandler)
  (mem, idtr, idtRegisterHandler handlers 6 (some .udHandler))

end CustomKernel
