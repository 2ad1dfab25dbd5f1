/-
Module: CustomKernel.Cpu.Gdt
Layer: Cpu
Purpose: The global descriptor table, the task state segment and the registers for `syscall`:
  `src/cpu/gdt.c` and `src/cpu/gdt_flush.asm`. Table and segment are bytes in memory; what a
  descriptor means to the processor is read from its bytes by `segmentAt` and `tssAt`. The far return
  of `gdt_flush` is left to its effect on `cs`.
Imports: CustomKernel.Library.ByteMemory, CustomKernel.Process.Process
Trusted boundary: the translation of the source; `segmentAt` and `tssAt` are read off the manual of
  the processor, without the accessed and busy bits it sets itself
Main exports: Segment, segmentAt, tssAt, gdtSetEntry, SystemRegisters, wrmsr, syscallInit, gdtInit,
  tssSetKernelStack, syscallCs, sysretCs, hardwareRsp0
-/
import CustomKernel.Library.ByteMemory
import CustomKernel.Process.Process

namespace CustomKernel

open ByteMemory

/-! ### Descriptors -/

/-- `gdt_set_entry`, where `gdt` is the address of the table. The offsets are those of the packed
    `gdt_entry_t`, which has 8 bytes. -/
def gdtSetEntry (gdt : Nat) (i : Nat) (base limit : BitVec 32) (access gran : BitVec 8)
    (mem : ByteMem) : ByteMem :=
  let entry := gdt + 8 * i
  -- `base_low`, `base_mid`, `base_high`
  let mem := store 2 (entry + 2) (base &&& 0xFFFF).toNat mem
  let mem := store 1 (entry + 4) (base >>> 16 &&& 0xFF).toNat mem
  let mem := store 1 (entry + 7) (base >>> 24 &&& 0xFF).toNat mem
  -- `limit_low`, `granularity`, `access`
  let mem := store 2 entry (limit &&& 0xFFFF).toNat mem
  let mem := store 1 (entry + 6)
    ((limit >>> 16 &&& 0x0F).setWidth 8 ||| gran &&& 0xF0).toNat mem
  store 1 (entry + 5) access.toNat mem

/-- A descriptor as the processor reads it. -/
structure Segment where
  base : Nat
  limit : Nat
  access : Nat
  /-- Granularity, default size, long mode, and a free bit. -/
  flags : Nat
deriving DecidableEq, Repr

/-- The descriptor of an index. -/
def segmentAt (mem : ByteMem) (gdt index : Nat) : Segment :=
  let entry := gdt + 8 * index
  let gran := load mem 1 (entry + 6)
  { base := load mem 2 (entry + 2) + 2 ^ 16 * load mem 1 (entry + 4) + 2 ^ 24 * load mem 1 (entry + 7)
    limit := load mem 2 entry + 2 ^ 16 * (gran % 16)
    access := load mem 1 (entry + 5)
    flags := gran / 16 }

/-- The descriptor of a task state segment takes two entries and has a base of 64 bits. -/
def tssAt (mem : ByteMem) (gdt index : Nat) : Segment :=
  let low := segmentAt mem gdt index
  { low with base := low.base + 2 ^ 32 * load mem 4 (gdt + 8 * index + 8) }

/-- The table index of a selector. -/
def selectorIndex (selector : BitVec 16) : Nat := selector.toNat / 8

/-! ### Registers -/

/-- The registers that `gdt_init` and `syscall_init` load. -/
structure SystemRegisters where
  gdtLimit : BitVec 16
  gdtBase : Nat
  cs : BitVec 16
  /-- `ds`, `es`, `fs`, `gs` and `ss`. -/
  data : BitVec 16
  tr : BitVec 16
  /-- Model-specific registers. -/
  msr : BitVec 32 → Word

/-- `MSR_EFER`, `MSR_STAR`, `MSR_LSTAR` and `MSR_SFMASK`. -/
def msrEfer : BitVec 32 := 0xC0000080

def msrStar : BitVec 32 := 0xC0000081

def msrLstar : BitVec 32 := 0xC0000082

def msrSfmask : BitVec 32 := 0xC0000084

/-- The instruction `wrmsr`, with `edx:eax`. -/
def writeMsr (r : SystemRegisters) (msr low high : BitVec 32) : SystemRegisters :=
  { r with msr := Function.update r.msr msr (high.setWidth 64 <<< 32 ||| low.setWidth 64) }

/-- `wrmsr`. -/
def wrmsr (r : SystemRegisters) (msr : BitVec 32) (val : Word) : SystemRegisters :=
  let low := (val &&& 0xFFFFFFFF).setWidth 32
  let high := (val >>> 32).setWidth 32
  writeMsr r msr low high

/-- `syscall_init`. -/
def syscallInit (syscallEntry : Word) (r : SystemRegisters) : SystemRegisters :=
  let r := wrmsr r msrLstar syscallEntry
  let r := wrmsr r msrStar (0x10 <<< 48 ||| 0x08 <<< 32)
  let r := wrmsr r msrSfmask 0x200
  -- `rdmsr` into `edx:eax`, then `EFER_SCE`
  let low := (r.msr msrEfer).setWidth 32
  let high := (r.msr msrEfer >>> 32).setWidth 32
  writeMsr r msrEfer (low ||| 1) high

/-- `gdt_flush`. -/
def gdtFlush (gdt : Nat) (limit : BitVec 16) (r : SystemRegisters) : SystemRegisters :=
  { r with gdtLimit := limit, gdtBase := gdt, data := 0x10, cs := 0x08 }

/-- The part of `gdt_init` that clears `tss`. A `tss_t` has 104 bytes, and no bitmap of ports behind
    them. -/
def clearTss (tss : Nat) (mem : ByteMem) : ByteMem :=
  let mem := Loops.forRange 0 104 (fun i mem => store 1 (tss + i) 0 mem) mem
  store 2 (tss + 102) 104 mem

/-- The part of `gdt_init` that fills in `*td`, a `tss_descriptor_t` at `td`. -/
def setTssDescriptor (td : Nat) (tssBase : Word) (mem : ByteMem) : ByteMem :=
  let tssLimit : BitVec 16 := BitVec.ofNat 16 (104 - 1)
  let mem := store 2 td (tssLimit &&& 0xFFFF).toNat mem
  let mem := store 2 (td + 2) (tssBase &&& 0xFFFF).toNat mem
  let mem := store 1 (td + 4) (tssBase >>> 16 &&& 0xFF).toNat mem
  let mem := store 1 (td + 5) 0x89 mem
  let mem := store 1 (td + 6) (tssLimit >>> 16 &&& 0x0F).toNat mem
  let mem := store 1 (td + 7) (tssBase >>> 24 &&& 0xFF).toNat mem
  let mem := store 4 (td + 8) (tssBase >>> 32).toNat mem
  store 4 (td + 12) 0 mem

/-- `gdt_init`, where `gdt` and `tss` are the addresses of the two tables. -/
def gdtInit (gdt : Nat) (tss syscallEntry : Word) (mem : ByteMem) (r : SystemRegisters) :
    ByteMem × SystemRegisters :=
  let limit := BitVec.ofNat 16 (8 * 7 - 1)
  let mem := gdtSetEntry gdt 0 0 0 0x00 0x00 mem
  let mem := gdtSetEntry gdt 1 0 0xFFFFFFFF 0x9A 0xA0 mem
  let mem := gdtSetEntry gdt 2 0 0xFFFFFFFF 0x92 0xC0 mem
  let mem := gdtSetEntry gdt 3 0 0xFFFFFFFF 0xF2 0xC0 mem
  let mem := gdtSetEntry gdt 4 0 0xFFFFFFFF 0xFA 0xA0 mem
  let mem := clearTss tss.toNat mem
  -- `td` points to entries 5 and 6
  let mem := setTssDescriptor (gdt + 8 * 5) tss mem
  -- `ltr`
  let r := { gdtFlush gdt limit r with tr := 0x28 }
  (mem, syscallInit syscallEntry r)

/-- `tss_set_kernel_stack`. -/
def tssSetKernelStack (tss : Nat) (rsp0 : Word) (mem : ByteMem) : ByteMem :=
  store 8 (tss + 4) rsp0.toNat mem

/-- The selectors of code and stack that `syscall` and `sysretq` load. -/
def syscallCs (r : SystemRegisters) : BitVec 16 := (r.msr msrStar >>> 32).setWidth 16

def syscallSs (r : SystemRegisters) : BitVec 16 := syscallCs r + 8

def sysretCs (r : SystemRegisters) : BitVec 16 := (r.msr msrStar >>> 48).setWidth 16 + 16 ||| 3

def sysretSs (r : SystemRegisters) : BitVec 16 := (r.msr msrStar >>> 48).setWidth 16 + 8 ||| 3

/-- The stack pointer the processor loads when it enters ring 0: it finds the task state segment
    through the task register and the table. -/
def hardwareRsp0 (mem : ByteMem) (r : SystemRegisters) : Word :=
  BitVec.ofNat 64 (load mem 8 ((tssAt mem r.gdtBase (selectorIndex r.tr)).base + 4))

end CustomKernel
