/-
Module: CustomKernel.Syscall.HeapCalls
Layer: Syscall
Purpose: The system calls of `src/syscall/syscall.c` that change the address space of the process
  making them: `sbrk`, the Linux calls `mmap` and `brk`, and the mapping of the VGA window. All
  address arithmetic is that of the source's 64-bit words, wrap-around included. The serial messages
  are left out.
Imports: CustomKernel.Memory.Vmm, CustomKernel.Process.Process
Trusted boundary: the translation of the source
Main exports: HeapReturn, sysSbrk, linuxMmap, linuxBrk, sysMapFb
-/
import CustomKernel.Memory.Vmm
import CustomKernel.Process.Process

namespace CustomKernel.Syscall

open CustomKernel.Memory Loops

/-- What a call that changes the heap returns to: the machine, the calling process, the value in
    `rax`, and the frames taken from the allocator for pages of the process. -/
structure HeapReturn where
  vmm : Vmm
  proc : Process
  result : Word
  frames : List Word

/-- `-1`, as the caller sees it. -/
def failed : Word := -1#64

/-- `PTE_PRESENT | PTE_WRITABLE | PTE_USER`. -/
def userPage : Word := ptePresent ||| pteWritable ||| pteUser

/-- The number of heap pages below a break: `(end - base + PAGE_SIZE - 1) / PAGE_SIZE`, or 0. -/
def sbrkPages (base brk : Word) : Nat :=
  if base < brk then ((brk - base + 4096#64 - 1#64) / 4096#64).toNat else 0

/-- Address of heap page `i`. -/
def sbrkPage (base : Word) (i : Nat) : Word := base + BitVec.ofNat 64 (i * pageSize)

/-- `sys_sbrk`. -/
def sysSbrk (s : Vmm) (proc : Process) (increment : Word) : Except Halt HeapReturn :=
  if proc.heapStart = 0#64 then
    .ok { vmm := s, proc := proc, result := failed, frames := [] }
  else if increment = 0#64 then
    .ok { vmm := s, proc := proc, result := proc.heapEnd, frames := [] }
  else do
    let base := proc.heapStart
    let oldEnd := proc.heapEnd
    let newEnd := oldEnd + increment
    let oldPages := sbrkPages base oldEnd
    let newPages := sbrkPages base newEnd
    let pages ← mapFreshPages proc.pageTable (sbrkPage base) userPage (newPages - oldPages) oldPages
      s
    if pages.complete then
      return { vmm := pages.vmm, proc := { proc with heapEnd := newEnd }, result := oldEnd,
               frames := pages.frames }
    else
      return { vmm := pages.vmm, proc := proc, result := failed, frames := pages.frames }

/-- `(addr + 0xFFF) & ~0xFFFULL`. -/
def pageAlignUp (addr : Word) : Word := (addr + 0xFFF#64) &&& ~~~0xFFF#64

/-- The process after `mmap` has rounded its break up. -/
def mmapAlign (proc : Process) : Process :=
  if proc.heapEnd = 0#64 then proc else { proc with heapEnd := pageAlignUp proc.heapEnd }

/-- Linux call 9, `mmap`: round the break and the length up and extend the heap. -/
def linuxMmap (s : Vmm) (proc : Process) (len : Word) : Except Halt HeapReturn :=
  if len.toInt ≤ 0 then
    .ok { vmm := s, proc := proc, result := failed, frames := [] }
  else
    sysSbrk s (mmapAlign proc) (pageAlignUp len)

/-- The number of iterations of `for (vaddr = start_page; vaddr < end_page; vaddr += 4096)`. -/
def brkPages (startPage endPage : Word) : Nat := (endPage.toNat - startPage.toNat) / pageSize

/-- Linux call 12, `brk`. -/
def linuxBrk (s : Vmm) (proc : Process) (target : Word) : Except Halt HeapReturn :=
  if target = 0#64 ∨ target < proc.heapStart then
    .ok { vmm := s, proc := proc, result := proc.heapEnd, frames := [] }
  else if proc.heapEnd < target then do
    let startPage := pageAlignUp proc.heapEnd
    let endPage := pageAlignUp target
    let pages ← mapFreshPages proc.pageTable (sbrkPage startPage) userPage
      (brkPages startPage endPage) 0 s
    if pages.complete then
      return { vmm := pages.vmm, proc := { proc with heapEnd := target }, result := target,
               frames := pages.frames }
    else
      throw .heapOutOfMemory
  else
    .ok { vmm := s, proc := { proc with heapEnd := target }, result := target, frames := [] }

/-- `USER_FB_VIRT`. -/
def userFbVirt : Word := 0x9000000000#64

/-- `sys_map_fb`: map the 16 pages of the VGA window. -/
def sysMapFb (s : Vmm) (proc : Process) : Except Halt HeapReturn :=
  if proc.pageTable = 0#64 then
    .ok { vmm := s, proc := proc, result := failed, frames := [] }
  else do
    let s ← forRangeE 0 16 (fun i s =>
      vmmMapIn s proc.pageTable (userFbVirt + BitVec.ofNat 64 (i * 0x1000))
        (0xA0000#64 + BitVec.ofNat 64 (i * 0x1000)) userPage) s
    return { vmm := s, proc := proc, result := userFbVirt, frames := [] }

end CustomKernel.Syscall
