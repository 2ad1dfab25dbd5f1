/-
Module: CustomKernel.Filesystem.Elf
Layer: Filesystem
Purpose: The part of `process_create_elf` in `src/filesystem/elf.c` that builds the address space:
  a new PML4, the user stack, and for every loadable segment fresh pages that are zeroed and filled
  from the file. Opening the file, checking its header and the process's kernel stack are not part
  of it; the program headers and what `ramdisk_read` delivers for them are given.
Imports: CustomKernel.Syscall.HeapCalls
Trusted boundary: the translation of the source
Main exports: Phdr, ElfFile, loadSegment, createElfAddressSpace
-/
import CustomKernel.Syscall.HeapCalls

namespace CustomKernel.Filesystem

open CustomKernel.Memory CustomKernel.Syscall

/-- The fields of `Elf64_Phdr` the loader reads. -/
structure Phdr where
  pType : BitVec 32
  pOffset : Word
  pVaddr : Word
  pFilesz : Word
  pMemsz : Word
deriving DecidableEq, Repr

/-- `PT_LOAD`. -/
def ptLoad : BitVec 32 := 1#32

/-- The program headers of a file, with the bytes `ramdisk_read` delivers for each segment: never
    more than it is asked for. -/
structure ElfFile where
  phdrs : List Phdr
  contents : Phdr → List (BitVec 8)
  contents_le : ∀ phdr ∈ phdrs, (contents phdr).length ≤ phdr.pFilesz.toNat

/-- Headers the loader skips. -/
def Phdr.loadable (phdr : Phdr) : Bool := phdr.pType == ptLoad && phdr.pMemsz != 0#64

/-- `vstart`. -/
def Phdr.vstart (phdr : Phdr) : Word := phdr.pVaddr &&& ~~~0xFFF#64

/-- `vend`. -/
def Phdr.vend (phdr : Phdr) : Word := pageAlignUp (phdr.pVaddr + phdr.pMemsz)

/-- The machine, the frames taken for pages of the process, and `false` where the source returns
    `NULL`. -/
structure Loading where
  vmm : Vmm
  frames : List Word
  ok : Bool

/-- Body of the program-header loop, for a loadable segment. -/
def loadSegment (pml4 : Word) (phdr : Phdr) (contents : List (BitVec 8)) (s : Vmm) :
    Except Halt Loading := do
  let savedCr3 := s.cr3
  let pages ← mapFreshPages pml4 (sbrkPage phdr.vstart) userPage
    (brkPages phdr.vstart phdr.vend) 0 s
  if pages.complete then
    let s ← storeBytes phdr.pVaddr (List.replicate phdr.pMemsz.toNat 0#8)
      (vmmSwitchAddressSpace pages.vmm pml4)
    let s ← storeBytes phdr.pVaddr contents s
    return { vmm := vmmSwitchAddressSpace s savedCr3, frames := pages.frames, ok := true }
  else
    return { vmm := pages.vmm, frames := pages.frames, ok := false }

/-- The program-header loop. -/
def loadSegments (pml4 : Word) (contents : Phdr → List (BitVec 8)) :
    (phdrs : List Phdr) → Vmm → Except Halt Loading
  | [], s => .ok { vmm := s, frames := [], ok := true }
  | phdr :: phdrs, s =>
      if phdr.loadable then do
        let load ← loadSegment pml4 phdr (contents phdr) s
        if load.ok then
          let rest ← loadSegments pml4 contents phdrs load.vmm
          return { rest with frames := load.frames ++ rest.frames }
        else
          return load
      else
        loadSegments pml4 contents phdrs s

/-- `last_vend` after the program-header loop. -/
def lastVend (phdrs : List Phdr) : Word :=
  phdrs.foldl (fun last phdr => if phdr.loadable ∧ last < phdr.vend then phdr.vend else last) 0#64

/-- `USER_STACK_VIRT`. -/
def userStackVirt : Word := 0x8000040000#64

/-- `USER_STACK_PAGES`. -/
def userStackPages : Nat := 32

/-- `USER_HEAP_BASE`. -/
def userHeapBase : Word := 0x8004000000#64

/-- Address of page `i` of the user stack. -/
def userStackPage (i : Nat) : Word :=
  userStackVirt - BitVec.ofNat 64 ((userStackPages - i) * pageSize)

/-- What the constructor returns: the machine, the new process unless the source returns `NULL`, and
    the frames taken for its pages. -/
structure ElfReturn where
  vmm : Vmm
  proc : Option Process
  frames : List Word

/-- `process_create_elf`, from `vmm_create_address_space` on. -/
def createElfAddressSpace (s : Vmm) (elf : ElfFile) : Except Halt ElfReturn := do
  let (s, pageTable) := vmmCreateAddressSpace s
  if pageTable = 0#64 then
    return { vmm := s, proc := none, frames := [] }
  else
    let stack ← mapFreshPages pageTable userStackPage userPage userStackPages 0 s
    if stack.complete then
      let load ← loadSegments pageTable elf.contents elf.phdrs stack.vmm
      if load.ok then
        let heapStart := if lastVend elf.phdrs = 0#64 then userHeapBase else lastVend elf.phdrs
        return { vmm := load.vmm
                 proc := some { pageTable := pageTable, heapStart := heapStart, heapEnd := heapStart }
                 frames := stack.frames ++ load.frames }
      else
        return { vmm := load.vmm, proc := none, frames := stack.frames ++ load.frames }
    else
      return { vmm := stack.vmm, proc := none, frames := stack.frames }

end CustomKernel.Filesystem
