/-
Module: CustomKernel.Filesystem.Loader
Layer: Filesystem
Purpose: `process_create_elf` of `src/filesystem/elf.c` as a whole: the file is opened and read
  through the ramdisk, its header is checked, every program header is read in turn, and the process
  gets its descriptor, its address space and its first stack frame. The headers are read into
  variables on the stack, and where a file is too short they keep what was there (`Stale`).
Imports: CustomKernel.Process.Create
Trusted boundary: the translation of the source; the archive and the heap are beside the memory the
  loader stores to
Main exports: Stale, Ehdr, Phdr.ofBytes, elfLoop, processCreateElf
-/
import CustomKernel.Process.Create

namespace CustomKernel.Filesystem

open CustomKernel.Memory CustomKernel.Syscall

/-! ### Headers -/

/-- What the header variables hold before they are read. -/
structure Stale where
  ehdr : Nat → Byte
  /-- `phdr` in each round of the loop. -/
  phdr : Nat → Nat → Byte

/-- A buffer after a read into it. -/
def overwrite (buf : Nat → Byte) (bytes : List Byte) : Nat → Byte := fun i => bytes.getD i (buf i)

/-- A little-endian number of `n` bytes. -/
def littleEndian (buf : Nat → Byte) : (off n : Nat) → Nat
  | _, 0 => 0
  | off, n + 1 => (buf off).toNat + 256 * littleEndian buf (off + 1) n

/-- The fields of `Elf64_Ehdr` the loader reads. -/
structure Ehdr where
  eIdent : Nat → Byte
  eMachine : BitVec 16
  eEntry : Word
  ePhoff : Word
  ePhnum : BitVec 16

/-- `sizeof(Elf64_Ehdr)`. -/
def ehdrSize : Word := 64#64

def Ehdr.ofBytes (buf : Nat → Byte) : Ehdr where
  eIdent := buf
  eMachine := BitVec.ofNat 16 (littleEndian buf 18 2)
  eEntry := BitVec.ofNat 64 (littleEndian buf 24 8)
  ePhoff := BitVec.ofNat 64 (littleEndian buf 32 8)
  ePhnum := BitVec.ofNat 16 (littleEndian buf 56 2)

/-- The check of the header: the magic number, `ELFCLASS64` and `EM_X86_64`. -/
def Ehdr.Supported (ehdr : Ehdr) : Prop :=
  ehdr.eIdent 0 = 0x7F ∧ ehdr.eIdent 1 = 0x45 ∧ ehdr.eIdent 2 = 0x4C ∧ ehdr.eIdent 3 = 0x46 ∧
    ehdr.eIdent 4 = 2 ∧ ehdr.eMachine = 0x3E

instance (ehdr : Ehdr) : Decidable ehdr.Supported := inferInstanceAs (Decidable (_ ∧ _))

/-- `sizeof(Elf64_Phdr)`. -/
def phdrSize : Nat := 56

def Phdr.ofBytes (buf : Nat → Byte) : Phdr where
  pType := BitVec.ofNat 32 (littleEndian buf 0 4)
  pOffset := BitVec.ofNat 64 (littleEndian buf 8 8)
  pVaddr := BitVec.ofNat 64 (littleEndian buf 16 8)
  pFilesz := BitVec.ofNat 64 (littleEndian buf 32 8)
  pMemsz := BitVec.ofNat 64 (littleEndian buf 40 8)

/-- `SEEK_SET`. -/
def seekSet : Int := 0

/-- `ramdisk_seek(fd, off, SEEK_SET); ramdisk_read(fd, buf, len);`. -/
def seekRead (disk : Ramdisk) (fd : Int) (off len : Word) : Except Halt ReadResult :=
  orEndless (ramdiskRead (ramdiskSeek disk fd off seekSet).2 fd len)

/-! ### The program headers -/

/-- The state of the program-header loop, and `false` where the source returns `NULL`. -/
structure ElfLoop where
  vmm : Vmm
  disk : Ramdisk
  lastVend : Word
  ok : Bool

/-- The loop over the program headers from number `i` on. -/
def elfLoop (stale : Stale) (ehdr : Ehdr) (fd : Int) (pageTable savedCr3 : Word) :
    (count i : Nat) → ElfLoop → Except Halt ElfLoop
  | 0, _, st => .ok st
  | count + 1, i, st => do
      let read ← seekRead st.disk fd (ehdr.ePhoff + BitVec.ofNat 64 (i * phdrSize))
        (BitVec.ofNat 64 phdrSize)
      let phdr := Phdr.ofBytes (overwrite (stale.phdr i) read.bytes)
      if phdr.loadable then
        let lastVend := if st.lastVend < phdr.vend then phdr.vend else st.lastVend
        let pages ← mapFreshPages pageTable (sbrkPage phdr.vstart) userPage
          (brkPages phdr.vstart phdr.vend) 0 st.vmm
        if pages.complete then
          let s := vmmSwitchAddressSpace pages.vmm pageTable
          let s ← storeBytes phdr.pVaddr (List.replicate phdr.pMemsz.toNat 0#8) s
          let contents ← seekRead read.disk fd phdr.pOffset phdr.pFilesz
          let s ← storeBytes phdr.pVaddr contents.bytes s
          elfLoop stale ehdr fd pageTable savedCr3 count (i + 1)
            { vmm := vmmSwitchAddressSpace s savedCr3
              disk := contents.disk
              lastVend := lastVend
              ok := true }
        else
          return { vmm := pages.vmm, disk := read.disk, lastVend := lastVend, ok := false }
      else
        elfLoop stale ehdr fd pageTable savedCr3 count (i + 1) { st with disk := read.disk }

/-! ### The constructor -/

/-- `process_create_elf`, behind `process_alloc`. -/
def loadElf (fuel : Nat) (stale : Stale) (fns : Trampolines) (ehdr : Ehdr) (fd : Int)
    (useLinuxAbi : BitVec 32) (k : Kernel) (p : NewProcess) :
    Except Halt (Kernel × Option NewProcess) := do
  let (vmm, pageTable) := vmmCreateAddressSpace k.vmm
  if pageTable = 0#64 then
    let k ← processDestroy fuel { k with vmm := vmm } p
    return ({ k with disk := ramdiskClose k.disk fd }, none)
  else
    let stack ← mapFreshPages pageTable userStackPage userPage userStackPages 0 vmm
    if stack.complete then
      let st ← elfLoop stale ehdr fd pageTable stack.vmm.cr3 ehdr.ePhnum.toNat 0
        { vmm := stack.vmm, disk := k.disk, lastVend := 0#64, ok := true }
      let k := { k with vmm := st.vmm, disk := ramdiskClose st.disk fd }
      if st.ok then
        let heapStart := if st.lastVend ≠ 0#64 then st.lastVend else userHeapBase
        let (k, p) := withStack k
          { p with
            proc := { p.proc with pageTable := pageTable, heapStart := heapStart, heapEnd := heapStart }
            userStack := userStackVirt - 8#64
            useLinuxAbi := useLinuxAbi.setWidth 8 }
          [userStackVirt - 8#64, ehdr.eEntry, fns.user]
        return (k, some p)
      else
        return (k, none)
    else
      return ({ k with vmm := stack.vmm, disk := ramdiskClose k.disk fd }, none)

/-- `process_create_elf`. -/
def processCreateElf (fuel : Nat) (stale : Stale) (fns : Trampolines) (k : Kernel)
    (path : List Byte) (useLinuxAbi : BitVec 32) : Except Halt (Kernel × Option NewProcess) := do
  let (fd, disk) := ramdiskOpen k.disk path
  if fd < 0 then
    return ({ k with disk := disk }, none)
  else
    let read ← orEndless (ramdiskRead disk fd ehdrSize)
    let ehdr := Ehdr.ofBytes (overwrite stale.ehdr read.bytes)
    let k := { k with disk := read.disk }
    if ehdr.Supported then
      let (k, proc) ← processAlloc fuel k
      match proc with
      | none => return ({ k with disk := ramdiskClose k.disk fd }, none)
      | some p => loadElf fuel stale fns ehdr fd useLinuxAbi k p
    else
      return ({ k with disk := ramdiskClose k.disk fd }, none)

end CustomKernel.Filesystem
