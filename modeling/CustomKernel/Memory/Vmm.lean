/-
Module: CustomKernel.Memory.Vmm
Layer: Memory
Purpose: The virtual memory manager of `src/memory/vmm.c`. Physical memory is kept as frames of 512
  machine words, which is how both the kernel and the MMU read a page table; every table address the
  code computes is page aligned, so a word is named by its frame's address and its index. A path of
  the source that ends in a `hlt` loop is an error of the model, with the text it prints. The walk
  of the MMU itself is `mmuWalk`: what the hardware makes of the tables, independent of the code.
Imports: CustomKernel.Memory.Pmm, CustomKernel.Process.Process
Trusted boundary: the translation of the source; the walk of the MMU is read off the manual of the
  processor, and entries in the TLB do not outlive a change
Main exports: Vmm, Halt, vmmMap, vmmUnmap, vmmGetPhys, vmmInit, vmmCreateAddressSpace, vmmMapIn,
  mapFreshPages, heapInitMappings, BootImage, kernelBoot, mmuWalk, translate, readByte, Canonical,
  storeByte
-/
import CustomKernel.Memory.Pmm
import CustomKernel.Process.Process

namespace CustomKernel.Memory

open Loops

/-! ### Entries and indices -/

/-- `PTE_PRESENT`. -/
def ptePresent : Word := 1#64 <<< 0

/-- `PTE_WRITABLE`. -/
def pteWritable : Word := 1#64 <<< 1

/-- `PTE_USER`. -/
def pteUser : Word := 1#64 <<< 2

/-- `PTE_HUGE`. -/
def pteHuge : Word := 1#64 <<< 7

/-- `value & flag`, as a truth value. -/
def hasFlag (value flag : Word) : Bool := value &&& flag != 0#64

/-- `ENTRY_ADDR`: strip the flags of an entry. -/
def entryAddr (entry : Word) : Word := entry &&& ~~~0xFFF#64

/-- `((addr) >> shift) & 0x1FF`, the shape of the four index macros. -/
def tableIndex (shift : Nat) (addr : Word) : Nat := (addr >>> shift &&& 0x1FF#64).toNat

/-- `PML4_INDEX`. -/
def pml4Index (addr : Word) : Nat := tableIndex 39 addr

/-- `PDPT_INDEX`. -/
def pdptIndex (addr : Word) : Nat := tableIndex 30 addr

/-- `PD_INDEX`. -/
def pdIndex (addr : Word) : Nat := tableIndex 21 addr

/-- `PT_INDEX`. -/
def ptIndex (addr : Word) : Nat := tableIndex 12 addr

/-- `NUM_PAGE_LEVEL_ENTRIES`. -/
def numPageLevelEntries : Nat := pageSize / 8

/-! ### Physical memory and the machine state -/

/-- Physical memory: the word at an index of the frame at a physical address. -/
abbrev PhysMem : Type := Word → Nat → Word

/-- `table[i] = value`. -/
def PhysMem.store (mem : PhysMem) (table : Word) (i : Nat) (value : Word) : PhysMem :=
  Function.update mem table (Function.update (mem table) i value)

/-- What the virtual memory manager works on: the frame allocator, physical memory and CR3. -/
structure Vmm where
  pmm : Pmm
  mem : PhysMem
  cr3 : Word

/-- The places where a modelled kernel path stops for good: it prints a message and halts, or goes
    round for ever (the handler of a general protection fault returns to the faulting
    instruction). -/
inductive Halt where
  | tableAllocFailed
  | hugePage
  | invalidFrame
  | heapOutOfMemory
  | pageFault
  | entryNotMapped
  | mappingNotInstalled
  | endless
deriving DecidableEq, Repr

/-- What is printed before the `hlt` loop. -/
def Halt.message : Halt → String
  | .tableAllocFailed => "[VMM] pmm_alloc failed in get_or_create_table\n"
  | .hugePage => "[VMM] FATAL: Tried to traverse a huge page\n"
  | .invalidFrame => "Invalid frame\n"
  | .heapOutOfMemory => "KERNEL PANIC: Out of physical memory backing the heap!\n"
  | .pageFault => "PAGE FAULT at addr="
  | .entryNotMapped => "ERROR: vmm_get_phys returned 0 — kernel fn not mapped\n"
  | .mappingNotInstalled => "ERROR: mapping not installed in user PML4\n"
  | .endless => ""

/-! ### The operations of `vmm.c` -/

/-- The physical address `pmm_alloc` returned, as a pointer. -/
def framePointer (address : Nat) : Word := BitVec.ofNat 64 address

/-- `get_or_create_table` on the entry at index `i` of `table`. -/
def getOrCreateTable (s : Vmm) (table : Word) (i : Nat) (flags : Word) :
    Except Halt (Vmm × Word) :=
  let entry := s.mem table i
  if !hasFlag entry ptePresent then
    let (pmm, frame) := pmmAlloc s.pmm
    if frame = 0 then
      .error .tableAllocFailed
    else
      let fresh := framePointer frame
      let zeroed := forRange 0 numPageLevelEntries (fun j (mem : PhysMem) => mem.store fresh j 0#64)
        s.mem
      let entry := fresh ||| flags ||| ptePresent
      .ok ({ s with pmm := pmm, mem := zeroed.store table i entry }, entryAddr entry)
  else if hasFlag entry pteHuge then
    .error .hugePage
  else
    let entry := if hasFlag flags pteUser then entry ||| pteUser else entry
    let entry := if hasFlag flags pteWritable then entry ||| pteWritable else entry
    let entry := if hasFlag flags ptePresent then entry ||| ptePresent else entry
    .ok ({ s with mem := s.mem.store table i entry }, entryAddr entry)

/-- `vmm_map`, in the address space that CR3 points to. -/
def vmmMap (s : Vmm) (virt phys flags : Word) : Except Halt Vmm := do
  let pml4 := entryAddr s.cr3
  let (s, pdpt) ← getOrCreateTable s pml4 (pml4Index virt) (pteWritable ||| pteUser)
  let (s, pd) ← getOrCreateTable s pdpt (pdptIndex virt) (pteWritable ||| pteUser)
  let (s, pt) ← getOrCreateTable s pd (pdIndex virt) (pteWritable ||| pteUser)
  return { s with mem := s.mem.store pt (ptIndex virt) (phys ||| flags ||| ptePresent) }

/-- `vmm_unmap`. -/
def vmmUnmap (s : Vmm) (virt : Word) : Vmm :=
  let pml4e := s.mem (entryAddr s.cr3) (pml4Index virt)
  if !hasFlag pml4e ptePresent then s else
  let pdpte := s.mem (entryAddr pml4e) (pdptIndex virt)
  if !hasFlag pdpte ptePresent then s else
  let pde := s.mem (entryAddr pdpte) (pdIndex virt)
  if !hasFlag pde ptePresent then s else
  { s with mem := s.mem.store (entryAddr pde) (ptIndex virt) 0#64 }

/-- `vmm_get_phys`. -/
def vmmGetPhys (s : Vmm) (virt : Word) : Word :=
  let pml4e := s.mem (entryAddr s.cr3) (pml4Index virt)
  if !hasFlag pml4e ptePresent then 0#64 else
  let pdpte := s.mem (entryAddr pml4e) (pdptIndex virt)
  if !hasFlag pdpte ptePresent then 0#64 else
  if hasFlag pdpte pteHuge then entryAddr pdpte + (virt &&& 0x3FFFFFFF#64) else
  let pde := s.mem (entryAddr pdpte) (pdIndex virt)
  if !hasFlag pde ptePresent then 0#64 else
  if hasFlag pde pteHuge then entryAddr pde + (virt &&& 0x1FFFFF#64) else
  let pte := s.mem (entryAddr pde) (ptIndex virt)
  if !hasFlag pte ptePresent then 0#64 else
  entryAddr pte

/-- `vmm_init`: fill the page directory of the boot tables up to 512 identity-mapped huge pages. -/
def vmmInit (s : Vmm) : Vmm :=
  let pdpt := entryAddr (s.mem (entryAddr s.cr3) 0)
  let pd := entryAddr (s.mem pdpt 0)
  let extendMap (i : Nat) (mem : PhysMem) : PhysMem :=
    if !hasFlag (mem pd i) ptePresent then
      mem.store pd i (BitVec.ofNat 64 i <<< 21 ||| ptePresent ||| pteWritable ||| pteHuge)
    else mem
  { s with mem := forRange 0 512 extendMap s.mem }

/-- Body of the copy loop of `vmm_create_address_space`. -/
def copyPml4Entry (newPml4 curPml4 : Word) (i : Nat) (mem : PhysMem) : PhysMem :=
  let copied := mem.store newPml4 i (mem curPml4 i)
  if hasFlag (copied newPml4 i) ptePresent then
    copied.store newPml4 i (copied newPml4 i ||| pteUser)
  else copied

/-- `vmm_create_address_space`: the new PML4's physical address, or 0. -/
def vmmCreateAddressSpace (s : Vmm) : Vmm × Word :=
  let (pmm, frame) := pmmAlloc s.pmm
  if frame = 0 then
    ({ s with pmm := pmm }, 0#64)
  else
    let newPml4 := framePointer frame
    let mem := forRange 0 numPageLevelEntries (copyPml4Entry newPml4 (entryAddr s.cr3)) s.mem
    ({ s with pmm := pmm, mem := mem }, newPml4)

/-- `vmm_switch_address_space`. -/
def vmmSwitchAddressSpace (s : Vmm) (pml4Phys : Word) : Vmm := { s with cr3 := pml4Phys }

/-- `vmm_map_in`: switch, map, switch back. -/
def vmmMapIn (s : Vmm) (pml4Phys virt phys flags : Word) : Except Halt Vmm := do
  let curCr3 := s.cr3
  let s ← vmmMap (vmmSwitchAddressSpace s pml4Phys) virt phys flags
  return vmmSwitchAddressSpace s curCr3

/-! ### Fresh pages -/

/-- What a loop that backs pages with fresh frames leaves behind: the machine, the frames it took
    from the allocator for the pages, and whether it got through. -/
structure FreshPages where
  vmm : Vmm
  frames : List Word
  complete : Bool

/-- The loop `frame = pmm_alloc(); if (!frame) ...; vmm_map_in(pml4, virt(i), frame, flags);` that
    `sys_sbrk`, `brk` and the process constructors share, over `count` pages from index `i` on. What
    happens when the frames run out is up to the caller. -/
def mapFreshPages (pml4 : Word) (virt : Nat → Word) (flags : Word) :
    (count i : Nat) → Vmm → Except Halt FreshPages
  | 0, _, s => .ok { vmm := s, frames := [], complete := true }
  | count + 1, i, s =>
      let (pmm, frame) := pmmAlloc s.pmm
      if frame = 0 then
        .ok { vmm := { s with pmm := pmm }, frames := [], complete := false }
      else do
        let s ← vmmMapIn { s with pmm := pmm } pml4 (virt i) (framePointer frame) flags
        let rest ← mapFreshPages pml4 virt flags count (i + 1) s
        return { rest with frames := framePointer frame :: rest.frames }

/-! ### Boot -/

/-- The kernel image with the three page tables `boot.asm` reserves, one after the other and page
    aligned, in its `.bss`. -/
structure BootImage extends KernelImage where
  pml4Frame : Nat
  tables_ge : toKernelImage.kernelStart ≤ pml4Frame * pageSize
  tables_le : (pml4Frame + 3) * pageSize ≤ toKernelImage.kernelEnd

/-- The physical address of a frame. -/
def frameAddr (frame : Nat) : Word := framePointer (frame * pageSize)

/-- `pml4_table`. -/
def BootImage.pml4Table (image : BootImage) : Word := frameAddr image.pml4Frame

/-- `pdpt_table`. -/
def BootImage.pdptTable (image : BootImage) : Word := frameAddr (image.pml4Frame + 1)

/-- `pd_table`. -/
def BootImage.pdTable (image : BootImage) : Word := frameAddr (image.pml4Frame + 2)

/-- Physical memory when `boot.asm` enables paging: the three tables were zeroed with the rest of
    `.bss`, PML4[0] and PDPT[0] are linked and eight huge pages map the first 16MB. The other frames
    hold what they held (`ram`). -/
def bootMem (image : BootImage) (ram : PhysMem) : PhysMem := fun table i =>
  if table = image.pml4Table then
    if i = 0 then image.pdptTable ||| 0b11#64 else 0#64
  else if table = image.pdptTable then
    if i = 0 then image.pdTable ||| 0b11#64 else 0#64
  else if table = image.pdTable then
    if i < 8 then BitVec.ofNat 64 (i * 0x200000) ||| 0b10000011#64 else 0#64
  else ram table i

/-- `HEAP_START`. -/
def heapStart : Word := 0xC0000000#64

/-- `HEAP_PAGES`. -/
def heapPages : Nat := 1024

/-- The loop of `heap_init`: a fresh frame behind each page of the kernel heap. -/
def heapInitMappings (s : Vmm) : Except Halt Vmm :=
  forRangeE 0 heapPages (fun i s => do
    let (pmm, frame) := pmmAlloc s.pmm
    if frame = 0 then
      throw .invalidFrame
    else
      vmmMap { s with pmm := pmm } (heapStart + BitVec.ofNat 64 (i * pageSize)) (framePointer frame)
        0x03#64) s

/-- The memory part of `kernel_main`: `pmm_init`, `vmm_init` and the mappings of `heap_init`. -/
def kernelBoot (image : BootImage) (ram : PhysMem) : Except Halt Vmm :=
  heapInitMappings (vmmInit
    { pmm := pmmInit image.toKernelImage, mem := bootMem image ram, cr3 := image.pml4Table })

/-! ### The MMU -/

/-- What a successful page walk yields: the physical address accessed, the entry that maps the page,
    and the rights, which every level has to grant. -/
structure Translation where
  phys : Word
  leaf : Word
  writable : Bool
  user : Bool
deriving DecidableEq, Repr

/-- The physical address in an entry: bits 12 to 51. -/
def pteAddr (entry : Word) : Word := entry &&& 0x000FFFFFFFFFF000#64

/-- The low bits of an address that a page of the given size leaves untranslated. -/
def offsetMask (shift : Nat) : Word := 1#64 <<< shift - 1#64

/-- A right granted by a table entry and by everything below it. -/
def Translation.through (entry : Word) (below : Translation) : Translation :=
  { below with
    writable := hasFlag entry pteWritable && below.writable
    user := hasFlag entry pteUser && below.user }

/-- The translation by a leaf entry that maps a page of `2 ^ shift` bytes. -/
def leafTranslation (virt entry : Word) (shift : Nat) : Translation where
  phys := (pteAddr entry &&& ~~~offsetMask shift) ||| (virt &&& offsetMask shift)
  leaf := entry
  writable := hasFlag entry pteWritable
  user := hasFlag entry pteUser

/-- The walk of the MMU from a table of level `level + 1` (PML4 tables are level 4, page tables
    level 1). A huge entry is a leaf at levels 2 and 3 and a reserved bit, hence a fault, at level
    4. -/
def mmuWalk (mem : PhysMem) (virt : Word) : (level : Nat) → (table : Word) → Option Translation
  | 0, _ => none
  | level + 1, table =>
      let shift := 12 + 9 * level
      let entry := mem table (tableIndex shift virt)
      if !hasFlag entry ptePresent then none
      else if level = 0 then some (leafTranslation virt entry shift)
      else if hasFlag entry pteHuge then
        if level = 3 then none else some (leafTranslation virt entry shift)
      else (mmuWalk mem virt level (pteAddr entry)).map (Translation.through entry)

/-- The translation of a virtual address in the address space of a PML4. -/
def translate (mem : PhysMem) (pml4 virt : Word) : Option Translation :=
  mmuWalk mem virt 4 (pteAddr pml4)

/-- A byte store to physical memory. -/
def PhysMem.storeByte (mem : PhysMem) (phys : Word) (byte : BitVec 8) : PhysMem :=
  let index := (phys &&& 0xFFF#64).toNat / 8
  let shift := 8 * (phys.toNat % 8)
  mem.store (entryAddr phys) index
    ((mem (entryAddr phys) index &&& ~~~(0xFF#64 <<< shift)) ||| byte.setWidth 64 <<< shift)

/-- A byte load from physical memory. -/
def PhysMem.loadByte (mem : PhysMem) (phys : Word) : BitVec 8 :=
  let index := (phys &&& 0xFFF#64).toNat / 8
  let shift := 8 * (phys.toNat % 8)
  (mem (entryAddr phys) index >>> shift).setWidth 8

/-- What a load from a virtual address yields in an address space. -/
def readByte (mem : PhysMem) (pml4 virt : Word) : Option (BitVec 8) :=
  (translate mem pml4 virt).map fun translation => mem.loadByte translation.phys

/-- The addresses the processor accepts: bits 47 to 63 are equal. -/
def Canonical (virt : Word) : Prop := virt.toNat < 2 ^ 47 ∨ 2 ^ 64 - 2 ^ 47 ≤ virt.toNat

instance (virt : Word) : Decidable (Canonical virt) := inferInstanceAs (Decidable (_ ∨ _))

/-- `*(uint8_t *)virt = byte` in kernel mode, through the loaded address space. -/
def storeByte (s : Vmm) (virt : Word) (byte : BitVec 8) : Except Halt Vmm :=
  if ¬ Canonical virt then .error .endless
  else
    match translate s.mem s.cr3 virt with
    | none => .error .pageFault
    | some translation => .ok { s with mem := s.mem.storeByte translation.phys byte }

/-- `for (i = 0; i < n; i++) buf[i] = bytes[i]`. -/
def storeBytes (virt : Word) : (bytes : List (BitVec 8)) → Vmm → Except Halt Vmm
  | [], s => .ok s
  | byte :: bytes, s => storeByte s virt byte >>= storeBytes (virt + 1#64) bytes

end CustomKernel.Memory
