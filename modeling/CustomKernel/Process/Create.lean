/-
Module: CustomKernel.Process.Create
Layer: Process
Purpose: The constructors of `src/process/process.c`: `process_alloc`, `process_destroy`,
  `process_create` and `process_create_user`. A descriptor and its kernel stack are blocks of the
  kernel heap; the fields of the descriptor are kept as a record beside its address. A walk over
  the block list that needs more than `fuel` rounds counts as endless. The messages are left out.
Imports: CustomKernel.Memory.Heap, CustomKernel.Filesystem.Elf, CustomKernel.Filesystem.Ramdisk
Trusted boundary: the translation of the source; descriptors are beside the heap blocks they lie in
Main exports: Kernel, NewProcess, processAlloc, processDestroy, processCreate, processCreateUser
-/
import CustomKernel.Memory.Heap
import CustomKernel.Filesystem.Elf
import CustomKernel.Filesystem.Ramdisk

namespace CustomKernel

open Memory Filesystem Syscall Loops

/-- What the constructors work on. -/
structure Kernel where
  vmm : Vmm
  heap : KernelHeap
  disk : Ramdisk
  nextPid : BitVec 32

/-- The addresses of `process_trampoline_fn` and `process_user_trampoline_fn`. -/
structure Trampolines where
  process : Word
  user : Word

/-- A descriptor under construction, with the fields the scheduler does not read. -/
structure NewProcess where
  address : Word
  pid : BitVec 32
  proc : Process
  userStack : Word := 0
  useLinuxAbi : BitVec 8 := 0
  /-- `context.rsp`. -/
  rsp : Word := 0
deriving DecidableEq, Repr

/-- `sizeof(process_t)`. -/
def processSize : Word := 232#64

/-- `KERNEL_STACK_SIZE`. -/
def kernelStackSize : Word := 16384#64

/-- `USER_CODE_VIRT`. -/
def userCodeVirt : Word := 0x8000200000#64

/-- The outcome of a loop with fuel. -/
def orEndless {α : Type} : Option α → Except Halt α
  | none => .error .endless
  | some a => .ok a

/-- `sp--; *sp = word;` for each word. -/
def pushContext (heap : KernelHeap) (sp : Word) : List Word → KernelHeap × Word
  | [] => (heap, sp)
  | word :: words =>
      pushContext { heap with mem := ByteMemory.store 8 (sp - 8#64).toNat word.toNat heap.mem }
        (sp - 8#64) words

/-- `process_alloc`. The other two constructors begin with the same statements. -/
def processAlloc (fuel : Nat) (k : Kernel) : Except Halt (Kernel × Option NewProcess) := do
  let (heap, proc) ← orEndless (kcalloc fuel k.heap 1#64 processSize)
  if proc = 0#64 then
    return ({ k with heap := heap }, none)
  else
    let (heap, kstack) ← orEndless (kmalloc fuel heap kernelStackSize)
    if kstack = 0#64 then
      let heap ← orEndless (kfree fuel heap proc)
      return ({ k with heap := heap }, none)
    else
      return ({ k with heap := heap, nextPid := k.nextPid + 1 },
        some { address := proc, pid := k.nextPid,
               proc := { state := .ready, kernelStack := kstack + kernelStackSize } })

/-- `process_destroy`. -/
def processDestroy (fuel : Nat) (k : Kernel) (p : NewProcess) : Except Halt Kernel := do
  let heap ← orEndless (kfree fuel k.heap (p.proc.kernelStack - kernelStackSize))
  let heap ← orEndless (kfree fuel heap p.address)
  return { k with heap := heap }

/-- The initial stack of a process: the words that the trampoline pops. -/
def withStack (k : Kernel) (p : NewProcess) (words : List Word) : Kernel × NewProcess :=
  let (heap, sp) := pushContext k.heap p.proc.kernelStack words
  ({ k with heap := heap }, { p with rsp := sp })

/-- `process_create`. -/
def processCreate (fuel : Nat) (fns : Trampolines) (k : Kernel) (entry : Word) :
    Except Halt (Kernel × Option NewProcess) := do
  let (k, proc) ← processAlloc fuel k
  match proc with
  | none => return (k, none)
  | some p =>
      let (k, p) := withStack k p [entry, fns.process]
      return (k, some p)

/-- The loop of `process_create_user` that maps the pages of the entry function. -/
def mapUserCode (pageTable entryPhys : Word) (s : Vmm) : Except Halt Vmm :=
  forRangeE 0 8 (fun i s =>
    vmmMapIn s pageTable (userCodeVirt + BitVec.ofNat 64 (i * 0x1000))
      (entryPhys + BitVec.ofNat 64 (i * 0x1000)) (ptePresent ||| pteUser)) s

/-- `process_create_user`. -/
def processCreateUser (fuel : Nat) (fns : Trampolines) (k : Kernel) (entry : Word) :
    Except Halt (Kernel × Option NewProcess) := do
  let (k, proc) ← processAlloc fuel k
  match proc with
  | none => return (k, none)
  | some p =>
      let (vmm, pageTable) := vmmCreateAddressSpace k.vmm
      if pageTable = 0#64 then
        let k ← processDestroy fuel { k with vmm := vmm } p
        return (k, none)
      else
        let stack ← mapFreshPages pageTable userStackPage userPage userStackPages 0 vmm
        if stack.complete then
          let entryPhys := vmmGetPhys stack.vmm (entryAddr entry)
          let vmm ← mapUserCode pageTable entryPhys stack.vmm
          if entryPhys = 0#64 then
            throw .entryNotMapped
          else if vmmGetPhys (vmmSwitchAddressSpace vmm pageTable) userCodeVirt = 0#64 then
            throw .mappingNotInstalled
          else
            let entryVirt := userCodeVirt + (entry &&& 0xFFF#64)
            let (k, p) := withStack { k with vmm := vmm }
              { p with
                proc := { p.proc with pageTable := pageTable }
                userStack := userStackVirt }
              [userStackVirt, entryVirt, fns.user]
            return (k, some p)
        else
          return ({ k with vmm := stack.vmm }, none)

end CustomKernel
