/-
Module: CustomKernel.User.Malloc
Layer: User
Purpose: The user-space allocator of `src/user/malloc.c` on the byte memory of its process: blocks
  with headers of 32 bytes in a doubly linked list, first fit with splitting, growth through
  `u_sbrk`, and two-sided coalescing in `free`. The allocator is generic in what stands behind
  `u_sbrk`; the loops take fuel and give `none` when it runs out.
Imports: CustomKernel.Library.ByteMemory, CustomKernel.Library.Loops, CustomKernel.Process.Process
Trusted boundary: the translation of the source
Main exports: Sbrk, UserHeap, malloc, free, realloc, calloc
-/
import CustomKernel.Library.ByteMemory
import CustomKernel.Library.Loops
import CustomKernel.Process.Process

namespace CustomKernel.User

open ByteMemory Loops

/-! ### Headers -/

/-- `USED_MAGIC`. -/
def usedMagic : BitVec 32 := 0xA110CA7E#32

/-- `FREE_MAGIC`. -/
def freeMagic : BitVec 32 := 0xFEEEFEEE#32

/-- `sizeof(blk_t)`: `size` at 0, `magic` at 8, `free` at 12, `next` at 16, `prev` at 24. -/
def blkSizeof : Word := 32#64

/-- `b->size`. -/
def blkSize (mem : ByteMem) (b : Word) : Word := BitVec.ofNat 64 (load mem 8 b.toNat)

/-- `b->magic`. -/
def blkMagic (mem : ByteMem) (b : Word) : BitVec 32 := BitVec.ofNat 32 (load mem 4 (b.toNat + 8))

/-- `b->free`. -/
def blkFree (mem : ByteMem) (b : Word) : BitVec 32 := BitVec.ofNat 32 (load mem 4 (b.toNat + 12))

/-- `b->next`. -/
def blkNext (mem : ByteMem) (b : Word) : Word := BitVec.ofNat 64 (load mem 8 (b.toNat + 16))

/-- `b->prev`. -/
def blkPrev (mem : ByteMem) (b : Word) : Word := BitVec.ofNat 64 (load mem 8 (b.toNat + 24))

def setSize (b value : Word) (mem : ByteMem) : ByteMem := store 8 b.toNat value.toNat mem

def setMagic (b : Word) (value : BitVec 32) (mem : ByteMem) : ByteMem :=
  store 4 (b.toNat + 8) value.toNat mem

def setFree (b : Word) (value : BitVec 32) (mem : ByteMem) : ByteMem :=
  store 4 (b.toNat + 12) value.toNat mem

def setNext (b value : Word) (mem : ByteMem) : ByteMem := store 8 (b.toNat + 16) value.toNat mem

def setPrev (b value : Word) (mem : ByteMem) : ByteMem := store 8 (b.toNat + 24) value.toNat mem

/-- `if (b) b->prev = value`. -/
def setPrevIf (b value : Word) (mem : ByteMem) : ByteMem :=
  if b = 0#64 then mem else setPrev b value mem

/-- `ALIGN8`. -/
def align8 (n : Word) : Word := (n + 7#64) &&& ~~~7#64

/-! ### Growth -/

/-- `u_sbrk`: from the state of the kernel and the memory of the process to theirs afterwards and
    the value returned. -/
abbrev Sbrk (κ : Type) := κ → ByteMem → Word → Option (κ × ByteMem × Word)

/-- A process with its heap: the kernel's state, the process's memory, and `heap_list`. -/
structure UserHeap (κ : Type) where
  kernel : κ
  mem : ByteMem
  heapList : Word

variable {κ : Type}

/-- `blk_extend`. -/
def blkExtend (sbrk : Sbrk κ) (h : UserHeap κ) (bytes : Word) : Option (UserHeap κ × Word) := do
  let (kernel, mem, b) ← sbrk h.kernel h.mem (blkSizeof + bytes)
  if b = -1#64 then
    return ({ h with kernel := kernel, mem := mem }, 0#64)
  else
    let mem := setSize b bytes mem
    let mem := setMagic b freeMagic mem
    let mem := setFree b 1#32 mem
    let mem := setPrev b 0#64 mem
    return ({ h with kernel := kernel, mem := setNext b 0#64 mem }, b)

/-! ### malloc -/

/-- The header of the rest when `b` is cut after `size` bytes. -/
def writeTail (b size : Word) (mem : ByteMem) : ByteMem :=
  let tail := b + blkSizeof + size
  let mem := setSize tail (blkSize mem b - size - blkSizeof) mem
  let mem := setMagic tail freeMagic mem
  let mem := setFree tail 1#32 mem
  let mem := setNext tail (blkNext mem b) mem
  setPrev tail b mem

/-- The block `b` is cut after `size` bytes. -/
def splitBlk (b size : Word) (mem : ByteMem) : ByteMem :=
  let tail := b + blkSizeof + size
  let mem := writeTail b size mem
  let mem := setPrevIf (blkNext mem b) tail mem
  let mem := setNext b tail mem
  setSize b size mem

/-- Body of the search loop for a block that fits. -/
def takeBlk (b size : Word) (mem : ByteMem) : ByteMem :=
  let mem := if size + blkSizeof + 8#64 ≤ blkSize mem b then splitBlk b size mem else mem
  let mem := setFree b 0#32 mem
  setMagic b usedMagic mem

/-- How the search loop of `malloc` ends: with the memory and the pointer to return, or at the end
    of the list, with `prev` at its last block. -/
inductive Search where
  | found (mem : ByteMem) (ptr : Word)
  | exhausted (prev : Word)

/-- The search loop of `malloc`. -/
def mallocLoop (size : Word) (mem : ByteMem) : (fuel : Nat) → (b prev : Word) → Option Search
  | 0, _, _ => none
  | fuel + 1, b, prev =>
      if b = 0#64 then
        some (.exhausted prev)
      else if blkFree mem b ≠ 0#32 ∧ size ≤ blkSize mem b then
        some (.found (takeBlk b size mem) (b + blkSizeof))
      else
        mallocLoop size mem fuel (blkNext mem b) b

/-- The rest of `malloc` when no block fits: a new block behind the last one, `prev`. -/
def mallocExtend (sbrk : Sbrk κ) (h : UserHeap κ) (size prev : Word) :
    Option (UserHeap κ × Word) := do
  let (h, nb) ← blkExtend sbrk h size
  if nb = 0#64 then
    return (h, 0#64)
  else
    let mem := setFree nb 0#32 h.mem
    let mem := setMagic nb usedMagic mem
    if h.heapList = 0#64 then
      return ({ h with mem := mem, heapList := nb }, nb + blkSizeof)
    else
      let mem := setPrev nb prev mem
      return ({ h with mem := setNext prev nb mem }, nb + blkSizeof)

/-- `malloc`. -/
def malloc (sbrk : Sbrk κ) (fuel : Nat) (h : UserHeap κ) (size : Word) :
    Option (UserHeap κ × Word) :=
  if size = 0#64 then
    some (h, 0#64)
  else do
    match ← mallocLoop (align8 size) h.mem fuel h.heapList 0#64 with
    | .found mem ptr => return ({ h with mem := mem }, ptr)
    | .exhausted prev => mallocExtend sbrk h (align8 size) prev

/-! ### free -/

/-- "coalesce right". -/
def coalesceRight (b : Word) (mem : ByteMem) : ByteMem :=
  if blkNext mem b ≠ 0#64 ∧ blkFree mem (blkNext mem b) ≠ 0#32 then
    let mem := setSize b (blkSize mem b + (blkSizeof + blkSize mem (blkNext mem b))) mem
    let mem := setNext b (blkNext mem (blkNext mem b)) mem
    setPrevIf (blkNext mem b) b mem
  else mem

/-- "coalesce left". -/
def coalesceLeft (b : Word) (mem : ByteMem) : ByteMem :=
  if blkPrev mem b ≠ 0#64 ∧ blkFree mem (blkPrev mem b) ≠ 0#32 then
    let mem := setSize (blkPrev mem b)
      (blkSize mem (blkPrev mem b) + (blkSizeof + blkSize mem b)) mem
    let mem := setNext (blkPrev mem b) (blkNext mem b) mem
    setPrevIf (blkNext mem b) (blkPrev mem b) mem
  else mem

/-- `free`. -/
def free (h : UserHeap κ) (ptr : Word) : UserHeap κ :=
  if ptr = 0#64 then h
  else
    let b := ptr - blkSizeof
    if blkMagic h.mem b ≠ usedMagic then h
    else
      let mem := setFree b 1#32 h.mem
      let mem := setMagic b freeMagic mem
      { h with mem := coalesceLeft b (coalesceRight b mem) }

/-! ### realloc and calloc -/

/-- The copying loop of `realloc`, which reads `b->size` in every round. -/
def copyLoop (b src dst : Word) : (fuel i : Nat) → ByteMem → Option ByteMem
  | 0, _, _ => none
  | fuel + 1, i, mem =>
      if i < (blkSize mem b).toNat then
        copyLoop b src dst fuel (i + 1)
          (store 1 (dst.toNat + i) (mem (src.toNat + i)).toNat mem)
      else
        some mem

/-- `realloc`. -/
def realloc (sbrk : Sbrk κ) (fuel : Nat) (h : UserHeap κ) (ptr newSize : Word) :
    Option (UserHeap κ × Word) :=
  if ptr = 0#64 then
    malloc sbrk fuel h newSize
  else if newSize = 0#64 then
    some (free h ptr, 0#64)
  else
    let b := ptr - blkSizeof
    if align8 newSize ≤ blkSize h.mem b then
      some (h, ptr)
    else do
      let (h, fresh) ← malloc sbrk fuel h newSize
      if fresh = 0#64 then
        return (h, 0#64)
      else
        let mem ← copyLoop b ptr fresh fuel 0 h.mem
        return (free { h with mem := mem } ptr, fresh)

/-- `calloc`. -/
def calloc (sbrk : Sbrk κ) (fuel : Nat) (h : UserHeap κ) (nmemb size : Word) :
    Option (UserHeap κ × Word) := do
  let total := nmemb * size
  let (h, p) ← malloc sbrk fuel h total
  if p = 0#64 then
    return (h, p)
  else
    let mem := forRange 0 total.toNat (fun i mem => store 1 (p.toNat + i) 0 mem) h.mem
    return ({ h with mem := mem }, p)

end CustomKernel.User
