/-
Module: CustomKernel.Memory.Heap
Layer: Memory
Purpose: The kernel heap of `src/memory/heap.c` on byte memory: headers of 24 bytes in front of every
  block, first fit with splitting, and the coalescing pass of `kfree`. The loops over the block list
  follow pointers, so they take fuel and give `none` when it runs out. The pages behind the heap are
  mapped by `heapInitMappings`.
Imports: CustomKernel.Library.ByteMemory, CustomKernel.Library.Loops, CustomKernel.Memory.Vmm
Trusted boundary: the translation of the source; no store of others goes to the headers
Main exports: KernelHeap, heapInit, kmalloc, kcalloc, kfree
-/
import CustomKernel.Library.ByteMemory
import CustomKernel.Library.Loops
import CustomKernel.Memory.Vmm

namespace CustomKernel.Memory

open ByteMemory Loops

/-- `sizeof(block_header_t)`: `size` at 0, `free` at 8, `next` at 16. -/
def blockHeaderSize : Word := 24#64

/-- `curr->size`. -/
def blockSize (mem : ByteMem) (curr : Word) : Word := BitVec.ofNat 64 (load mem 8 curr.toNat)

/-- `curr->free`. -/
def blockFree (mem : ByteMem) (curr : Word) : BitVec 32 :=
  BitVec.ofNat 32 (load mem 4 (curr.toNat + 8))

/-- `curr->next`. -/
def blockNext (mem : ByteMem) (curr : Word) : Word :=
  BitVec.ofNat 64 (load mem 8 (curr.toNat + 16))

def setBlockSize (curr value : Word) (mem : ByteMem) : ByteMem :=
  store 8 curr.toNat value.toNat mem

def setBlockFree (curr : Word) (value : BitVec 32) (mem : ByteMem) : ByteMem :=
  store 4 (curr.toNat + 8) value.toNat mem

def setBlockNext (curr value : Word) (mem : ByteMem) : ByteMem :=
  store 8 (curr.toNat + 16) value.toNat mem

/-- The kernel's memory and `heap_head`. -/
structure KernelHeap where
  mem : ByteMem
  heapHead : Word

/-- `heap_init`, after the pages are mapped: one free block. -/
def heapInit (mem : ByteMem) : KernelHeap :=
  let mem := setBlockSize heapStart (BitVec.ofNat 64 (heapPages * pageSize) - blockHeaderSize) mem
  let mem := setBlockFree heapStart 1#32 mem
  { mem := setBlockNext heapStart 0#64 mem, heapHead := heapStart }

/-- `(size + 7) & ~7ULL`. -/
def align8 (size : Word) : Word := (size + 7#64) &&& ~~~7#64

/-- The block `curr` is cut after `size` bytes. -/
def kmallocSplit (curr size : Word) (mem : ByteMem) : ByteMem :=
  let split := curr + blockHeaderSize + size
  let mem := setBlockSize split (blockSize mem curr - size - blockHeaderSize) mem
  let mem := setBlockFree split 1#32 mem
  let mem := setBlockNext split (blockNext mem curr) mem
  let mem := setBlockNext curr split mem
  setBlockSize curr size mem

/-- Body of the search loop for a block that fits. -/
def kmallocTake (curr size : Word) (mem : ByteMem) : ByteMem :=
  let mem := if size + blockHeaderSize + 8#64 < blockSize mem curr then kmallocSplit curr size mem
    else mem
  setBlockFree curr 0#32 mem

/-- The search loop of `kmalloc`: the memory and the pointer to return. -/
def kmallocLoop (size : Word) : (fuel : Nat) → (curr : Word) → ByteMem → Option (ByteMem × Word)
  | 0, _, _ => none
  | fuel + 1, curr, mem =>
      if curr = 0#64 then
        some (mem, 0#64)
      else if blockFree mem curr ≠ 0#32 ∧ size ≤ blockSize mem curr then
        some (kmallocTake curr size mem, curr + blockHeaderSize)
      else
        kmallocLoop size fuel (blockNext mem curr) mem

/-- `kmalloc`. -/
def kmalloc (fuel : Nat) (h : KernelHeap) (size : Word) : Option (KernelHeap × Word) :=
  if size = 0#64 then
    some (h, 0#64)
  else do
    let (mem, ptr) ← kmallocLoop (align8 size) fuel h.heapHead h.mem
    return ({ h with mem := mem }, ptr)

/-- `kcalloc`. -/
def kcalloc (fuel : Nat) (h : KernelHeap) (n size : Word) : Option (KernelHeap × Word) := do
  let (h, ptr) ← kmalloc fuel h (n * size)
  if ptr = 0#64 then
    return (h, ptr)
  else
    let mem := forRange 0 (n * size).toNat (fun i mem => store 1 (ptr.toNat + i) 0 mem) h.mem
    return ({ h with mem := mem }, ptr)

/-- Body of the coalescing loop: `curr` takes in the block after it. -/
def mergeNext (curr : Word) (mem : ByteMem) : ByteMem :=
  let mem := setBlockSize curr
    (blockSize mem curr + (blockHeaderSize + blockSize mem (blockNext mem curr))) mem
  setBlockNext curr (blockNext mem (blockNext mem curr)) mem

/-- The coalescing loop of `kfree`, `while(curr && curr->next)`. -/
def coalesce : (fuel : Nat) → (curr : Word) → ByteMem → Option ByteMem
  | 0, _, _ => none
  | fuel + 1, curr, mem =>
      if curr = 0#64 ∨ blockNext mem curr = 0#64 then
        some mem
      else if blockFree mem curr ≠ 0#32 ∧ blockFree mem (blockNext mem curr) ≠ 0#32 then
        coalesce fuel curr (mergeNext curr mem)
      else
        coalesce fuel (blockNext mem curr) mem

/-- `kfree`. -/
def kfree (fuel : Nat) (h : KernelHeap) (ptr : Word) : Option KernelHeap :=
  if ptr = 0#64 then
    some h
  else do
    let mem := setBlockFree (ptr - blockHeaderSize) 1#32 h.mem
    let mem ← coalesce fuel h.heapHead mem
    return { h with mem := mem }

end CustomKernel.Memory
