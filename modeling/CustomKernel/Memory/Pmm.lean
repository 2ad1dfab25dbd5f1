/-
Module: CustomKernel.Memory.Pmm
Layer: Memory
Purpose: The physical memory manager of `src/memory/pmm.c`: a byte bitmap with one bit for each 4KB
  frame of the assumed 256MB of RAM (1 = used), a shadow counter of the free frames, and the
  first-fit allocator over them. The bitmap is kept as the bytes the C array holds; the set of free
  frames it packs is the abstract view the proofs use.
Imports: Mathlib.Data.Finset.Card, Mathlib.Data.Finset.Range, Mathlib.Tactic,
  CustomKernel.Library.Loops
Trusted boundary: the translation of the source
Main exports: KernelImage, Pmm, pmmInit, pmmAlloc, pmmFree, pmmFreeFrames, Pmm.freeSet
-/
import Mathlib.Data.Finset.Card
import Mathlib.Data.Finset.Range
import Mathlib.Tactic
import CustomKernel.Library.Loops

namespace CustomKernel.Memory

open Loops

/-- `PAGE_SIZE`. -/
def pageSize : Nat := 4096

/-- `TOTAL_MEMORY`: 256MB of physical RAM are assumed. -/
def totalMemory : Nat := 256 * 1024 * 1024

/-- `TOTAL_FRAMES`. -/
def totalFrames : Nat := totalMemory / pageSize

/-- `BITMAP_SIZE`. -/
def bitmapSize : Nat := totalFrames / 8

/-- The linker symbols `kernel_start` and `kernel_end`: the image is loaded at or above 1MB and lies
    inside the assumed RAM. -/
structure KernelImage where
  kernelStart : Nat
  kernelEnd : Nat
  start_ge : 1024 * 1024 ≤ kernelStart
  start_le_end : kernelStart ≤ kernelEnd
  end_le : kernelEnd ≤ totalMemory

/-- The static data of `pmm.c`. -/
structure Pmm where
  bitmap : Nat → BitVec 8
  freeFrameCount : BitVec 64

/-- `bitmap[frame / 8] |= (1 << (frame % 8))`. -/
def bitmapSet (bitmap : Nat → BitVec 8) (frame : Nat) : Nat → BitVec 8 :=
  Function.update bitmap (frame / 8) (bitmap (frame / 8) ||| 1#8 <<< (frame % 8))

/-- `bitmap[frame / 8] &= ~(1 << (frame % 8))`. -/
def bitmapClear (bitmap : Nat → BitVec 8) (frame : Nat) : Nat → BitVec 8 :=
  Function.update bitmap (frame / 8) (bitmap (frame / 8) &&& ~~~(1#8 <<< (frame % 8)))

/-- `bitmap[frame / 8] & (1 << (frame % 8))`, as a truth value. -/
def bitmapTest (bitmap : Nat → BitVec 8) (frame : Nat) : Bool :=
  bitmap (frame / 8) &&& 1#8 <<< (frame % 8) != 0#8

/-- Body of the loop that frees the usable frames. -/
def releaseFrame (frame : Nat) (pmm : Pmm) : Pmm :=
  { bitmap := bitmapClear pmm.bitmap frame, freeFrameCount := pmm.freeFrameCount + 1 }

/-- Body of the loop that re-reserves the frames the kernel occupies. -/
def reserveFrame (frame : Nat) (pmm : Pmm) : Pmm :=
  { bitmap := bitmapSet pmm.bitmap frame, freeFrameCount := pmm.freeFrameCount - 1 }

/-- The first frame above the reserved first megabyte. -/
def startFrame : Nat := 1 * 1024 * 1024 / pageSize

/-- `k_start_frame`. -/
def KernelImage.startFrame (image : KernelImage) : Nat := image.kernelStart / pageSize

/-- `k_end_frame`: the kernel's end rounded up to a frame. -/
def KernelImage.endFrame (image : KernelImage) : Nat :=
  (image.kernelEnd + pageSize - 1) / pageSize

/-- `pmm_init`: mark everything as used, free the frames from 1MB up, take the kernel's frames back.
    The static data start out zeroed. -/
def pmmInit (image : KernelImage) : Pmm :=
  let allUsed := forRange 0 bitmapSize (fun i bitmap => Function.update bitmap i 0xFF#8)
    (fun _ => 0#8)
  let usable := forRange startFrame totalFrames releaseFrame
    { bitmap := allUsed, freeFrameCount := 0#64 }
  forRange image.startFrame image.endFrame reserveFrame usable

/-- The search loop of `pmm_alloc`, with `count` frames left to look at from frame `i` on. -/
def pmmAllocFrom (pmm : Pmm) : (count i : Nat) → Pmm × Nat
  | 0, _ => (pmm, 0)
  | count + 1, i =>
      if bitmapTest pmm.bitmap i then pmmAllocFrom pmm count (i + 1)
      else (reserveFrame i pmm, i * pageSize)

/-- `pmm_alloc`: the first free frame's physical address, or `NULL` (0). -/
def pmmAlloc (pmm : Pmm) : Pmm × Nat :=
  pmmAllocFrom pmm totalFrames 0

/-- `pmm_free`. -/
def pmmFree (pmm : Pmm) (frame : Nat) : Pmm :=
  releaseFrame (frame / pageSize % 2 ^ 32) pmm

/-- `pmm_free_frames`. -/
def pmmFreeFrames (pmm : Pmm) : BitVec 64 := pmm.freeFrameCount

/-! ### The abstract allocator -/

/-- The frames whose bit is clear: what the bitmap stands for. -/
def Pmm.freeSet (pmm : Pmm) : Finset Nat :=
  (Finset.range totalFrames).filter fun frame => bitmapTest pmm.bitmap frame = false

/-- The frames `pmm_init` keeps back for good: the first megabyte and the kernel image. -/
def KernelImage.Reserved (image : KernelImage) (frame : Nat) : Prop :=
  frame < Memory.startFrame ∨ (image.startFrame ≤ frame ∧ frame < image.endFrame)

instance (image : KernelImage) (frame : Nat) : Decidable (image.Reserved frame) :=
  inferInstanceAs (Decidable (_ ∨ _))

end CustomKernel.Memory
