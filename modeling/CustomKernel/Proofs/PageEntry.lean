/-
Module: CustomKernel.Proofs.PageEntry
Layer: Proofs
Purpose: Page-table entries and virtual addresses as numbers: which flags an entry built by the code
  has, which frame it points to, and what the index macros compute. After this module the proofs
  about page tables speak of flags, frames and indices and of no single bit.
Imports: CustomKernel.Memory.Vmm, CustomKernel.Library.Bits
Trusted boundary: none (fully proved)
Main exports: hasFlag_or, entryAddr_or, toNat_entryAddr, pteAddr_eq_entryAddr, tableIndex_eq,
  frameAddr_inj, walkPath, walkPath_eq_iff
-/
import CustomKernel.Memory.Vmm
import CustomKernel.Library.Bits

namespace CustomKernel.Memory

open Bits

/-! ### Flags -/

/-- A flag is set in a union exactly if it is set in one of the parts. -/
@[simp] theorem hasFlag_or (a b flag : Word) :
    hasFlag (a ||| b) flag = (hasFlag a flag || hasFlag b flag) := by
  have hdist : (a ||| b) &&& flag = (a &&& flag) ||| (b &&& flag) := by
    apply BitVec.eq_of_getLsbD_eq
    intro k _
    simp only [BitVec.getLsbD_and, BitVec.getLsbD_or, Bool.and_or_distrib_right]
  simp only [hasFlag, hdist]
  by_cases ha : a &&& flag = 0#64
  · simp [ha]
  · have hor : (a &&& flag) ||| (b &&& flag) ≠ 0#64 := by
      intro hzero
      exact ha (BitVec.or_eq_zero_iff.1 hzero).1
    rw [bne_iff_ne.2 hor, bne_iff_ne.2 ha]
    rfl

@[simp] theorem hasFlag_zero (flag : Word) : hasFlag 0#64 flag = false := by
  simp [hasFlag]

/-! ### Addresses in entries -/

@[simp] theorem entryAddr_or (a b : Word) : entryAddr (a ||| b) = entryAddr a ||| entryAddr b := by
  apply BitVec.eq_of_getLsbD_eq
  intro k _
  simp only [entryAddr, BitVec.getLsbD_and, BitVec.getLsbD_or, Bool.and_or_distrib_right]

@[simp] theorem entryAddr_ptePresent : entryAddr ptePresent = 0#64 := by decide
@[simp] theorem entryAddr_pteWritable : entryAddr pteWritable = 0#64 := by decide
@[simp] theorem entryAddr_pteUser : entryAddr pteUser = 0#64 := by decide
@[simp] theorem entryAddr_pteHuge : entryAddr pteHuge = 0#64 := by decide

theorem toNat_entryAddr (entry : Word) :
    (entryAddr entry).toNat = entry.toNat / 4096 * 4096 :=
  toNat_and_not_lowMask entry (n := 12) (by decide)

/-- The address the MMU reads is the one the code reads, for entries below the reserved bits. -/
theorem pteAddr_eq_entryAddr {entry : Word} (h : (entryAddr entry).toNat < 2 ^ 52) :
    pteAddr entry = entryAddr entry := by
  have hlt : entry.toNat < 2 ^ 52 := by
    rw [toNat_entryAddr] at h
    omega
  have hmasks : 0x000FFFFFFFFFF000#64 = BitVec.ofNat 64 (2 ^ 52 - 1) &&& ~~~0xFFF#64 := by decide
  have hlow : entry &&& BitVec.ofNat 64 (2 ^ 52 - 1) = entry := by
    apply BitVec.eq_of_toNat_eq
    rw [toNat_and_lowMask entry (by decide), Nat.mod_eq_of_lt hlt]
  rw [pteAddr, entryAddr, hmasks, ← BitVec.and_assoc, hlow]

/-- The flags of an aligned address are clear. -/
theorem hasFlag_of_aligned {address flag : Word} (haddr : entryAddr address = address)
    (hflag : entryAddr flag = 0#64) : hasFlag address flag = false := by
  have hzero : address &&& flag = 0#64 := by
    rw [← haddr, entryAddr, BitVec.and_assoc, BitVec.and_comm (~~~0xFFF#64) flag]
    show address &&& entryAddr flag = 0#64
    rw [hflag, BitVec.and_zero]
  simp [hasFlag, hzero]

/-! ### Frames -/

theorem toNat_frameAddr {frame : Nat} (h : frame < totalFrames) :
    (frameAddr frame).toNat = frame * 4096 := by
  have : frame < 65536 := h
  show (BitVec.ofNat 64 (frame * 4096)).toNat = _
  rw [BitVec.toNat_ofNat]
  omega

theorem frameAddr_inj {frame other : Nat} (hframe : frame < totalFrames)
    (hother : other < totalFrames) (h : frameAddr frame = frameAddr other) : frame = other := by
  have := congrArg BitVec.toNat h
  rw [toNat_frameAddr hframe, toNat_frameAddr hother] at this
  omega

theorem entryAddr_frameAddr {frame : Nat} (h : frame < totalFrames) :
    entryAddr (frameAddr frame) = frameAddr frame := by
  apply BitVec.eq_of_toNat_eq
  rw [toNat_entryAddr, toNat_frameAddr h]
  omega

/-- An entry that points to a frame of RAM points there for the MMU, too. -/
theorem pteAddr_of_frame {entry : Word} {frame : Nat} (h : frame < totalFrames)
    (haddr : entryAddr entry = frameAddr frame) : pteAddr entry = frameAddr frame := by
  have : frame < 65536 := h
  rw [pteAddr_eq_entryAddr (by rw [haddr, toNat_frameAddr h]; omega), haddr]

theorem pteAddr_frameAddr {frame : Nat} (h : frame < totalFrames) :
    pteAddr (frameAddr frame) = frameAddr frame :=
  pteAddr_of_frame h (entryAddr_frameAddr h)

theorem frameAddr_eq_pointer (frame : Nat) : framePointer (frame * pageSize) = frameAddr frame := rfl

/-! ### Indices -/

theorem tableIndex_eq (shift : Nat) (addr : Word) :
    tableIndex shift addr = addr.toNat / 2 ^ shift % 512 := by
  rw [tableIndex, BitVec.toNat_and, BitVec.toNat_ushiftRight, Nat.shiftRight_eq_div_pow]
  exact Nat.and_two_pow_sub_one_eq_mod _ 9

theorem tableIndex_lt (shift : Nat) (addr : Word) : tableIndex shift addr < 512 := by
  rw [tableIndex_eq]
  exact Nat.mod_lt _ (by decide)

/-- The indices a walk uses, the last one first. -/
def walkPath (virt : Word) : List Nat := [ptIndex virt, pdIndex virt, pdptIndex virt, pml4Index virt]

/-- Two addresses have the same indices exactly if they agree in bits 12 to 47. -/
theorem walkPath_eq_iff (v w : Word) :
    walkPath v = walkPath w ↔ v.toNat / 4096 % 2 ^ 36 = w.toNat / 4096 % 2 ^ 36 := by
  simp only [walkPath, ptIndex, pdIndex, pdptIndex, pml4Index, tableIndex_eq, List.cons.injEq,
    and_true]
  omega

end CustomKernel.Memory
