/-
Module: CustomKernel.Proofs.Pmm
Layer: Proofs
Purpose: The bitmap allocator refines an allocator over a finite set of free frames. Each operation
  gets one lemma that says what it does to `Pmm.freeSet` and to the counter; the run results are
  consequences of those lemmas and never look at a byte of the bitmap again.
Imports: Mathlib.Tactic, Mathlib.Data.Finset.Max, CustomKernel.Memory.Pmm,
  CustomKernel.Library.Runs, CustomKernel.Library.Bits
Trusted boundary: none (fully proved)
Main exports: pmmAlloc_spec, freeSet_releaseFrame, pmmInit_spec, PmmStep, PmmInv,
  pmm_histories_correct
-/
import Mathlib.Tactic
import Mathlib.Data.Finset.Max
import CustomKernel.Memory.Pmm
import CustomKernel.Library.Runs
import CustomKernel.Library.Bits

namespace CustomKernel.Memory

open Bits Loops StepSystem

/-! ### Single bits of the bitmap -/

/-- `bitmap_test` reads one bit. -/
theorem bitmapTest_eq_getLsbD (bitmap : Nat → BitVec 8) (frame : Nat) :
    bitmapTest bitmap frame = (bitmap (frame / 8)).getLsbD (frame % 8) :=
  and_one_shiftLeft_bne _ (Nat.mod_lt _ (by decide))

/-- Setting a bit sets that bit and no other. -/
@[simp] theorem bitmapTest_bitmapSet (bitmap : Nat → BitVec 8) (frame other : Nat) :
    bitmapTest (bitmapSet bitmap frame) other =
      (decide (other = frame) || bitmapTest bitmap other) := by
  have hlt : other % 8 < 8 := Nat.mod_lt _ (by decide)
  simp only [bitmapTest_eq_getLsbD, bitmapSet, Function.update_apply]
  by_cases hbyte : other / 8 = frame / 8
  · rw [if_pos hbyte, BitVec.getLsbD_or, getLsbD_one_shiftLeft hlt, hbyte, Bool.or_comm]
    congr 2
    exact propext ⟨fun h => by omega, fun h => by rw [h]⟩
  · rw [if_neg hbyte]
    have : other ≠ frame := fun h => hbyte (by rw [h])
    simp [this]

/-- Clearing a bit clears that bit and no other. -/
@[simp] theorem bitmapTest_bitmapClear (bitmap : Nat → BitVec 8) (frame other : Nat) :
    bitmapTest (bitmapClear bitmap frame) other =
      (!decide (other = frame) && bitmapTest bitmap other) := by
  have hlt : other % 8 < 8 := Nat.mod_lt _ (by decide)
  simp only [bitmapTest_eq_getLsbD, bitmapClear, Function.update_apply]
  by_cases hbyte : other / 8 = frame / 8
  · rw [if_pos hbyte, BitVec.getLsbD_and, BitVec.getLsbD_not, getLsbD_one_shiftLeft hlt, hbyte,
      Bool.and_comm]
    have : decide (other % 8 = frame % 8) = decide (other = frame) := by
      congr 1
      exact propext ⟨fun h => by omega, fun h => by rw [h]⟩
    simp [this, hlt]
  · rw [if_neg hbyte]
    have : other ≠ frame := fun h => hbyte (by rw [h])
    simp [this]

/-- Clearing a bit that was clear before it was set restores the bitmap byte for byte. -/
theorem bitmapClear_bitmapSet {bitmap : Nat → BitVec 8} {frame : Nat}
    (hclear : bitmapTest bitmap frame = false) :
    bitmapClear (bitmapSet bitmap frame) frame = bitmap := by
  rw [bitmapTest_eq_getLsbD] at hclear
  funext byte
  by_cases hbyte : byte = frame / 8
  · subst hbyte
    simp only [bitmapClear, bitmapSet, Function.update_self]
    apply BitVec.eq_of_getLsbD_eq
    intro k hk
    rw [BitVec.getLsbD_and, BitVec.getLsbD_or, BitVec.getLsbD_not, getLsbD_one_shiftLeft hk]
    by_cases hkf : k = frame % 8
    · simp [hkf, hclear]
    · simp [hkf, hk]
  · simp [bitmapClear, bitmapSet, hbyte]

/-! ### The operations on the set of free frames -/

theorem mem_freeSet {pmm : Pmm} {frame : Nat} :
    frame ∈ pmm.freeSet ↔ frame < totalFrames ∧ bitmapTest pmm.bitmap frame = false := by
  simp [Pmm.freeSet]

theorem freeSet_card_le (pmm : Pmm) : pmm.freeSet.card ≤ totalFrames := by
  have h := Finset.card_filter_le (Finset.range totalFrames)
    (fun frame => bitmapTest pmm.bitmap frame = false)
  rwa [Finset.card_range] at h

@[simp] theorem freeSet_reserveFrame (pmm : Pmm) (frame : Nat) :
    (reserveFrame frame pmm).freeSet = pmm.freeSet.erase frame := by
  ext other
  simp only [mem_freeSet, reserveFrame, bitmapTest_bitmapSet, Finset.mem_erase,
    Bool.or_eq_false_iff, decide_eq_false_iff_not]
  tauto

theorem freeSet_releaseFrame {pmm : Pmm} {frame : Nat} (hlt : frame < totalFrames) :
    (releaseFrame frame pmm).freeSet = insert frame pmm.freeSet := by
  ext other
  simp only [mem_freeSet, releaseFrame, bitmapTest_bitmapClear, Finset.mem_insert,
    Bool.and_eq_false_iff, Bool.not_eq_false', decide_eq_true_eq]
  constructor
  · rintro ⟨hother, rfl | hfree⟩
    · exact .inl rfl
    · exact .inr ⟨hother, hfree⟩
  · rintro (rfl | ⟨hother, hfree⟩)
    · exact ⟨hlt, .inl rfl⟩
    · exact ⟨hother, .inr hfree⟩

/-- Releasing a frame that was free before it was reserved undoes the reservation: one bit set and
    cleared again, one decrement and one increment. -/
theorem releaseFrame_reserveFrame {pmm : Pmm} {frame : Nat} (hmem : frame ∈ pmm.freeSet) :
    releaseFrame frame (reserveFrame frame pmm) = pmm := by
  have hclear := (mem_freeSet.1 hmem).2
  simp only [releaseFrame, reserveFrame, bitmapClear_bitmapSet hclear, BitVec.sub_add_cancel]

/-- What the search loop finds among the `count` frames from `i` on. -/
theorem pmmAllocFrom_spec (pmm : Pmm) : ∀ (count i : Nat), i + count = totalFrames →
    (∀ frame < i, frame ∉ pmm.freeSet) →
    (pmmAllocFrom pmm count i = (pmm, 0) ∧ pmm.freeSet = ∅) ∨
      ∃ frame ∈ pmm.freeSet, (∀ other ∈ pmm.freeSet, frame ≤ other) ∧
        pmmAllocFrom pmm count i = (reserveFrame frame pmm, frame * pageSize)
  | 0, i, hend, hbelow => by
      refine .inl ⟨rfl, Finset.eq_empty_of_forall_notMem fun frame hmem => ?_⟩
      exact hbelow frame (by have := (mem_freeSet.1 hmem).1; omega) hmem
  | count + 1, i, hend, hbelow => by
      cases hbit : bitmapTest pmm.bitmap i with
      | true =>
          have hnext : ∀ frame < i + 1, frame ∉ pmm.freeSet := by
            intro frame hlt hmem
            rcases Nat.lt_succ_iff_lt_or_eq.1 hlt with h | rfl
            · exact hbelow frame h hmem
            · simp [mem_freeSet, hbit] at hmem
          have := pmmAllocFrom_spec pmm count (i + 1) (by omega) hnext
          simpa [pmmAllocFrom, hbit] using this
      | false =>
          refine .inr ⟨i, mem_freeSet.2 ⟨by omega, hbit⟩, fun other hmem => ?_, ?_⟩
          · exact Nat.le_of_not_lt fun hlt => hbelow other hlt hmem
          · simp [pmmAllocFrom, hbit]

/-- `pmm_alloc` takes the least free frame, and fails exactly when there is none. -/
theorem pmmAlloc_spec (pmm : Pmm) :
    (pmmAlloc pmm = (pmm, 0) ∧ pmm.freeSet = ∅) ∨
      ∃ frame ∈ pmm.freeSet, (∀ other ∈ pmm.freeSet, frame ≤ other) ∧
        pmmAlloc pmm = (reserveFrame frame pmm, frame * pageSize) :=
  pmmAllocFrom_spec pmm totalFrames 0 (by simp) (by simp)

/-- `pmm_free` of a frame of RAM. -/
theorem pmmFree_frame {pmm : Pmm} {frame : Nat} (hlt : frame < totalFrames) :
    pmmFree pmm (frame * pageSize) = releaseFrame frame pmm := by
  have hdiv : frame * pageSize / pageSize = frame := Nat.mul_div_cancel _ (by decide)
  have hmod : frame % 2 ^ 32 = frame :=
    Nat.mod_eq_of_lt (Nat.lt_trans hlt (by decide))
  rw [pmmFree, hdiv, hmod]

/-! ### `pmm_init` -/

/-- After the first loop every bit is set. -/
theorem bitmapTest_allUsed {frame : Nat} (hlt : frame < totalFrames) (start : Nat → BitVec 8) :
    bitmapTest (forRange 0 bitmapSize (fun i bitmap => Function.update bitmap i 0xFF#8) start)
      frame = true := by
  have hall := @forRange_invariant _ (fun i bitmap => Function.update bitmap i 0xFF#8)
    (fun i (bitmap : Nat → BitVec 8) => ∀ byte < i, bitmap byte = 0xFF#8)
    0 bitmapSize start (Nat.zero_le _) (by simp)
    (by
      intro i bitmap _ _ ih byte hbyte
      rcases Nat.lt_succ_iff_lt_or_eq.1 hbyte with h | rfl
      · rw [Function.update_of_ne (Nat.ne_of_lt h)]
        exact ih byte h
      · exact Function.update_self ..)
  have hbyte : frame / 8 < bitmapSize := by
    have htot : totalFrames = 65536 := by decide
    have hsize : bitmapSize = 8192 := by decide
    omega
  have hlt8 : frame % 8 < 8 := Nat.mod_lt _ (by decide)
  rw [bitmapTest_eq_getLsbD, hall _ hbyte]
  have hbits : ∀ k < 8, (0xFF#8).getLsbD k = true := by decide
  exact hbits _ hlt8

/-- The counter agrees with the bitmap. -/
def Pmm.Counted (pmm : Pmm) : Prop := pmm.freeFrameCount.toNat = pmm.freeSet.card

theorem Counted.reserveFrame {pmm : Pmm} {frame : Nat} (h : pmm.Counted)
    (hmem : frame ∈ pmm.freeSet) : (reserveFrame frame pmm).Counted := by
  have hpos : 0 < pmm.freeSet.card := Finset.card_pos.2 ⟨frame, hmem⟩
  unfold Pmm.Counted at h ⊢
  rw [freeSet_reserveFrame, Finset.card_erase_of_mem hmem]
  simp only [Memory.reserveFrame]
  bv_omega

theorem Counted.releaseFrame {pmm : Pmm} {frame : Nat} (h : pmm.Counted)
    (hlt : frame < totalFrames) (hmem : frame ∉ pmm.freeSet) :
    (releaseFrame frame pmm).Counted := by
  have hcard := freeSet_card_le pmm
  have htot : totalFrames = 65536 := by decide
  unfold Pmm.Counted at h ⊢
  rw [freeSet_releaseFrame hlt, Finset.card_insert_of_notMem hmem]
  simp only [Memory.releaseFrame]
  bv_omega

/-- The second loop: the frames from 1MB on are free, and counted. -/
theorem usable_spec {bitmap : Nat → BitVec 8}
    (hused : ∀ frame < totalFrames, bitmapTest bitmap frame = true) :
    let usable := forRange startFrame totalFrames releaseFrame
      { bitmap := bitmap, freeFrameCount := 0#64 }
    usable.Counted ∧
      ∀ frame, frame ∈ usable.freeSet ↔ startFrame ≤ frame ∧ frame < totalFrames := by
  refine forRange_invariant
    (fun i (pmm : Pmm) => pmm.Counted ∧
      ∀ frame, frame ∈ pmm.freeSet ↔ startFrame ≤ frame ∧ frame < i)
    (by decide) ?_ ?_
  · have hempty : ({ bitmap := bitmap, freeFrameCount := 0#64 } : Pmm).freeSet = ∅ := by
      apply Finset.eq_empty_of_forall_notMem
      intro frame hmem
      obtain ⟨hlt, hfree⟩ := mem_freeSet.1 hmem
      simp [hused frame hlt] at hfree
    refine ⟨by simp [Pmm.Counted, hempty], fun frame => ?_⟩
    rw [hempty]
    constructor
    · intro h
      simp at h
    · omega
  · rintro i pmm hstart hlt ⟨hcount, hmem⟩
    refine ⟨Counted.releaseFrame hcount hlt fun h => by have := (hmem i).1 h; omega, fun frame => ?_⟩
    rw [freeSet_releaseFrame hlt, Finset.mem_insert, hmem]
    omega

theorem startFrame_le (image : KernelImage) : startFrame ≤ image.startFrame := by
  have hge := image.start_ge
  show 256 ≤ image.kernelStart / 4096
  omega

theorem endFrame_le (image : KernelImage) : image.endFrame ≤ totalFrames := by
  have hle : image.kernelEnd ≤ 268435456 := image.end_le
  show (image.kernelEnd + 4096 - 1) / 4096 ≤ 65536
  omega

/-- The third loop takes the kernel's frames back, each of them counted once. -/
theorem pmmInit_spec (image : KernelImage) :
    (pmmInit image).Counted ∧
      ∀ frame, frame ∈ (pmmInit image).freeSet ↔
        frame < totalFrames ∧ ¬ image.Reserved frame := by
  have hlo := startFrame_le image
  have hhi := endFrame_le image
  have hle : image.startFrame ≤ image.endFrame := by
    have := image.start_le_end
    show image.kernelStart / 4096 ≤ (image.kernelEnd + 4096 - 1) / 4096
    omega
  obtain ⟨hcount, husable⟩ := usable_spec (fun frame hlt => bitmapTest_allUsed hlt (fun _ => 0#8))
  have hloop := @forRange_invariant _ reserveFrame
    (fun i (pmm : Pmm) => pmm.Counted ∧ ∀ frame, frame ∈ pmm.freeSet ↔
      (startFrame ≤ frame ∧ frame < totalFrames) ∧ ¬ (image.startFrame ≤ frame ∧ frame < i))
    _ _ _ hle ⟨hcount, fun frame => by rw [husable]; omega⟩
    (by
      rintro i pmm hi hend ⟨hcount, hmem⟩
      have hi_mem : i ∈ pmm.freeSet := (hmem i).2 (by omega)
      refine ⟨Counted.reserveFrame hcount hi_mem, fun frame => ?_⟩
      rw [freeSet_reserveFrame, Finset.mem_erase, hmem]
      omega)
  refine ⟨hloop.1, fun frame => (hloop.2 frame).trans ?_⟩
  unfold KernelImage.Reserved
  omega

/-- A frame outside the reserved ones lies above 1MB, inside RAM, and beside the kernel image. -/
theorem not_reserved_bounds {image : KernelImage} {frame : Nat} (hlt : frame < totalFrames)
    (hfree : ¬ image.Reserved frame) :
    1024 * 1024 ≤ frame * pageSize ∧ frame * pageSize + pageSize ≤ totalMemory ∧
      (frame * pageSize + pageSize ≤ image.kernelStart ∨
        image.kernelEnd ≤ frame * pageSize) := by
  have hlt' : frame < 65536 := hlt
  have hres : ¬ (frame < 256 ∨ (image.kernelStart / 4096 ≤ frame ∧
      frame < (image.kernelEnd + 4096 - 1) / 4096)) := hfree
  show _ ∧ frame * 4096 + 4096 ≤ 268435456 ∧
    (frame * 4096 + 4096 ≤ image.kernelStart ∨ image.kernelEnd ≤ frame * 4096)
  rw [show pageSize = 4096 from rfl]
  omega

/-! ### Histories of calls -/

/-- One call of the allocator. -/
inductive PmmCall where
  | alloc
  | free (frame : Nat)
deriving DecidableEq, Repr

/-- The allocator together with the frames it has handed out and not got back. -/
structure PmmHistory where
  pmm : Pmm
  allocated : Finset Nat

/-- A call in a history. `pmm_free` is only ever given a frame that is currently allocated. -/
def PmmStep (h : PmmHistory) : PmmCall → PmmHistory → Prop
  | .alloc, h' =>
      h' = { pmm := (pmmAlloc h.pmm).1
             allocated := if (pmmAlloc h.pmm).2 = 0 then h.allocated
               else insert (pmmAlloc h.pmm).2 h.allocated }
  | .free frame, h' =>
      frame ∈ h.allocated ∧
        h' = { pmm := pmmFree h.pmm frame, allocated := h.allocated.erase frame }

/-- The free set is what is neither reserved nor handed out, and the counter counts it. -/
structure PmmInv (image : KernelImage) (h : PmmHistory) : Prop where
  counted : h.pmm.Counted
  free_iff : ∀ frame, frame ∈ h.pmm.freeSet ↔
    frame < totalFrames ∧ ¬ image.Reserved frame ∧ frame * pageSize ∉ h.allocated
  frames : ∀ address ∈ h.allocated, ∃ frame < totalFrames,
    ¬ image.Reserved frame ∧ address = frame * pageSize

theorem frame_address_inj {frame other : Nat} (h : frame * pageSize = other * pageSize) :
    frame = other :=
  Nat.eq_of_mul_eq_mul_right (by decide) h

/-- Frame 0 is reserved, so a frame that is handed out never looks like `NULL`. -/
theorem free_address_ne_zero {image : KernelImage} {frame : Nat}
    (hfree : ¬ image.Reserved frame) : frame * pageSize ≠ 0 := by
  intro hzero
  have hframe : frame = 0 := (Nat.mul_eq_zero.1 hzero).resolve_right (by decide)
  exact hfree (.inl (by rw [hframe]; decide))

theorem PmmInv.init (image : KernelImage) : PmmInv image ⟨pmmInit image, ∅⟩ where
  counted := (pmmInit_spec image).1
  free_iff frame := by simpa using (pmmInit_spec image).2 frame
  frames address hmem := by simp at hmem

theorem PmmInv.alloc {image : KernelImage} {h h' : PmmHistory} (inv : PmmInv image h)
    (step : PmmStep h .alloc h') : PmmInv image h' := by
  rcases pmmAlloc_spec h.pmm with ⟨hnull, -⟩ | ⟨frame, hmem, -, halloc⟩
  · have : h' = h := by simpa [PmmStep, hnull] using step
    rwa [this]
  · obtain ⟨hlt, hres, hnew⟩ := (inv.free_iff frame).1 hmem
    have hne := free_address_ne_zero hres
    have hh' : h' = ⟨reserveFrame frame h.pmm, insert (frame * pageSize) h.allocated⟩ := by
      simpa [PmmStep, halloc, hne] using step
    subst hh'
    refine ⟨Counted.reserveFrame inv.counted hmem, fun other => ?_, fun address haddr => ?_⟩
    · rw [freeSet_reserveFrame, Finset.mem_erase, inv.free_iff, Finset.mem_insert]
      constructor
      · rintro ⟨hother, hlt', hres', hnot⟩
        exact ⟨hlt', hres', fun h => h.elim (fun h => hother (frame_address_inj h)) hnot⟩
      · rintro ⟨hlt', hres', hnot⟩
        exact ⟨fun h => hnot (.inl (by rw [h])), hlt', hres', fun h => hnot (.inr h)⟩
    · rcases Finset.mem_insert.1 haddr with rfl | haddr
      · exact ⟨frame, hlt, hres, rfl⟩
      · exact inv.frames address haddr

theorem PmmInv.free {image : KernelImage} {h h' : PmmHistory} {address : Nat}
    (inv : PmmInv image h) (step : PmmStep h (.free address) h') : PmmInv image h' := by
  obtain ⟨haddr, rfl⟩ := step
  obtain ⟨frame, hlt, hres, rfl⟩ := inv.frames address haddr
  have hused : frame ∉ h.pmm.freeSet := fun hmem => ((inv.free_iff frame).1 hmem).2.2 haddr
  refine ⟨?_, fun other => ?_, fun address haddr' => ?_⟩
  · show (pmmFree h.pmm (frame * pageSize)).Counted
    rw [pmmFree_frame hlt]
    exact Counted.releaseFrame inv.counted hlt hused
  · show other ∈ (pmmFree h.pmm (frame * pageSize)).freeSet ↔ _
    rw [pmmFree_frame hlt, freeSet_releaseFrame hlt, Finset.mem_insert, inv.free_iff,
      Finset.mem_erase]
    constructor
    · rintro (rfl | ⟨hlt', hres', hnot⟩)
      · exact ⟨hlt, hres, fun h => h.1 rfl⟩
      · exact ⟨hlt', hres', fun h => hnot h.2⟩
    · rintro ⟨hlt', hres', hnot⟩
      by_cases hother : other = frame
      · exact .inl hother
      · exact .inr ⟨hlt', hres', fun h => hnot ⟨fun h => hother (frame_address_inj h), h⟩⟩
  · exact inv.frames address (Finset.mem_of_mem_erase haddr')

/-- The invariant holds after every history. -/
theorem PmmInv.of_run {image : KernelImage} {calls : List PmmCall} {h : PmmHistory}
    (run : Run PmmStep ⟨pmmInit image, ∅⟩ calls h) : PmmInv image h := by
  refine run.invariant (PmmInv image) (fun h call h' inv step => ?_) (PmmInv.init image)
  cases call with
  | alloc => exact inv.alloc step
  | free address => exact inv.free step

/-- The physical memory manager keeps its promises after every history of calls: the counter counts
    the clear bits; what `pmm_alloc` returns next is an aligned frame of RAM above 1MB, beside the
    kernel image, that nobody holds; it returns `NULL` exactly when every frame that is not reserved
    is held; and giving the frame straight back restores the allocator's data. -/
theorem pmm_histories_correct (image : KernelImage) (calls : List PmmCall) (h : PmmHistory)
    (run : Run PmmStep ⟨pmmInit image, ∅⟩ calls h) :
    (pmmFreeFrames h.pmm).toNat =
        ((Finset.range totalFrames).filter fun frame => bitmapTest h.pmm.bitmap frame = false).card ∧
      ((pmmAlloc h.pmm).2 ≠ 0 →
        (pmmAlloc h.pmm).2 % 4096 = 0 ∧ 1024 * 1024 ≤ (pmmAlloc h.pmm).2 ∧
          (pmmAlloc h.pmm).2 < 256 * 1024 * 1024 ∧
          ((pmmAlloc h.pmm).2 + 4096 ≤ image.kernelStart ∨
            image.kernelEnd ≤ (pmmAlloc h.pmm).2) ∧
          (pmmAlloc h.pmm).2 ∉ h.allocated ∧
          pmmFree (pmmAlloc h.pmm).1 (pmmAlloc h.pmm).2 = h.pmm) ∧
      ((pmmAlloc h.pmm).2 = 0 ↔
        ∀ frame < totalFrames, ¬ image.Reserved frame → frame * pageSize ∈ h.allocated) := by
  have inv := PmmInv.of_run run
  refine ⟨inv.counted, ?_⟩
  rcases pmmAlloc_spec h.pmm with ⟨hnull, hempty⟩ | ⟨frame, hmem, -, halloc⟩
  · refine ⟨fun hne => absurd (by rw [hnull]) hne, fun _ frame hlt hres => ?_, fun _ => by rw [hnull]⟩
    by_contra hnot
    have hmem := (inv.free_iff frame).2 ⟨hlt, hres, hnot⟩
    simp [hempty] at hmem
  · obtain ⟨hlt, hres, hnew⟩ := (inv.free_iff frame).1 hmem
    have hne := free_address_ne_zero hres
    obtain ⟨hlow, hhigh, himage⟩ := not_reserved_bounds hlt hres
    rw [halloc]
    refine ⟨fun _ => ⟨Nat.mul_mod_left frame 4096, hlow, ?_, himage, hnew, ?_⟩, fun hzero => ?_,
      fun hall => ?_⟩
    · exact Nat.lt_of_lt_of_le (Nat.lt_add_of_pos_right (by decide)) hhigh
    · show pmmFree (reserveFrame frame h.pmm) (frame * pageSize) = h.pmm
      rw [pmmFree_frame hlt, releaseFrame_reserveFrame hmem]
    · exact absurd hzero hne
    · exact absurd (hall frame hlt hres) hnew

/-- An image that fills the second megabyte. -/
def megabyteImage : KernelImage where
  kernelStart := 0x100000
  kernelEnd := 0x200000
  start_ge := by decide
  start_le_end := by decide
  end_le := by decide

/-- The correctness statement applies to the history of one allocation. -/
theorem pmm_histories_correct_after_alloc :
    ∃ h, Run PmmStep ⟨pmmInit megabyteImage, ∅⟩ [.alloc] h ∧
      (pmmFreeFrames h.pmm).toNat = h.pmm.freeSet.card := by
  refine ⟨_, Run.single rfl, ?_⟩
  exact (pmm_histories_correct megabyteImage [.alloc] _ (Run.single rfl)).1

end CustomKernel.Memory
