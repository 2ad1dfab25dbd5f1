/-
Module: CustomKernel.Proofs.FirstFit
Layer: Proofs
Purpose: Which block `kmalloc` returns, and how large it is. Since no two free blocks are neighbours,
  the free blocks are the maximal gaps between the blocks in use, and the search over the list is a
  first fit over these gaps. The size is rounded up modulo 2^64 before the search, and `kcalloc`
  multiplies modulo 2^64: near the top of the range a block can be returned that is too small.
Imports: CustomKernel.Proofs.HeapCanonical
Trusted boundary: none (fully proved)
Main exports: SafeHeapStep, kmalloc_first_fit, LivePayload, ZeroedPayload, kernel_allocation_sizes,
  kernel_allocation_too_small
-/
import CustomKernel.Proofs.HeapCanonical

namespace CustomKernel.Memory

open ByteMemory BlockList StepSystem

/-! ### Histories -/

/-- What callers keep to. The product of a `kcalloc` may wrap as long as the bytes it zeroes are those
    of the block it gets; otherwise the loop runs over the end of the heap. -/
def HeapCall.Safe (s : HeapHistory) : HeapCall → Prop
  | .kcalloc n size => (n * size).toNat ≤ 2 ^ 64 - 8
  | call => call.Allowed s

/-- A call that returns. -/
def SafeHeapStep (s : HeapHistory) (call : HeapCall) (s' : HeapHistory) : Prop :=
  call.Safe s ∧ ∃ fuel, call.run fuel s = some s'

/-- What is allowed is safe: the product does not wrap. -/
theorem HeapHistoryStep.safe {s s' : HeapHistory} {call : HeapCall}
    (step : HeapHistoryStep s call s') : SafeHeapStep s call s' := by
  obtain ⟨hallowed, hrun⟩ := step
  refine ⟨?_, hrun⟩
  cases call with
  | kcalloc n size =>
      have hproduct : n.toNat * size.toNat ≤ 2 ^ 64 - 8 := hallowed
      show (n * size).toNat ≤ 2 ^ 64 - 8
      rw [BitVec.toNat_mul]
      exact Nat.le_trans (Nat.mod_le _ _) hproduct
  | kmalloc size => exact hallowed
  | kfree ptr => exact hallowed
  | write addr byte => exact hallowed

/-- A size that can be rounded up. -/
theorem toNat_align8_of_le {size : Word} (h : size.toNat ≤ 2 ^ 64 - 8) :
    (align8 size).toNat = (size.toNat + 7) / 8 * 8 := by
  rw [toNat_align8, Nat.mod_eq_of_lt (by omega)]

section Histories

variable {s s' : HeapHistory} {blocks : List Block}

theorem KernelHeapInv.safe_step (inv : KernelHeapInv s blocks) {call : HeapCall}
    (step : SafeHeapStep s call s') : ∃ blocks', KernelHeapInv s' blocks' := by
  obtain ⟨hsafe, fuel, hrun⟩ := step
  cases call with
  | kmalloc size => exact inv.step_kmalloc hrun
  | kfree ptr => exact inv.step_kfree hsafe hrun
  | write addr byte => exact inv.step_write hsafe hrun
  | kcalloc n size =>
      obtain ⟨⟨heap, ptr⟩, hcall, hrun⟩ := Option.bind_eq_some_iff.1 hrun
      cases hrun
      have hfit : (n * size).toNat ≤ (align8 (n * size)).toNat := by
        rw [toNat_align8_of_le hsafe]
        omega
      rcases inv.kcalloc_takes hfit hcall with ⟨rfl, rfl⟩ | ⟨hne, blocks', t⟩
      · exact ⟨blocks, inv⟩
      · rw [if_neg hne]
        exact ⟨blocks', t.inv⟩

/-- Every state of a history keeps the invariant, for the list that is in memory. -/
theorem KernelHeapInv.of_run {mem : ByteMem} {calls : List HeapCall}
    (run : Run SafeHeapStep ⟨heapInit mem, []⟩ calls s) : KernelHeapInv s s.heap.blocks := by
  obtain ⟨blocks, inv⟩ := run.invariant (fun s => ∃ blocks, KernelHeapInv s blocks)
    (fun _ _ _ ⟨_, inv⟩ step => inv.safe_step step) ⟨_, .init mem⟩
  rw [inv.blocks_eq]
  exact inv

end Histories

/-! ### First fit -/

/-- `kmalloc` returns the lowest gap between the live blocks that has room for the header and the
    rounded size, and changes nothing outside it. -/
theorem kmalloc_first_fit (mem : ByteMem) (calls : List HeapCall) (s : HeapHistory)
    (run : Run SafeHeapStep ⟨heapInit mem, []⟩ calls s) (size : Word) (hpos : 1 ≤ size.toNat)
    (hmax : size.toNat ≤ 2 ^ 64 - 8) (fuel : Nat) (hfuel : heapHi - heapLo < fuel) :
    LivePointers s.live s.heap.blocks ∧
      ∃ heap ptr, kmalloc fuel s.heap size = some (heap, ptr) ∧
        (ptr = 0#64 ↔ ∀ g ∈ gaps 24 heapLo heapHi (inUse s.heap.blocks),
          hasRoom 24 ((size.toNat + 7) / 8 * 8) g = false) ∧
        (ptr = 0#64 → heap = s.heap) ∧
        (ptr ≠ 0#64 → ∃ g ∈ gaps 24 heapLo heapHi (inUse s.heap.blocks),
          hasRoom 24 ((size.toNat + 7) / 8 * 8) g = true ∧
          (∀ g' ∈ gaps 24 heapLo heapHi (inUse s.heap.blocks),
            hasRoom 24 ((size.toNat + 7) / 8 * 8) g' = true → g.1 ≤ g'.1) ∧
          ptr.toNat = g.1 + 24 ∧
          (∃ pre post, s.heap.blocks = pre ++ ⟨g.1, g.2 - g.1 - 24, true⟩ :: post ∧
            heap.blocks = pre ++
              (cut 24 9 ((size.toNat + 7) / 8 * 8) ⟨g.1, g.2 - g.1 - 24, true⟩ ++ post)) ∧
          ∀ a, a < g.1 ∨ g.2 ≤ a → heap.mem a = s.heap.mem a) := by
  have inv := KernelHeapInv.of_run run
  have hsize : size ≠ 0#64 := by
    rintro rfl
    cases hpos
  have hfind := @Tiles.find_fits 24 heapHi (align8 size).toNat (by decide) _ _ inv.rep.tiles
    inv.separated
  rw [← toNat_align8_of_le hmax]
  obtain ⟨heap, ptr, hcall⟩ := inv.kmalloc_returns hfuel size
  refine ⟨inv.live, heap, ptr, hcall, ?_⟩
  rcases inv.kmalloc_first hsize hcall with
    ⟨hnone, rfl, rfl⟩ | ⟨pre, b, post, hsplit, hsome, hhead, hptr, hrep, hframe⟩
  · -- no block fits, so no gap has room
    rw [hnone] at hfind
    have hgaps := List.find?_eq_none.1 (Option.map_eq_none_iff.1 hfind.symm)
    refine ⟨⟨fun _ g hg => ?_, fun _ => rfl⟩, fun _ => rfl, fun hbad => absurd rfl hbad⟩
    exact Bool.not_eq_true _ ▸ hgaps g hg
  · have hne : ptr ≠ 0#64 := by
      rintro rfl
      rw [BitVec.toNat_ofNat] at hptr
      omega
    rw [hsome] at hfind
    obtain ⟨g, hgap, hblock⟩ := Option.map_eq_some_iff.1 hfind.symm
    obtain ⟨hmem, hroom, hlowest⟩ := find_gap_lowest (ordered_inUse inv.rep.ordered) hgap
    have haddr : g.1 = b.addr := congrArg Block.addr hblock
    have hstop : g.2 = b.stop 24 := by
      have hsize' : g.2 - g.1 - 24 = b.size := congrArg Block.size hblock
      have hle : g.1 + 24 + (align8 size).toNat ≤ g.2 := of_decide_eq_true hroom
      unfold Block.stop
      omega
    have hfree : b.free = true := (congrArg Block.free hblock).symm
    refine ⟨⟨fun hbad => absurd hbad hne, fun hall => ?_⟩, fun hbad => absurd hbad hne, fun _ => ?_⟩
    · rw [hall g hmem] at hroom
      cases hroom
    · refine ⟨g, hmem, hroom, hlowest, by rw [hptr, haddr], ⟨pre, post, ?_, ?_⟩, fun a ha => ?_⟩
      · rw [hblock]
        exact hsplit
      · rw [hblock]
        have inv' : KernelHeapInv s (pre ++ b :: post) := hsplit ▸ inv
        exact (inv'.allocated (align8 size).toNat hfree hhead hptr hrep).blocks_eq
      · rw [haddr, hstop] at ha
        exact hframe a ha

/-- A block between two live ones, the lower of two gaps with room. -/
theorem kmalloc_first_fit_between : ∃ heap ptr,
    kmalloc (2 ^ 22 + 1) usedHeap.heap 64#64 = some (heap, ptr) ∧ ptr = 0xC0000058#64 := by
  have run : Run SafeHeapStep ⟨heapInit fun _ => 0#8, []⟩ usedCalls usedHeap :=
    .of_foldlM (fun _ _ _ h => (HeapCall.play_step h).safe) (eq_some_getD (by decide +kernel) _)
  obtain ⟨-, heap, ptr, hcall, hnull, -, hsome⟩ := kmalloc_first_fit (fun _ => 0#8) usedCalls _ run
    64#64 (by decide) (by decide) (2 ^ 22 + 1) (by decide)
  rw [usedHeap_blocks] at hnull hsome
  have hgap : (0xC0000040, 0xC00000D8) ∈ gaps 24 heapLo heapHi (inUse
      [⟨0xC0000000, 40, false⟩, ⟨0xC0000040, 128, true⟩, ⟨0xC00000D8, 8, false⟩,
        ⟨0xC00000F8, 4194032, true⟩]) := by decide
  have hne : ptr ≠ 0#64 := by
    intro hzero
    have := hnull.1 hzero _ hgap
    revert this
    decide
  obtain ⟨g, hg, hroom, hlowest, hptr, -⟩ := hsome hne
  have hle := hlowest _ hgap (by decide)
  have hfirst : ∀ g ∈ gaps 24 heapLo heapHi (inUse
      [⟨0xC0000000, 40, false⟩, ⟨0xC0000040, 128, true⟩, ⟨0xC00000D8, 8, false⟩,
        ⟨0xC00000F8, 4194032, true⟩]), hasRoom 24 (((64#64 : Word).toNat + 7) / 8 * 8) g = true →
      g.1 ≤ 0xC0000040 → g.1 = 0xC0000040 := by decide
  rw [hfirst g hg hroom hle] at hptr
  exact ⟨heap, ptr, hcall, BitVec.eq_of_toNat_eq hptr⟩

/-! ### Sizes -/

/-- A block in use whose payload is at `ptr` and has `size` bytes at least. -/
def LivePayload (heap : KernelHeap) (ptr : Word) (size : Nat) : Prop :=
  ∃ b ∈ inUse heap.blocks, ptr.toNat = b.addr + 24 ∧ size ≤ b.size

/-- What `kcalloc` promises: a payload of `n * size` bytes, all zero, and nothing else changed since
    `kmalloc`. -/
def ZeroedPayload (before : KernelHeap) (n size : Word) (heap : KernelHeap) (ptr : Word) : Prop :=
  LivePayload heap ptr (n.toNat * size.toNat) ∧
    (∀ i < n.toNat * size.toNat, heap.mem (ptr.toNat + i) = 0#8) ∧
    ∃ fuel taken, kmalloc fuel before (n * size) = some (taken, ptr) ∧
      ∃ b ∈ inUse taken.blocks, ptr.toNat = b.addr + 24 ∧
        ∀ a, a < ptr.toNat ∨ ptr.toNat + b.size ≤ a → heap.mem a = taken.mem a

/-- A block of the list has the size its header says. -/
theorem mem_readBlocks {mem : ByteMem} {b : Block} : ∀ {fuel : Nat} {curr : Word},
    b ∈ readBlocks mem fuel curr → b.size = load mem 8 b.addr
  | 0, _, h => by cases h
  | fuel + 1, curr, h => by
      rw [readBlocks] at h
      split at h
      · cases h
      · rcases List.mem_cons.1 h with rfl | hrest
        · exact toNat_blockSize mem curr
        · exact mem_readBlocks hrest

section Sizes

variable {s : HeapHistory} {blocks : List Block} {fuel : Nat} {heap : KernelHeap} {ptr : Word}

/-- The payload of a block that was taken, whatever is written behind its header, is smaller than the
    heap. -/
theorem Takes.payload_lt {size bytes : Nat} {blocks' : List Block} {taken : KernelHeap}
    (t : Takes s blocks size ptr taken blocks')
    (hsame : ∀ a < ptr.toNat, heap.mem a = taken.mem a) (hlive : LivePayload heap ptr bytes) :
    bytes < 2 ^ 22 := by
  obtain ⟨pre, b, post, rfl, hptr, -⟩ := t.room
  obtain ⟨c, hc, haddr, hbytes⟩ := hlive
  have hsize := mem_readBlocks (mem_inUse.1 hc).1
  have hheader : load taken.mem 8 b.addr = b.size := t.inv.rep.header.size
  have hbounds := t.inv.rep.bounds (b := b) (by simp)
  have hload : load heap.mem 8 c.addr = load taken.mem 8 b.addr := by
    rw [show c.addr = b.addr by omega]
    exact load_congr fun a _ hhi => hsame a (by omega)
  unfold heapLo heapHi at hbounds
  omega

/-- A call finds a block if a free one is large enough. -/
theorem KernelHeapInv.kmalloc_ne (inv : KernelHeapInv s blocks) {size : Word} (hsize : size ≠ 0#64)
    (hcall : Memory.kmalloc fuel s.heap size = some (heap, ptr)) {b : Block} (hb : b ∈ blocks)
    (hfree : b.free = true) (hfit : (align8 size).toNat ≤ b.size) : ptr ≠ 0#64 := by
  rcases inv.kmalloc_first hsize hcall with ⟨hnone, -, -⟩ | ⟨-, c, -, -, -, -, hptr, -⟩
  · have hfits : b.fits (align8 size).toNat = true := by
      unfold Block.fits
      rw [hfree, Bool.true_and]
      exact decide_eq_true hfit
    exact absurd hfits (List.find?_eq_none.1 hnone b hb)
  · rintro rfl
    rw [BitVec.toNat_ofNat] at hptr
    omega

/-- A size near the top of the range is rounded up to 0. -/
theorem align8_wraps {size : Word} (h : ¬ size.toNat ≤ 2 ^ 64 - 8) : (align8 size).toNat = 0 := by
  have := size.isLt
  rw [toNat_align8]
  omega

/-- The block that was taken, in the list that is in memory. -/
theorem Takes.livePayload {size : Nat} {blocks' : List Block} {bytes : Nat}
    (t : Takes s blocks size ptr heap blocks') (hbytes : bytes ≤ size) :
    LivePayload heap ptr bytes := by
  obtain ⟨b, hb, hptr⟩ := (t.inv.live ptr).1 List.mem_cons_self
  have hlist : heap.blocks = blocks' := t.inv.blocks_eq
  obtain ⟨pre, c, post, hsplit, hptr', hsize⟩ := t.room
  have hsame : b = c := by
    have hord := t.inv.rep.ordered
    have hmem := (mem_inUse.1 hb).1
    rw [hsplit] at hord hmem
    by_contra hne
    have hother : b ∈ pre ∨ b ∈ post := by simpa [hne] using hmem
    exact hord.addr_ne (by decide) hother (by omega)
  refine ⟨b, ?_, hptr, ?_⟩
  · rw [hlist]
    exact hb
  · rw [hsame]
    omega

/-- When `kmalloc` keeps its promise. -/
theorem KernelHeapInv.kmalloc_size_iff (inv : KernelHeapInv s blocks) {size : Word}
    (hcall : Memory.kmalloc fuel s.heap size = some (heap, ptr)) :
    (ptr ≠ 0#64 → LivePayload heap ptr size.toNat) ↔
      size.toNat ≤ 2 ^ 64 - 8 ∨ ∀ b ∈ blocks, b.free = false := by
  constructor
  · intro hkept
    by_cases hmax : size.toNat ≤ 2 ^ 64 - 8
    · exact .inl hmax
    · refine .inr fun b hb => Bool.not_eq_true _ ▸ fun hfree => ?_
      -- any free block will do for the rounded size
      have hsize : size ≠ 0#64 := by
        rintro rfl
        exact hmax (by decide)
      have hne := inv.kmalloc_ne hsize hcall hb hfree (by rw [align8_wraps hmax]; exact Nat.zero_le _)
      rcases inv.kmalloc_takes hcall with ⟨-, hnull⟩ | ⟨-, blocks', t⟩
      · exact hne hnull
      · have := t.payload_lt (fun _ _ => rfl) (hkept hne)
        omega
  · intro hcond hne
    rcases inv.kmalloc_takes hcall with ⟨-, hnull⟩ | ⟨-, blocks', t⟩
    · exact absurd hnull hne
    · rcases hcond with hmax | hfull
      · refine t.livePayload ?_
        rw [toNat_align8_of_le hmax]
        omega
      · rcases inv.kmalloc hcall with ⟨-, hnull⟩ | ⟨pre, b, post, rfl, hfree, -⟩
        · exact absurd hnull hne
        · rw [hfull b (by simp)] at hfree
          cases hfree

/-- When `kcalloc` keeps its promise. -/
theorem KernelHeapInv.kcalloc_size_iff (inv : KernelHeapInv s blocks) {n size : Word}
    (hcall : Memory.kcalloc fuel s.heap n size = some (heap, ptr)) :
    (ptr ≠ 0#64 → ZeroedPayload s.heap n size heap ptr) ↔
      n.toNat * size.toNat ≤ 2 ^ 64 - 8 ∨ n * size = 0#64 ∨
        ∀ b ∈ blocks, b.free = true → b.size < (align8 (n * size)).toNat := by
  obtain ⟨⟨taken, ptr'⟩, htaken, hcalloc⟩ := Option.bind_eq_some_iff.1 hcall
  dsimp only at hcalloc
  -- what the loop leaves of the memory
  have hzeroed : ptr' = ptr ∧ (ptr ≠ 0#64 → heap.heapHead = taken.heapHead ∧ heap.mem =
      Loops.forRange 0 (n * size).toNat (fun i mem => store 1 (ptr.toNat + i) 0 mem) taken.mem) := by
    split at hcalloc
    · cases hcalloc
      exact ⟨rfl, fun hbad => absurd ‹_› hbad⟩
    · cases hcalloc
      exact ⟨rfl, fun _ => ⟨rfl, rfl⟩⟩
  obtain ⟨rfl, hloop⟩ := hzeroed
  constructor
  · intro hkept
    by_cases hmax : n.toNat * size.toNat ≤ 2 ^ 64 - 8
    · exact .inl hmax
    · refine .inr ?_
      by_cases hzero : n * size = 0#64
      · exact .inl hzero
      · refine .inr fun b hb hfree => Nat.lt_of_not_le fun hfit => ?_
        have hne := inv.kmalloc_ne hzero htaken hb hfree hfit
        rcases inv.kmalloc_takes htaken with ⟨-, hnull⟩ | ⟨-, blocks', t⟩
        · exact hne hnull
        · have := t.payload_lt (fun a ha => by
            rw [(hloop hne).2]
            exact zero_loop_outside (.inl ha)) (hkept hne).1
          omega
  · intro hcond hne
    rcases inv.kmalloc_takes htaken with ⟨-, hnull⟩ | ⟨-, blocks', t⟩
    · exact absurd hnull hne
    · rcases hcond with hmax | hzero | hfull
      · have hprod : (n * size).toNat = n.toNat * size.toNat := by
          rw [BitVec.toNat_mul, Nat.mod_eq_of_lt (by omega)]
        have hround : n.toNat * size.toNat ≤ (align8 (n * size)).toNat := by
          rw [toNat_align8_of_le (by omega), hprod]
          omega
        obtain ⟨hhead, hmem⟩ := hloop hne
        have t' : Takes s blocks _ ptr' { taken with mem := heap.mem } blocks' :=
          t.payload fun a ha => by
            rw [hmem]
            exact zero_loop_outside (by omega)
        have hheap : { taken with mem := heap.mem } = heap := by rw [← hhead]
        rw [hheap] at t'
        obtain ⟨b, hb, hptr, hsize⟩ := t.livePayload (Nat.le_refl _)
        refine ⟨t'.livePayload hround, fun i hi => ?_, fuel, taken, htaken, b, hb, hptr,
          fun a ha => ?_⟩
        · rw [hmem]
          exact zero_loop_inside (by omega)
        · rw [hmem]
          exact zero_loop_outside (by omega)
      · unfold Memory.kmalloc at htaken
        rw [if_pos hzero] at htaken
        cases htaken
        exact absurd rfl hne
      · rcases inv.kmalloc htaken with ⟨-, hnull⟩ | ⟨pre, b, post, rfl, hfree, hfit, -⟩
        · exact absurd hnull hne
        · exact absurd (hfull b (by simp) hfree) (Nat.not_lt.2 hfit)

end Sizes

/-- When the allocations of the kernel have the size that was asked for. -/
theorem kernel_allocation_sizes (mem : ByteMem) (calls : List HeapCall) (s : HeapHistory)
    (run : Run SafeHeapStep ⟨heapInit mem, []⟩ calls s) (fuel : Nat) :
    (∀ size heap ptr, kmalloc fuel s.heap size = some (heap, ptr) →
      ((ptr ≠ 0#64 → LivePayload heap ptr size.toNat) ↔
        size.toNat ≤ 2 ^ 64 - 8 ∨ ∀ b ∈ s.heap.blocks, b.free = false)) ∧
      ∀ n size heap ptr, kcalloc fuel s.heap n size = some (heap, ptr) →
        ((ptr ≠ 0#64 → ZeroedPayload s.heap n size heap ptr) ↔
          n.toNat * size.toNat ≤ 2 ^ 64 - 8 ∨ n * size = 0#64 ∨
            ∀ b ∈ s.heap.blocks, b.free = true → b.size < (align8 (n * size)).toNat) :=
  ⟨fun _ _ _ hcall => (KernelHeapInv.of_run run).kmalloc_size_iff hcall,
    fun _ _ _ _ hcall => (KernelHeapInv.of_run run).kcalloc_size_iff hcall⟩

/-- `kcalloc` behind a `kmalloc` that has found a block. -/
theorem kcalloc_eq {fuel : Nat} {h taken : KernelHeap} {n size ptr : Word}
    (hcall : kmalloc fuel h (n * size) = some (taken, ptr)) (hne : ptr ≠ 0#64) :
    ∃ heap, kcalloc fuel h n size = some (heap, ptr) ∧
      ∀ a < ptr.toNat, heap.mem a = taken.mem a := by
  refine ⟨{ taken with
    mem := Loops.forRange 0 (n * size).toNat (fun i mem => store 1 (ptr.toNat + i) 0 mem)
      taken.mem }, ?_, fun a ha => zero_loop_outside (.inl ha)⟩
  unfold kcalloc
  rw [hcall]
  exact if_neg hne

/-- A block of 64 bytes, and one of two times 32 bytes. -/
theorem kernel_allocation_sizes_small : ∃ heap ptr heap' ptr',
    kmalloc (2 ^ 22 + 1) (heapInit fun _ => 0#8) 64#64 = some (heap, ptr) ∧ ptr ≠ 0#64 ∧
      kcalloc (2 ^ 22 + 1) (heapInit fun _ => 0#8) 2#64 32#64 = some (heap', ptr') ∧
      ptr' ≠ 0#64 ∧ LivePayload heap ptr 64 ∧
      ZeroedPayload (heapInit fun _ => 0#8) 2#64 32#64 heap' ptr' := by
  have inv := KernelHeapInv.init fun _ => 0#8
  obtain ⟨heap, ptr, hcall⟩ := @KernelHeapInv.kmalloc_returns _ _ inv (2 ^ 22 + 1) (by decide) 64#64
  obtain ⟨taken, ptr', htaken⟩ := @KernelHeapInv.kmalloc_returns _ _ inv (2 ^ 22 + 1) (by decide)
    (2#64 * 32#64)
  have hne := inv.kmalloc_ne (by decide) hcall (List.mem_singleton.2 rfl) rfl (by decide)
  have hne' := inv.kmalloc_ne (by decide) htaken (List.mem_singleton.2 rfl) rfl (by decide)
  obtain ⟨heap', hcalloc, -⟩ := kcalloc_eq htaken hne'
  have hsizes := kernel_allocation_sizes (fun _ => 0#8) [] _ (.nil _) (2 ^ 22 + 1)
  exact ⟨heap, ptr, heap', ptr', hcall, hne, hcalloc, hne',
    (hsizes.1 _ _ _ hcall).2 (.inl (by decide)) hne,
    (hsizes.2 _ _ _ _ hcalloc).2 (.inl (by decide)) hne'⟩

/-- `kmalloc(SIZE_MAX)` and `kcalloc(2^60 + 1, 16)` on an empty heap. -/
theorem kernel_allocation_too_small : ∃ heap ptr heap' ptr',
    kmalloc (2 ^ 22 + 1) (heapInit fun _ => 0#8) 0xFFFFFFFFFFFFFFFF#64 = some (heap, ptr) ∧
      ptr ≠ 0#64 ∧ ¬ LivePayload heap ptr 0xFFFFFFFFFFFFFFFF ∧
      kcalloc (2 ^ 22 + 1) (heapInit fun _ => 0#8) 0x1000000000000001#64 16#64 =
        some (heap', ptr') ∧ ptr' ≠ 0#64 ∧ ¬ LivePayload heap' ptr' (0x1000000000000001 * 16) := by
  have inv := KernelHeapInv.init fun _ => 0#8
  obtain ⟨heap, ptr, hcall⟩ := @KernelHeapInv.kmalloc_returns _ _ inv (2 ^ 22 + 1) (by decide)
    0xFFFFFFFFFFFFFFFF#64
  obtain ⟨taken, ptr', htaken⟩ := @KernelHeapInv.kmalloc_returns _ _ inv (2 ^ 22 + 1) (by decide)
    (0x1000000000000001#64 * 16#64)
  have hne := inv.kmalloc_ne (by decide) hcall (List.mem_singleton.2 rfl) rfl (by decide)
  have hne' := inv.kmalloc_ne (by decide) htaken (List.mem_singleton.2 rfl) rfl (by decide)
  obtain ⟨heap', hcalloc, hsame⟩ := kcalloc_eq htaken hne'
  refine ⟨heap, ptr, heap', ptr', hcall, hne, fun hlive => ?_, hcalloc, hne', fun hlive => ?_⟩
  · rcases inv.kmalloc_takes hcall with ⟨-, hnull⟩ | ⟨-, blocks', t⟩
    · exact hne hnull
    · have := t.payload_lt (fun _ _ => rfl) hlive
      omega
  · rcases inv.kmalloc_takes htaken with ⟨-, hnull⟩ | ⟨-, blocks', t⟩
    · exact hne' hnull
    · have := t.payload_lt hsame hlive
      omega

end CustomKernel.Memory
