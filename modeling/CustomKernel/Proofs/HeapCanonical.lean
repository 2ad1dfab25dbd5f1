/-
Module: CustomKernel.Proofs.HeapCanonical
Layer: Proofs
Purpose: The kernel heap forgets its history. The block list is a tiling without free neighbours, so
  it is the list that fills the heap around the blocks in use; a `kfree` takes one block out of use
  and changes no other, and a `kmalloc` puts one in use. Hence frees commute, a `kfree` undoes the
  `kmalloc` before it, and freeing everything gives back the heap of `heap_init`.
Imports: CustomKernel.Proofs.KernelHeap
Trusted boundary: none (fully proved)
Main exports: KernelHeap.blocks, KernelHeapInv.blocks_eq, KernelHeapInv.canonical, Takes, kfreeAll,
  kernel_heap_canonical
-/
import CustomKernel.Proofs.KernelHeap

namespace CustomKernel.Memory

open ByteMemory BlockList StepSystem

/-! ### The block list in memory -/

/-- The blocks found by following `next` from `curr` on. -/
def readBlocks (mem : ByteMem) : (fuel : Nat) → (curr : Word) → List Block
  | 0, _ => []
  | fuel + 1, curr =>
      if curr = 0#64 then []
      else ⟨curr.toNat, (blockSize mem curr).toNat, blockFree mem curr ≠ 0#32⟩ ::
        readBlocks mem fuel (blockNext mem curr)

/-- The block list: there are no more blocks than bytes in the heap. -/
def KernelHeap.blocks (h : KernelHeap) : List Block := readBlocks h.mem (heapHi - heapLo) h.heapHead

theorem readBlocks_eq {mem : ByteMem} : ∀ {fuel prev lo hi : Nat} {curr : Word} {rest : List Block},
    0 < lo → Ordered 24 lo hi rest → curr.toNat = firstAddr rest 0 →
    Linked (HeaderAt mem) prev rest 0 → rest.length ≤ fuel → readBlocks mem fuel curr = rest
  | 0, _, _, _, _, rest, _, _, _, _, hfuel => by
      rw [List.length_eq_zero_iff.1 (Nat.le_zero.1 hfuel)]
      rfl
  | fuel + 1, prev, lo, hi, curr, rest, hlo, hord, hcurr, hlinked, hfuel => by
      have hnull := pointer_eq_zero hlo hord hcurr
      rw [readBlocks]
      cases rest with
      | nil => rw [if_pos (hnull.2 rfl)]
      | cons b rest =>
          have hheader := hlinked.1
          have hstop : 0 < b.stop 24 := by
            unfold Block.stop
            omega
          have hrest := readBlocks_eq hstop hord.2 (hheader.blockNext_eq hcurr) hlinked.2
            (Nat.le_of_succ_le_succ hfuel)
          have hfree : decide (blockFree mem curr ≠ 0#32) = b.free := by
            rw [Bool.eq_iff_iff, decide_eq_true_iff]
            exact hheader.blockFree_ne hcurr
          have hhead : curr.toNat = b.addr := hcurr
          rw [if_neg (fun h => by cases hnull.1 h), hrest, hheader.blockSize_eq hcurr, hfree, hhead]

section Canonical

variable {s s' : HeapHistory} {blocks blocks' : List Block}

/-- The list in memory is the one of the invariant. -/
theorem KernelHeapInv.blocks_eq (inv : KernelHeapInv s blocks) : s.heap.blocks = blocks := by
  refine readBlocks_eq (by decide) inv.rep.ordered ?_ inv.rep.linked
    (inv.rep.ordered.length_le (by decide))
  obtain ⟨first, rest, hblocks, haddr⟩ := inv.rep.cons
  rw [inv.head, hblocks]
  exact haddr.symm

/-- The list is determined by the blocks in use. -/
theorem KernelHeapInv.canonical (inv : KernelHeapInv s blocks) :
    blocks = fill 24 heapLo heapHi (inUse blocks) :=
  inv.rep.tiles.eq_fill (by decide) inv.separated

theorem KernelHeapInv.blocks_congr (inv : KernelHeapInv s blocks) (inv' : KernelHeapInv s' blocks')
    (huse : inUse blocks = inUse blocks') : s.heap.blocks = s'.heap.blocks := by
  rw [inv.blocks_eq, inv'.blocks_eq, inv.canonical, inv'.canonical, huse]

/-! ### Undoing and reordering -/

/-- What an allocation adds to a heap: a live pointer, and one block in use with room for `size`
    bytes behind it. -/
structure Takes (s : HeapHistory) (blocks : List Block) (size : Nat) (ptr : Word)
    (heap : KernelHeap) (blocks' : List Block) : Prop where
  inv : KernelHeapInv ⟨heap, ptr :: s.live⟩ blocks'
  rest : ((inUse blocks').filter fun b => b.addr + 24 ≠ ptr.toNat) = inUse blocks
  room : ∃ pre b post, blocks' = pre ++ b :: post ∧ ptr.toNat = b.addr + 24 ∧ size ≤ b.size

/-- The payload is the caller's. -/
theorem Takes.payload {size : Nat} {ptr : Word} {heap : KernelHeap}
    (t : Takes s blocks size ptr heap blocks') {mem : ByteMem}
    (hsame : ∀ a, a < ptr.toNat ∨ ptr.toNat + size ≤ a → mem a = heap.mem a) :
    Takes s blocks size ptr { heap with mem := mem } blocks' := by
  obtain ⟨pre, b, post, rfl, hptr, hsize⟩ := t.room
  refine ⟨⟨t.inv.head, t.inv.rep.payload fun a ha => hsame a ?_, t.inv.separated, t.inv.live⟩,
    t.rest, t.room⟩
  unfold Block.stop at ha
  omega

/-- The blocks that were in use are in use. -/
theorem Takes.inUse_sub {size : Nat} {ptr : Word} {heap : KernelHeap}
    (t : Takes s blocks size ptr heap blocks') : inUse blocks ⊆ inUse blocks' := by
  rw [← t.rest]
  exact List.filter_subset_self _

/-- Work on the payload leaves them alone. -/
theorem Takes.payload_kept {size : Nat} {ptr : Word} {heap : KernelHeap}
    (t : Takes s blocks size ptr heap blocks') {mem : ByteMem}
    (hsame : ∀ a, a < ptr.toNat ∨ ptr.toNat + size ≤ a → mem a = heap.mem a) :
    BytesKept (inUse blocks) heap.mem mem := by
  obtain ⟨pre, b, post, rfl, hptr, hsize⟩ := t.room
  refine t.inv.rep.bytesKept (fun a ha => hsame a ?_) fun d hd => ?_
  · unfold Block.stop at ha
    omega
  · rw [← t.rest] at hd
    obtain ⟨hd, hne⟩ := List.mem_filter.1 hd
    refine ⟨(mem_inUse.1 hd).1, ?_⟩
    rintro rfl
    exact of_decide_eq_true hne hptr.symm

/-- What was live is still live when the new pointer is gone. -/
theorem Takes.kept {size : Nat} {ptr other : Word} {heap : KernelHeap}
    (t : Takes s blocks size ptr heap blocks') (inv : KernelHeapInv s blocks)
    (hother : other ∈ s.live) : other ∈ (ptr :: s.live).filter (· ≠ ptr) := by
  refine List.mem_filter.2 ⟨List.mem_cons_of_mem _ hother, decide_eq_true ?_⟩
  rintro rfl
  obtain ⟨b, hb, haddr⟩ := (inv.live other).1 hother
  rw [← t.rest] at hb
  exact of_decide_eq_true (List.mem_filter.1 hb).2 haddr.symm

/-- `kmalloc` does nothing or takes a block. -/
theorem KernelHeapInv.kmalloc_takes (inv : KernelHeapInv s blocks) {fuel : Nat} {size ptr : Word}
    {heap : KernelHeap} (hmalloc : Memory.kmalloc fuel s.heap size = some (heap, ptr)) :
    (heap = s.heap ∧ ptr = 0#64) ∨
      ptr ≠ 0#64 ∧ ∃ blocks', Takes s blocks (align8 size).toNat ptr heap blocks' := by
  rcases inv.kmalloc hmalloc with hnull | ⟨pre, b, post, rfl, hfree, hfit, hhead, hptr, hrep⟩
  · exact .inl hnull
  have hne : ptr ≠ 0#64 := by
    rintro rfl
    rw [BitVec.toNat_ofNat] at hptr
    omega
  have inv₁ := inv.allocated _ hfree hhead hptr hrep
  rw [if_neg hne] at inv₁
  refine .inr ⟨hne, _, inv₁, ?_, ?_⟩
  · -- the block taken is the only one at its address
    obtain ⟨u, rest, hcut, haddr, hfalse, hrest⟩ := cut_inUse 24 9 (align8 size).toNat b
    have hord := inv₁.rep.ordered
    rw [hcut, List.cons_append] at hord ⊢
    rw [hptr, ← haddr, inUse_append pre (b :: post), inUse_cons_free hfree]
    have hfilter := inUse_filter_ne (by decide) hord hfalse
    rw [inUse_append, hrest, List.nil_append] at hfilter
    rw [hfilter]
    exact List.filter_congr fun c _ => decide_eq_decide.2 (not_congr Nat.add_right_cancel_iff)
  · obtain ⟨u, rest, hcut, haddr, -, hsize⟩ := @cut_cons 24 9 _ _ hfit
    exact ⟨pre, u, rest ++ post, by rw [hcut, List.cons_append], by rw [haddr]; exact hptr, hsize⟩

/-- `kcalloc` does nothing or takes a block, which it zeroes. -/
theorem KernelHeapInv.kcalloc_takes (inv : KernelHeapInv s blocks) {fuel : Nat} {n size ptr : Word}
    {heap : KernelHeap} (hfit : (n * size).toNat ≤ (align8 (n * size)).toNat)
    (hcalloc : Memory.kcalloc fuel s.heap n size = some (heap, ptr)) :
    (heap = s.heap ∧ ptr = 0#64) ∨
      ptr ≠ 0#64 ∧ ∃ blocks', Takes s blocks (align8 (n * size)).toNat ptr heap blocks' := by
  obtain ⟨⟨heap', ptr'⟩, hcall, hcalloc⟩ := Option.bind_eq_some_iff.1 hcalloc
  rcases inv.kmalloc_takes hcall with ⟨rfl, rfl⟩ | ⟨hne, blocks', t⟩
  · cases hcalloc
    exact .inl ⟨rfl, rfl⟩
  · simp only [if_neg hne] at hcalloc
    cases hcalloc
    exact .inr ⟨hne, blocks', t.payload fun a ha => zero_loop_outside (by omega)⟩

/-- An allocation leaves the blocks in use alone. -/
theorem KernelHeapInv.kmalloc_kept (inv : KernelHeapInv s blocks) {fuel : Nat} {size ptr : Word}
    {heap : KernelHeap} (hmalloc : Memory.kmalloc fuel s.heap size = some (heap, ptr)) :
    BytesKept (inUse blocks) s.heap.mem heap.mem := by
  by_cases hzero : size = 0#64
  · unfold Memory.kmalloc at hmalloc
    rw [if_pos hzero] at hmalloc
    cases hmalloc
    exact .refl _ _
  · rcases inv.kmalloc_first hzero hmalloc with
      ⟨-, rfl, -⟩ | ⟨pre, b, post, rfl, hfind, -, -, -, hsame⟩
    · exact .refl _ _
    · have hfits : b.fits (align8 size).toNat = true := List.find?_some hfind
      exact inv.rep.inUse_kept (Bool.and_eq_true_iff.1 hfits).1 hsame

theorem KernelHeapInv.kcalloc_kept (inv : KernelHeapInv s blocks) {fuel : Nat} {n size ptr : Word}
    {heap : KernelHeap} (hfit : (n * size).toNat ≤ (align8 (n * size)).toNat)
    (hcalloc : Memory.kcalloc fuel s.heap n size = some (heap, ptr)) :
    BytesKept (inUse blocks) s.heap.mem heap.mem := by
  obtain ⟨⟨heap', ptr'⟩, hcall, hcalloc⟩ := Option.bind_eq_some_iff.1 hcalloc
  have hkept := inv.kmalloc_kept hcall
  rcases inv.kmalloc_takes hcall with ⟨rfl, rfl⟩ | ⟨hne, blocks', t⟩
  · cases hcalloc
    exact hkept
  · simp only [if_neg hne] at hcalloc
    cases hcalloc
    exact hkept.trans (t.payload_kept fun a ha => zero_loop_outside (by omega))

/-- A `kfree` of the pointer gives back what was in use. -/
theorem Takes.kfree {size fuel : Nat} {ptr : Word} {heap heap' : KernelHeap}
    (t : Takes s blocks size ptr heap blocks') (hfree : Memory.kfree fuel heap ptr = some heap') :
    ∃ blocks'', KernelHeapInv ⟨heap', (ptr :: s.live).filter (· ≠ ptr)⟩ blocks'' ∧
      inUse blocks'' = inUse blocks ∧ BytesKept (inUse blocks) heap.mem heap'.mem := by
  obtain ⟨blocks'', inv, huse, hkept⟩ := t.inv.kfree_kept List.mem_cons_self hfree
  have huse' := huse.trans t.rest
  rw [huse'] at hkept
  exact ⟨blocks'', inv, huse', hkept⟩

/-- A `kfree` of what `kmalloc` returned: the block in use is gone again. -/
theorem KernelHeapInv.kmalloc_kfree (inv : KernelHeapInv s blocks) {fuel : Nat} {size ptr : Word}
    {heap : KernelHeap} (hfuel : heapHi - heapLo < fuel)
    (hmalloc : Memory.kmalloc fuel s.heap size = some (heap, ptr)) :
    ∃ heap', Memory.kfree fuel heap ptr = some heap' ∧ heap'.blocks = s.heap.blocks := by
  rcases inv.kmalloc_takes hmalloc with ⟨rfl, rfl⟩ | ⟨-, blocks', t⟩
  · exact ⟨s.heap, if_pos rfl, rfl⟩
  · obtain ⟨heap', hrun⟩ := t.inv.kfree_returns hfuel (.inr List.mem_cons_self)
    obtain ⟨blocks'', inv', huse, -⟩ := t.kfree hrun
    exact ⟨heap', hrun, inv'.blocks_congr inv huse⟩

/-- `kfree` of several pointers, one after the other. -/
def kfreeAll (fuel : Nat) : (ptrs : List Word) → KernelHeap → Option KernelHeap
  | [], h => some h
  | ptr :: ptrs, h => kfree fuel h ptr >>= kfreeAll fuel ptrs

/-- What freeing several live pointers leaves in use. -/
theorem KernelHeapInv.kfreeAll {fuel : Nat} (hfuel : heapHi - heapLo < fuel) :
    ∀ {ptrs : List Word} {s : HeapHistory} {blocks : List Block}, KernelHeapInv s blocks →
      ptrs.Nodup → (∀ ptr ∈ ptrs, ptr ∈ s.live) →
      ∃ heap live' blocks', Memory.kfreeAll fuel ptrs s.heap = some heap ∧
        KernelHeapInv ⟨heap, live'⟩ blocks' ∧
        inUse blocks' = (inUse blocks).filter fun b => ∀ ptr ∈ ptrs, b.addr + 24 ≠ ptr.toNat
  | [], s, blocks, inv, _, _ => by
      refine ⟨s.heap, s.live, blocks, rfl, inv, ?_⟩
      simp
  | ptr :: ptrs, s, blocks, inv, hnodup, hlive => by
      obtain ⟨hnot, hnodup⟩ := List.nodup_cons.1 hnodup
      have hfirst := hlive ptr List.mem_cons_self
      obtain ⟨heap, hrun⟩ := inv.kfree_returns hfuel (.inr hfirst)
      obtain ⟨blocks₁, inv₁, huse₁⟩ := inv.kfree hfirst hrun
      obtain ⟨heap', live', blocks', hrest, inv', huse'⟩ := KernelHeapInv.kfreeAll hfuel inv₁ hnodup
        fun p hp => List.mem_filter.2 ⟨hlive p (List.mem_cons_of_mem _ hp), by
          refine decide_eq_true ?_
          rintro rfl
          exact hnot hp⟩
      refine ⟨heap', live', blocks', ?_, inv', ?_⟩
      · show Memory.kfree fuel s.heap ptr >>= _ = _
        rw [hrun]
        exact hrest
      · rw [huse', huse₁, List.filter_filter]
        refine List.filter_congr fun b _ => ?_
        rw [Bool.eq_iff_iff]
        simp only [Bool.and_eq_true, decide_eq_true_eq, List.forall_mem_cons]
        exact and_comm

/-- Freeing all live pointers leaves nothing in use. -/
theorem KernelHeapInv.kfreeAll_live (inv : KernelHeapInv s blocks) {fuel : Nat}
    (hfuel : heapHi - heapLo < fuel) {order : List Word} (hnodup : order.Nodup)
    (hlive : ∀ ptr, ptr ∈ order ↔ ptr ∈ s.live) :
    ∃ heap, Memory.kfreeAll fuel order s.heap = some heap ∧
      heap.blocks = [⟨heapLo, heapHi - heapLo - 24, true⟩] := by
  obtain ⟨heap, live', blocks', hrun, inv', huse⟩ :=
    KernelHeapInv.kfreeAll hfuel inv hnodup fun ptr hptr => (hlive ptr).1 hptr
  have hnone : inUse blocks' = [] := by
    rw [huse, List.filter_eq_nil_iff]
    intro b hb hkept
    -- the payload of every block in use is live, hence among those freed
    have hbound := (inv.rep.bounds (mem_inUse.1 hb).1).2
    unfold heapHi at hbound
    have hptr : (BitVec.ofNat 64 (b.addr + 24) : Word).toNat = b.addr + 24 := by
      rw [BitVec.toNat_ofNat]
      omega
    have hmem := (hlive _).2 ((inv.live (BitVec.ofNat 64 (b.addr + 24))).2 ⟨b, hb, hptr⟩)
    exact of_decide_eq_true hkept _ hmem hptr.symm
  refine ⟨heap, hrun, ?_⟩
  rw [show heap.blocks = blocks' from inv'.blocks_eq, inv'.canonical, hnone]
  rfl

end Canonical

/-! ### The main result -/

/-- After `heap_init` and any history, the block list consists of the live blocks in address order
    with one free block in each gap, so that states with the same live blocks have the same list.
    Two frees commute, a `kfree` undoes the `kmalloc` before it, and freeing all live pointers in any
    order gives back the one block of `heap_init`. -/
theorem kernel_heap_canonical (mem : ByteMem) (calls : List HeapCall) (s : HeapHistory)
    (run : Run HeapHistoryStep ⟨heapInit mem, []⟩ calls s) :
    (s.heap.blocks = fill 24 heapLo heapHi (inUse s.heap.blocks) ∧
      LivePointers s.live s.heap.blocks ∧
      ∀ (mem' : ByteMem) (calls' : List HeapCall) (s' : HeapHistory),
        Run HeapHistoryStep ⟨heapInit mem', []⟩ calls' s' →
        (∀ b, b ∈ inUse s'.heap.blocks ↔ b ∈ inUse s.heap.blocks) →
          s'.heap.blocks = s.heap.blocks) ∧
      ∀ fuel, heapHi - heapLo < fuel →
        (∀ a ∈ s.live, ∀ b ∈ s.live, a ≠ b → ∃ h h', kfreeAll fuel [a, b] s.heap = some h ∧
          kfreeAll fuel [b, a] s.heap = some h' ∧ h.blocks = h'.blocks) ∧
        (∀ size, ∃ h ptr h', kmalloc fuel s.heap size = some (h, ptr) ∧
          kfree fuel h ptr = some h' ∧ h'.blocks = s.heap.blocks) ∧
        ∀ order : List Word, order.Nodup → (∀ ptr, ptr ∈ order ↔ ptr ∈ s.live) →
          ∃ h, kfreeAll fuel order s.heap = some h ∧
            h.blocks = [⟨heapLo, 4 * 1024 * 1024 - 24, true⟩] := by
  obtain ⟨blocks, inv⟩ := KernelHeapInv.of_history run
  refine ⟨⟨?_, ?_, fun mem' calls' s' run' hsame => ?_⟩, fun fuel hfuel =>
    ⟨fun a ha b hb hne => ?_, fun size => ?_, fun order hnodup hlive =>
      inv.kfreeAll_live hfuel hnodup hlive⟩⟩
  · rw [inv.blocks_eq]
    exact inv.canonical
  · rw [inv.blocks_eq]
    exact inv.live
  · obtain ⟨blocks', inv'⟩ := KernelHeapInv.of_history run'
    rw [inv.blocks_eq, inv'.blocks_eq] at hsame
    exact inv'.blocks_congr inv
      (inv'.rep.ordered.inUse_ext (by decide) inv.rep.ordered hsame)
  · have hpair : ∀ {x y : Word}, x ≠ y → x ∈ s.live → y ∈ s.live →
        [x, y].Nodup ∧ ∀ ptr ∈ [x, y], ptr ∈ s.live := by
      intro x y hxy hx hy
      refine ⟨by simp [hxy], fun ptr hptr => ?_⟩
      rcases List.mem_pair.1 hptr with rfl | rfl
      · exact hx
      · exact hy
    obtain ⟨hnodup, hmem⟩ := hpair hne ha hb
    obtain ⟨hnodup', hmem'⟩ := hpair (Ne.symm hne) hb ha
    obtain ⟨h, _, _, hrun, inv₁, huse₁⟩ := KernelHeapInv.kfreeAll hfuel inv hnodup hmem
    obtain ⟨h', _, _, hrun', inv₂, huse₂⟩ := KernelHeapInv.kfreeAll hfuel inv hnodup' hmem'
    refine ⟨h, h', hrun, hrun', inv₁.blocks_congr inv₂ ?_⟩
    rw [huse₁, huse₂]
    refine List.filter_congr fun c _ => decide_eq_decide.2 ?_
    simp only [List.forall_mem_cons, List.not_mem_nil, false_implies, implies_true, and_true]
    exact and_comm
  · obtain ⟨h, ptr, hmalloc⟩ := inv.kmalloc_returns hfuel size
    obtain ⟨h', hfree, hblocks⟩ := inv.kmalloc_kfree hfuel hmalloc
    exact ⟨h, ptr, h', hmalloc, hfree, hblocks⟩

/-- The blocks of the heap in use: the second and the last one are free. -/
theorem usedHeap_blocks : usedHeap.heap.blocks =
    [⟨0xC0000000, 40, false⟩, ⟨0xC0000040, 128, true⟩, ⟨0xC00000D8, 8, false⟩,
      ⟨0xC00000F8, 4194032, true⟩] := by
  decide +kernel

/-- Its two live blocks freed in either order. -/
theorem kernel_heap_canonical_two_orders : ∃ h h',
    kfreeAll (heapHi - heapLo + 1) [0xC0000018#64, 0xC00000F0#64] usedHeap.heap = some h ∧
      kfreeAll (heapHi - heapLo + 1) [0xC00000F0#64, 0xC0000018#64] usedHeap.heap = some h' ∧
      h.blocks = h'.blocks ∧ h.blocks = [⟨heapLo, 4 * 1024 * 1024 - 24, true⟩] := by
  obtain ⟨-, hfree⟩ := kernel_heap_canonical (fun _ => 0#8) _ _ usedHeap_run
  obtain ⟨-, -, hall⟩ := hfree (heapHi - heapLo + 1) (Nat.lt_succ_self _)
  rw [usedHeap_live] at hall
  obtain ⟨h, hrun, hone⟩ := hall [0xC0000018#64, 0xC00000F0#64] (by decide) fun _ => Iff.rfl
  obtain ⟨h', hrun', hone'⟩ := hall [0xC00000F0#64, 0xC0000018#64] (by decide) fun ptr => by
    rw [List.mem_pair, List.mem_pair, or_comm]
  exact ⟨h, h', hrun, hrun', hone.trans hone'.symm, hone⟩

end CustomKernel.Memory
