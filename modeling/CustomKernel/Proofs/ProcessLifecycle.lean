/-
Module: CustomKernel.Proofs.ProcessLifecycle
Layer: Proofs
Purpose: What the process constructors give back. `process_alloc` takes two blocks of the kernel heap,
  and `process_destroy` frees both, which restores the block list whatever was written to the kernel
  stack in between. The address space is another matter: neither the exits of the constructors behind
  `vmm_create_address_space` nor `process_destroy` give a frame back, so the frame of the PML4 at
  least is gone. So `process_create` conserves what there was, and the other two constructors do so
  exactly if they fail before there is an address space.
Imports: CustomKernel.Proofs.HeapCanonical, CustomKernel.Proofs.LoaderRuns
Trusted boundary: as in SystemRuns: the kernel heap, the descriptors and the archive are beside
  physical memory
Main exports: KernelState, Conserved, HoldsProcess, processDestroy_restores, NoSpace, NotLoadable,
  process_lifecycle, created_process_leaks
-/
import CustomKernel.Proofs.HeapCanonical
import CustomKernel.Proofs.LoaderRuns

namespace CustomKernel

open Memory Filesystem Syscall Loops StepSystem ByteMemory

/-! ### Conservation -/

/-- A state of the kernel: its heap and its frames are what the initialisation and some history of
    calls have left. -/
structure KernelState (image : KernelImage) (k : Kernel) : Prop where
  heap : ∃ mem calls live, Run HeapHistoryStep ⟨heapInit mem, []⟩ calls ⟨k.heap, live⟩
  pmm : ∃ calls allocated, Run PmmStep ⟨pmmInit image, ∅⟩ calls ⟨k.vmm.pmm, allocated⟩

/-- The table of open files. A slot that is not in use holds nothing. -/
def openFiles (d : Ramdisk) (i : Nat) : Option FdEntry :=
  if (d.fds i).inUse then some (d.fds i) else none

/-- The state a constructor should leave when it returns `NULL`. -/
structure Unchanged (k k' : Kernel) : Prop where
  blocks : k'.heap.blocks = k.heap.blocks
  pmm : k'.vmm.pmm = k.vmm.pmm
  files : openFiles k'.disk = openFiles k.disk
  cr3 : k'.vmm.cr3 = k.vmm.cr3

/-- What a constructor called in `k` should leave behind: nothing if it returns `NULL`, and nothing
    that `process_destroy` does not give back otherwise. -/
def Conserved (k : Kernel) : Kernel × Option NewProcess → Prop
  | (k', none) => Unchanged k k'
  | (k', some p) => ∀ fuel, heapHi - heapLo < fuel → ∃ k'', processDestroy fuel k' p = .ok k'' ∧
      k''.heap.blocks = k.heap.blocks ∧ pmmFreeFrames k''.vmm.pmm = pmmFreeFrames k.vmm.pmm

theorem KernelState.heapInv {image : KernelImage} {k : Kernel} (h : KernelState image k) :
    ∃ live blocks, KernelHeapInv ⟨k.heap, live⟩ blocks := by
  obtain ⟨mem, calls, live, run⟩ := h.heap
  obtain ⟨blocks, inv⟩ := KernelHeapInv.of_history run
  exact ⟨live, blocks, inv⟩

theorem KernelState.pmmInv {image : KernelImage} {k : Kernel} (h : KernelState image k) :
    k.vmm.pmm.Counted ∧ 0 ∉ k.vmm.pmm.freeSet := by
  obtain ⟨calls, allocated, run⟩ := h.pmm
  have inv := PmmInv.of_run run
  exact ⟨inv.counted, fun hzero => ((inv.free_iff 0).1 hzero).2.1 (.inl (by decide))⟩

theorem openFiles_kept {d d' : Ramdisk} (h : FilesKept d d') : openFiles d' = openFiles d := by
  obtain ⟨-, -, hinUse, slot, hsame⟩ := h
  funext i
  unfold openFiles
  rw [hinUse i]
  split
  · rename_i huse
    rw [hsame i (.inr huse)]
  · rfl

/-! ### The descriptor and the kernel stack -/

/-- The heap with a descriptor and a kernel stack besides what is in use in `s`. -/
def HoldsProcess (s : HeapHistory) (blocks : List BlockList.Block) (address kernelStack : Word)
    (heap : KernelHeap) : Prop :=
  ∃ heap₁ blocks₁ blocks₂, Takes s blocks 232 address heap₁ blocks₁ ∧
    Takes ⟨heap₁, address :: s.live⟩ blocks₁ 16384 (kernelStack - kernelStackSize) heap blocks₂

section Descriptor

variable {s : HeapHistory} {blocks : List BlockList.Block} {fuel : Nat} {k k' : Kernel}
  {address kernelStack : Word} {heap : KernelHeap}

/-- `process_alloc` leaves the block list as it was or takes the two blocks. -/
theorem processAlloc_holds {live : List Word} {new : Option NewProcess}
    (inv : KernelHeapInv ⟨k.heap, live⟩ blocks) (h : processAlloc fuel k = .ok (k', new)) :
    match new with
    | none => k'.heap.blocks = k.heap.blocks
    | some p => HoldsProcess ⟨k.heap, live⟩ blocks p.address p.proc.kernelStack k'.heap := by
  unfold processAlloc at h
  obtain ⟨⟨heap₁, proc⟩, hcalloc, h⟩ := bind_ok h
  have hproc := inv.kcalloc_takes (by decide) (orEndless_ok hcalloc)
  dsimp only at h
  split at h
  · rename_i hnull
    cases h
    rcases hproc with ⟨hsame, -⟩ | ⟨hne, -⟩
    · exact congrArg KernelHeap.blocks hsame
    · exact absurd hnull hne
  · rename_i hne
    obtain ⟨-, blocks₁, t₁⟩ := hproc.resolve_left fun hnull => hne hnull.2
    obtain ⟨⟨heap₂, kstack⟩, hkmalloc, h⟩ := bind_ok h
    have hkstack := t₁.inv.kmalloc_takes (orEndless_ok hkmalloc)
    dsimp only at h
    split at h
    · rename_i hnull
      obtain ⟨heap₃, hkfree, h⟩ := bind_ok h
      cases h
      rcases hkstack with ⟨rfl, -⟩ | ⟨hne, -⟩
      · obtain ⟨blocks₃, inv₃, huse, -⟩ := t₁.kfree (orEndless_ok hkfree)
        exact inv₃.blocks_congr inv huse
      · exact absurd hnull hne
    · rename_i hne'
      cases h
      obtain ⟨-, blocks₂, t₂⟩ := hkstack.resolve_left fun hnull => hne' hnull.2
      refine ⟨heap₁, blocks₁, blocks₂, t₁, ?_⟩
      rw [BitVec.add_sub_cancel]
      exact t₂

/-- The words that are pushed lie below the stack pointer. -/
theorem pushContext_outside : ∀ (words : List Word) (heap : KernelHeap) (sp : Word),
    8 * words.length ≤ sp.toNat →
      (pushContext heap sp words).1.heapHead = heap.heapHead ∧
      ∀ a, a < sp.toNat - 8 * words.length ∨ sp.toNat ≤ a →
        (pushContext heap sp words).1.mem a = heap.mem a
  | [], heap, sp, _ => ⟨rfl, fun _ _ => rfl⟩
  | word :: words, heap, sp, hroom => by
      rw [List.length_cons] at hroom ⊢
      have hsp : (sp - 8#64).toNat = sp.toNat - 8 := by
        rw [BitVec.toNat_sub_of_le (by rw [BitVec.le_def, BitVec.toNat_ofNat]; omega),
          BitVec.toNat_ofNat]
      obtain ⟨hhead, hmem⟩ := pushContext_outside words
        { heap with mem := store 8 (sp - 8#64).toNat word.toNat heap.mem } (sp - 8#64) (by omega)
      refine ⟨hhead, fun a ha => ?_⟩
      show (pushContext _ (sp - 8#64) words).1.mem a = heap.mem a
      rw [hmem a (by omega)]
      exact store_outside (by omega)

/-- Where the kernel stack starts. -/
theorem HoldsProcess.toNat_kernelStack (h : HoldsProcess s blocks address kernelStack heap) :
    kernelStack.toNat = (kernelStack - kernelStackSize).toNat + 16384 := by
  obtain ⟨heap₁, blocks₁, blocks₂, -, t₂⟩ := h
  obtain ⟨pre, b, post, hlist, hptr, hsize⟩ := t₂.room
  have hbound := t₂.inv.rep.bounds (show b ∈ blocks₂ by rw [hlist]; simp)
  have hadd : kernelStack = kernelStack - kernelStackSize + kernelStackSize := by
    rw [BitVec.sub_add_cancel]
  rw [hadd, BitVec.toNat_add, BitVec.add_sub_cancel, hptr,
    show kernelStackSize.toNat = 16384 from rfl]
  unfold heapHi at hbound
  omega

/-- The initial stack frame is inside the kernel stack. -/
theorem HoldsProcess.pushed (h : HoldsProcess s blocks address kernelStack heap)
    (words : List Word) (hlen : words.length ≤ 2048) :
    (CustomKernel.pushContext heap kernelStack words).1.heapHead = heap.heapHead ∧
      ∀ a, a < (kernelStack - kernelStackSize).toNat ∨
          (kernelStack - kernelStackSize).toNat + 16384 ≤ a →
        (CustomKernel.pushContext heap kernelStack words).1.mem a = heap.mem a := by
  have htop := h.toNat_kernelStack
  obtain ⟨hhead, hmem⟩ := pushContext_outside words heap kernelStack (by omega)
  exact ⟨hhead, fun a ha => hmem a (by omega)⟩

theorem HoldsProcess.pushContext (h : HoldsProcess s blocks address kernelStack heap)
    (words : List Word) (hlen : words.length ≤ 2048) :
    HoldsProcess s blocks address kernelStack (CustomKernel.pushContext heap kernelStack words).1 := by
  obtain ⟨hhead, hmem⟩ := h.pushed words hlen
  obtain ⟨heap₁, blocks₁, blocks₂, t₁, t₂⟩ := h
  refine ⟨heap₁, blocks₁, blocks₂, t₁, ?_⟩
  have hpushed := t₂.payload hmem
  rw [← hhead] at hpushed
  exact hpushed

/-- `process_destroy` gives the two blocks back, and touches nothing but the heap. -/
theorem processDestroy_restores {p : NewProcess} (inv : KernelHeapInv s blocks)
    (h : HoldsProcess s blocks p.address p.proc.kernelStack k.heap)
    (hdestroy : processDestroy fuel k p = .ok k') :
    k'.heap.blocks = s.heap.blocks ∧ k'.vmm = k.vmm ∧ k'.disk = k.disk := by
  obtain ⟨heap₁, blocks₁, blocks₂, t₁, t₂⟩ := h
  obtain ⟨heap₃, hfree₁, hdestroy⟩ := bind_ok hdestroy
  obtain ⟨heap₄, hfree₂, hdestroy⟩ := bind_ok hdestroy
  cases hdestroy
  obtain ⟨blocks₃, inv₃, huse₃, -⟩ := t₂.kfree (orEndless_ok hfree₁)
  obtain ⟨blocks₄, inv₄, huse₄⟩ :=
    inv₃.kfree (t₂.kept t₁.inv List.mem_cons_self) (orEndless_ok hfree₂)
  refine ⟨inv₄.blocks_congr inv ?_, rfl, rfl⟩
  rw [huse₄, huse₃, t₁.rest]

/-- It comes back. -/
theorem processDestroy_returns {p : NewProcess}
    (h : HoldsProcess s blocks p.address p.proc.kernelStack k.heap)
    (hfuel : heapHi - heapLo < fuel) : ∃ k', processDestroy fuel k p = .ok k' := by
  obtain ⟨heap₁, blocks₁, blocks₂, t₁, t₂⟩ := h
  obtain ⟨heap₃, hfree₁⟩ := t₂.inv.kfree_returns hfuel (.inr List.mem_cons_self)
  obtain ⟨blocks₃, inv₃, huse₃, -⟩ := t₂.kfree hfree₁
  obtain ⟨heap₄, hfree₂⟩ :=
    inv₃.kfree_returns hfuel (.inr (t₂.kept t₁.inv (List.mem_cons_self (a := p.address))))
  refine ⟨{ k with heap := heap₄ }, ?_⟩
  unfold processDestroy
  dsimp only at hfree₁ hfree₂
  rw [hfree₁]
  show (orEndless (kfree fuel heap₃ p.address) >>= _) = _
  rw [hfree₂]
  rfl

end Descriptor

/-! ### The address space -/

section Space

variable {fuel : Nat} {k k' : Kernel} {new : Option NewProcess}

/-- There is no address space to be had: the kernel heap has no room for the descriptor and the
    stack, or no frame is free. -/
def NoSpace (fuel : Nat) (k : Kernel) : Prop :=
  (∃ k', processAlloc fuel k = .ok (k', none)) ∨ k.vmm.pmm.freeSet = ∅

/-- There is no program to load: the file or a descriptor for it is missing, or its header is not
    supported. -/
def NotLoadable (stale : Stale) (k : Kernel) (path : List Byte) : Prop :=
  ∀ p size, findFile k.disk.image k.disk.length path (k.disk.length / 512 + 1) 0 = some (p, size) →
    freeSlot k.disk.fds = none ∨
      ¬ (fileHeader stale k.disk.image (openedFile p size)).Supported

/-- `vmm_create_address_space` fails if no frame is free, and otherwise takes one. -/
theorem vmmCreateAddressSpace_cases (s : Vmm) (hzero : 0 ∉ s.pmm.freeSet) :
    (s.pmm.freeSet = ∅ ∧ vmmCreateAddressSpace s = (s, 0#64)) ∨
      (vmmCreateAddressSpace s).2 ≠ 0#64 ∧
        ∃ n ∈ s.pmm.freeSet, n ∉ (vmmCreateAddressSpace s).1.pmm.freeSet := by
  unfold vmmCreateAddressSpace
  rcases pmmAlloc_spec s.pmm with ⟨hnull, hnone⟩ | ⟨n, hn, -, halloc⟩
  · rw [hnull]
    exact .inl ⟨hnone, rfl⟩
  · have hne : n * pageSize ≠ 0 := Nat.mul_ne_zero (fun h => hzero (h ▸ hn)) (by decide)
    rw [halloc]
    dsimp only
    rw [if_neg hne]
    refine .inr ⟨?_, n, hn, by simp⟩
    have hlt : n < 65536 := (mem_freeSet.1 hn).1
    intro hnull
    have htoNat := congrArg BitVec.toNat hnull
    rw [framePointer, BitVec.toNat_ofNat, BitVec.toNat_ofNat] at htoNat
    have hpage : pageSize = 4096 := rfl
    rw [hpage] at htoNat hne
    omega

/-- A frame that is taken is not given back. -/
theorem not_conserved {n : Nat} (hcounted : k.vmm.pmm.Counted)
    (hallocs : Allocs k.vmm.pmm k'.vmm.pmm) (hn : n ∈ k.vmm.pmm.freeSet)
    (hused : n ∉ k'.vmm.pmm.freeSet) : ¬ Conserved k (k', new) := by
  have hcard : k'.vmm.pmm.freeSet.card < k.vmm.pmm.freeSet.card :=
    Finset.card_lt_card ⟨hallocs.free, fun hsub => hused (hsub hn)⟩
  cases new with
  | none =>
      intro h
      rw [h.pmm] at hused
      exact hused hn
  | some p =>
      intro h
      obtain ⟨k'', hdestroy, -, hcount⟩ := h (heapHi - heapLo + 1) (Nat.lt_succ_self _)
      obtain ⟨heap₁, -, hdestroy⟩ := bind_ok hdestroy
      obtain ⟨heap₂, -, hdestroy⟩ := bind_ok hdestroy
      cases hdestroy
      have hafter : k'.vmm.pmm.freeFrameCount.toNat = k'.vmm.pmm.freeSet.card :=
        hallocs.counted hcounted
      have hbefore : k.vmm.pmm.freeFrameCount.toNat = k.vmm.pmm.freeSet.card := hcounted
      have hsame : k'.vmm.pmm.freeFrameCount = k.vmm.pmm.freeFrameCount := hcount
      rw [hsame] at hafter
      omega

/-- There is room for a process that `process_alloc` has returned. -/
theorem not_noSpace {p : NewProcess} {n : Nat} (halloc : processAlloc fuel k = .ok (k', some p))
    (hn : n ∈ k.vmm.pmm.freeSet) : ¬ NoSpace fuel k := by
  rintro (⟨k'', hnone⟩ | hempty)
  · rw [halloc] at hnone
    cases hnone
  · rw [hempty] at hn
    cases hn

/-- The heap and the rest behind a `process_alloc` that fails. -/
theorem processAlloc_unchanged {live : List Word} {blocks : List BlockList.Block}
    (inv : KernelHeapInv ⟨k.heap, live⟩ blocks) (h : processAlloc fuel k = .ok (k', none)) :
    Unchanged k k' := by
  obtain ⟨hvmm, hdisk⟩ := processAlloc_frame h
  exact ⟨processAlloc_holds inv h, by rw [hvmm], by rw [hdisk], by rw [hvmm]⟩

/-- And behind a `process_destroy` right after `process_alloc`. -/
theorem processAlloc_destroy_unchanged {live : List Word} {blocks : List BlockList.Block}
    {p : NewProcess} {k'' : Kernel} (inv : KernelHeapInv ⟨k.heap, live⟩ blocks)
    (h : processAlloc fuel k = .ok (k', some p)) (hdestroy : processDestroy fuel k' p = .ok k'') :
    Unchanged k k'' := by
  obtain ⟨hvmm, hdisk⟩ := processAlloc_frame h
  obtain ⟨hblocks, hvmm', hdisk'⟩ := processDestroy_restores inv (processAlloc_holds inv h) hdestroy
  exact ⟨hblocks, by rw [hvmm', hvmm], by rw [hdisk', hdisk], by rw [hvmm', hvmm]⟩

/-- `process_create`. -/
theorem processCreate_conserved {live : List Word} {blocks : List BlockList.Block}
    {fns : Trampolines} {entry : Word} (inv : KernelHeapInv ⟨k.heap, live⟩ blocks)
    (h : processCreate fuel fns k entry = .ok (k', new)) : Conserved k (k', new) := by
  obtain ⟨⟨k₁, proc⟩, halloc, h⟩ := bind_ok h
  cases proc with
  | none =>
      cases h
      exact processAlloc_unchanged inv halloc
  | some p =>
      cases h
      obtain ⟨hvmm, -⟩ := processAlloc_frame halloc
      have hholds := HoldsProcess.pushContext (processAlloc_holds inv halloc) [entry, fns.process]
        (by simp)
      intro fuel' hfuel
      obtain ⟨k'', hdestroy⟩ := @processDestroy_returns _ _ fuel'
        (withStack k₁ p [entry, fns.process]).1 (withStack k₁ p [entry, fns.process]).2 hholds hfuel
      obtain ⟨hblocks, hvmm', -⟩ := processDestroy_restores inv hholds hdestroy
      refine ⟨k'', hdestroy, hblocks, ?_⟩
      rw [hvmm']
      exact congrArg (fun vmm : Vmm => pmmFreeFrames vmm.pmm) hvmm

/-- Frames for the code pages of a user process. -/
theorem mapUserCode_allocs {pageTable entryPhys : Word} {vmm vmm' : Vmm}
    (h : mapUserCode pageTable entryPhys vmm = .ok vmm') : Allocs vmm.pmm vmm'.pmm :=
  forRangeE_invariant (fun _ (t : Vmm) => Allocs vmm.pmm t.pmm) (Nat.zero_le 8) (.refl _)
    (fun _ _ _ _ ht hmap => ht.trans (vmmMapIn_allocs hmap)) h

/-- What `process_create_user` takes behind `vmm_create_address_space`. -/
theorem processCreateUser_created {fns : Trampolines} {entry : Word} {k₁ : Kernel} {p : NewProcess}
    (halloc : processAlloc fuel k = .ok (k₁, some p))
    (hspace : (vmmCreateAddressSpace k.vmm).2 ≠ 0#64)
    (h : processCreateUser fuel fns k entry = .ok (k', new)) :
    Allocs (vmmCreateAddressSpace k.vmm).1.pmm k'.vmm.pmm := by
  obtain ⟨hvmm, -⟩ := processAlloc_frame halloc
  unfold processCreateUser at h
  rw [halloc] at h
  obtain ⟨⟨k₂, proc⟩, hsome, h⟩ := bind_ok h
  cases hsome
  dsimp only at h
  rw [hvmm, if_neg hspace] at h
  obtain ⟨stack, hstack, h⟩ := bind_ok h
  have hstack := mapFreshPages_allocs _ _ _ _ hstack
  split at h
  · obtain ⟨vmm', hcode, h⟩ := bind_ok h
    have hcode := hstack.trans (mapUserCode_allocs hcode)
    split at h
    · cases h
    · split at h
      · cases h
      · cases h
        exact hcode
  · cases h
    exact hstack

/-- `process_create_user`. -/
theorem processCreateUser_conserved {live : List Word} {blocks : List BlockList.Block}
    {fns : Trampolines} {entry : Word} (inv : KernelHeapInv ⟨k.heap, live⟩ blocks)
    (hcounted : k.vmm.pmm.Counted) (hzero : 0 ∉ k.vmm.pmm.freeSet)
    (h : processCreateUser fuel fns k entry = .ok (k', new)) :
    Conserved k (k', new) ↔ NoSpace fuel k := by
  have hcall := h
  unfold processCreateUser at h
  obtain ⟨⟨k₁, proc⟩, halloc, h⟩ := bind_ok h
  obtain ⟨hvmm, -⟩ := processAlloc_frame halloc
  cases proc with
  | none =>
      cases h
      exact iff_of_true (processAlloc_unchanged inv halloc) (.inl ⟨_, halloc⟩)
  | some p =>
      rcases vmmCreateAddressSpace_cases k.vmm hzero with ⟨hempty, hcreate⟩ | ⟨hspace, n, hn, hused⟩
      · dsimp only at h
        rw [hvmm, hcreate] at h
        obtain ⟨k₂, hdestroy, h⟩ := bind_ok h
        rw [← hvmm] at hdestroy
        cases h
        exact iff_of_true (processAlloc_destroy_unchanged inv halloc hdestroy) (.inr hempty)
      · have hallocs := processCreateUser_created halloc hspace hcall
        exact iff_of_false (not_conserved hcounted
          ((vmmCreateAddressSpace_allocs _).trans hallocs) hn fun hfree => hused (hallocs.free hfree))
          (not_noSpace halloc hn)

/-- How far `process_create_elf` gets. -/
theorem processCreateElf_stages {stale : Stale} {fns : Trampolines} {path : List Byte}
    {useLinuxAbi : BitVec 32}
    (h : processCreateElf fuel stale fns k path useLinuxAbi = .ok (k', new)) :
    (NotLoadable stale k path ∧ new = none ∧ k'.heap = k.heap ∧ k'.vmm = k.vmm) ∨
      ¬ NotLoadable stale k path ∧
        ((∃ k₁, processAlloc fuel k = .ok (k₁, none) ∧ new = none ∧ k'.heap = k₁.heap ∧
            k'.vmm = k.vmm) ∨
          ∃ k₁ p d ehdr fd slot, processAlloc fuel k = .ok (k₁, some p) ∧
            openSlot d fd = some slot ∧
            loadElf fuel stale fns ehdr fd useLinuxAbi { k₁ with disk := d } p = .ok (k', new) ∧
            ∃ pos size, findFile k.disk.image k.disk.length path (k.disk.length / 512 + 1) 0 =
              some (pos, size) ∧ ehdr = fileHeader stale k.disk.image (openedFile pos size)) := by
  unfold processCreateElf ramdiskOpen at h
  cases hfind : findFile k.disk.image k.disk.length path (k.disk.length / 512 + 1) 0 with
  | none =>
      rw [hfind] at h
      cases h
      refine .inl ⟨fun p size hfound => ?_, rfl, rfl, rfl⟩
      rw [hfind] at hfound
      cases hfound
  | some file =>
      obtain ⟨p, size⟩ := file
      rw [hfind] at h
      dsimp only at h
      cases hfree : freeSlot k.disk.fds with
      | none =>
          rw [hfree] at h
          cases h
          exact .inl ⟨fun _ _ _ => .inl hfree, rfl, rfl, rfl⟩
      | some slot =>
          rw [hfree] at h
          dsimp only at h
          obtain ⟨hslot, -⟩ := freeSlot_some hfree
          rw [if_neg (by omega)] at h
          obtain ⟨read, hread, h⟩ := bind_ok h
          obtain ⟨hbytes, hsame⟩ := @read_header _ _ p size _ hslot (orEndless_ok hread)
          have hheader : Ehdr.ofBytes (overwrite stale.ehdr read.bytes) =
              fileHeader stale k.disk.image (openedFile p size) := by
            rw [fileHeader, hbytes]
            rfl
          rw [hheader] at h
          split at h
          · rename_i hsupported
            have hloads : ¬ NotLoadable stale k path := by
              intro hnot
              rcases hnot p size hfind with hnone | hbad
              · rw [hfree] at hnone
                cases hnone
              · exact hbad hsupported
            refine .inr ⟨hloads, ?_⟩
            obtain ⟨⟨k₁, proc⟩, halloc, h⟩ := bind_ok h
            obtain ⟨hvmm, hdisk⟩ := processAlloc_frame halloc
            have halloc' := processAlloc_disk halloc k.disk
            cases proc with
            | none =>
                cases h
                exact .inl ⟨_, halloc', rfl, rfl, hvmm⟩
            | some new =>
                refine .inr ⟨_, new, k₁.disk, _, _, slot, halloc', ?_, h, p, size, rfl, rfl⟩
                rw [hdisk]
                exact hsame.openSlot (openSlot_opened hslot)
          · rename_i hbad
            cases h
            refine .inl ⟨fun p' size' hfound => .inr ?_, rfl, rfl, rfl⟩
            rw [hfind] at hfound
            cases hfound
            exact hbad

/-- Without a frame for the PML4 the loader destroys the descriptor again. -/
theorem loadElf_destroys {stale : Stale} {fns : Trampolines} {ehdr : Ehdr} {fd : Int}
    {useLinuxAbi : BitVec 32} {p : NewProcess}
    (hcreate : vmmCreateAddressSpace k.vmm = (k.vmm, 0#64))
    (h : loadElf fuel stale fns ehdr fd useLinuxAbi k p = .ok (k', new)) :
    new = none ∧ ∃ k₁, processDestroy fuel k p = .ok k₁ ∧ k'.heap = k₁.heap ∧ k'.vmm = k₁.vmm := by
  unfold loadElf at h
  rw [hcreate] at h
  obtain ⟨k₁, hdestroy, h⟩ := bind_ok h
  cases h
  exact ⟨rfl, k₁, hdestroy, rfl, rfl⟩

/-- `process_create_elf`. -/
theorem processCreateElf_conserved {live : List Word} {blocks : List BlockList.Block}
    {stale : Stale} {fns : Trampolines} {path : List Byte} {useLinuxAbi : BitVec 32}
    (inv : KernelHeapInv ⟨k.heap, live⟩ blocks) (hcounted : k.vmm.pmm.Counted)
    (hzero : 0 ∉ k.vmm.pmm.freeSet)
    (h : processCreateElf fuel stale fns k path useLinuxAbi = .ok (k', new)) :
    Conserved k (k', new) ↔ NotLoadable stale k path ∨ NoSpace fuel k := by
  have hfiles := openFiles_kept (processCreateElf_cases h).1
  rcases processCreateElf_stages h with ⟨hnot, rfl, hheap, hvmm⟩ |
    ⟨hloads, ⟨k₁, halloc, rfl, hheap, hvmm⟩ | ⟨k₁, p, d, ehdr, fd, slot, halloc, hopen, hload, -⟩⟩
  · refine iff_of_true ?_ (.inl hnot)
    exact ⟨by rw [hheap], by rw [hvmm], hfiles, by rw [hvmm]⟩
  · refine iff_of_true ?_ (.inr (.inl ⟨k₁, halloc⟩))
    exact ⟨by rw [hheap]; exact (processAlloc_unchanged inv halloc).blocks, by rw [hvmm], hfiles,
      by rw [hvmm]⟩
  · obtain ⟨hvmm, -⟩ := processAlloc_frame halloc
    rcases vmmCreateAddressSpace_cases k.vmm hzero with ⟨hempty, hcreate⟩ | ⟨hspace, n, hn, hused⟩
    · obtain ⟨rfl, k₂, hdestroy, hheap, hvmm'⟩ := @loadElf_destroys _ { k₁ with disk := d } _ _ _ _ _
        _ _ _ (by rw [hvmm]; exact hcreate) hload
      obtain ⟨hblocks, hvmm₂, -⟩ := @processDestroy_restores _ _ _ { k₁ with disk := d } _ p inv
        (processAlloc_holds inv halloc) hdestroy
      have hsame : k'.vmm = k.vmm := hvmm'.trans (hvmm₂.trans hvmm)
      refine iff_of_true ?_ (.inr (.inr hempty))
      exact ⟨by rw [hheap]; exact hblocks, by rw [hsame], hfiles, by rw [hsame]⟩
    · obtain ⟨-, r, hr, hkv, -⟩ := loadElf_cases hopen hload
      dsimp only at hr
      rw [hvmm] at hr
      have hallocs := createElfAddressSpace_created hr
      rw [← hkv] at hallocs
      refine iff_of_false (not_conserved hcounted
        ((vmmCreateAddressSpace_allocs _).trans hallocs) hn fun hfree => hused (hallocs.free hfree)) ?_
      rintro (hnot | hspace)
      · exact hloads hnot
      · exact not_noSpace halloc hn hspace

end Space

/-! ### A kernel before its first process -/

/-- Calls of `pmm_alloc` are a history. -/
theorem Memory.Allocs.history {image : KernelImage} {pmm : Pmm} (h : Allocs (pmmInit image) pmm) :
    ∃ calls allocated, Run PmmStep ⟨pmmInit image, ∅⟩ calls ⟨pmm, allocated⟩ := by
  obtain ⟨count, rfl⟩ := h
  have hrun : ∀ (count : Nat) (start : PmmHistory), ∃ allocated, Run PmmStep start
      (List.replicate count .alloc) ⟨(pmmAllocs count start.pmm).1, allocated⟩ := by
    intro count
    induction count with
    | zero => exact fun start => ⟨start.allocated, .nil _⟩
    | succ count ih =>
        intro start
        obtain ⟨allocated, run⟩ := ih
          { pmm := (pmmAlloc start.pmm).1
            allocated := if (pmmAlloc start.pmm).2 = 0 then start.allocated
              else insert (pmmAlloc start.pmm).2 start.allocated }
        exact ⟨allocated, .cons rfl run⟩
  obtain ⟨allocated, run⟩ := hrun count ⟨pmmInit image, ∅⟩
  exact ⟨_, allocated, run⟩

/-- A kernel that has booted, with one file in its archive, before its first process. -/
def bootedKernel (vmm : Vmm) (file : List Byte) (hlt : file.length < 8 ^ 11) : Kernel :=
  System.constructing bootedImage { kernel := fileKernel vmm file hlt, users := [] }

theorem bootedKernel_state {ram : PhysMem} {vmm : Vmm} (file : List Byte)
    (hlt : file.length < 8 ^ 11) (boot : kernelBoot bootedImage ram = .ok vmm) :
    KernelState bootedImage.toKernelImage (bootedKernel vmm file hlt) := by
  have hpmm : (bootedKernel vmm file hlt).vmm.pmm = vmm.pmm := by
    unfold bootedKernel System.constructing vmmSwitchAddressSpace fileKernel firstKernel
    rfl
  refine ⟨⟨fun _ => 0, [], [], .nil _⟩, ?_⟩
  rw [hpmm]
  exact (kernelBoot_allocs boot).history

/-- Both constructors come back with a process on such a kernel with a program without segments. -/
theorem bootedKernel_creates (fns : Trampolines) : ∃ vmm fuel stale out k p,
    kernelBoot bootedImage (fun _ _ => 0#64) = .ok vmm ∧
      processCreate 4 fns (bootedKernel vmm (elfHeader 0) (by decide)) 0x100000#64 = .ok out ∧
      processCreateElf fuel stale fns (bootedKernel vmm (elfHeader 0) (by decide)) [97] 0#32 =
        .ok (k, some p) ∧ k.vmm.pmm.freeSet.Nonempty := by
  obtain ⟨vmm, k, proc, boot, ⟨fuel, stale, k', new, hok, hadd⟩, -, -, hcard, -⟩ :=
    emptyProgram_system (fun _ _ => 0#64) fns
  obtain ⟨k₁, p, halloc⟩ := processAlloc_first (bootedKernel vmm (elfHeader 0) (by decide)) rfl
  have hcreate : processCreate 4 fns (bootedKernel vmm (elfHeader 0) (by decide)) 0x100000#64 =
      .ok ((withStack k₁ p [0x100000#64, fns.process]).1,
        some (withStack k₁ p [0x100000#64, fns.process]).2) := by
    show (processAlloc 4 _ >>= _) = _
    rw [halloc]
    rfl
  injection hadd with hk husers
  cases new with
  | none => cases husers
  | some new =>
      refine ⟨vmm, fuel, stale, _, k', new, boot, hcreate, hok, Finset.card_pos.1 ?_⟩
      rw [← hk]
      omega

/-! ### The main result -/

/-- In every state of the kernel, `process_create` conserves what there was; `process_create_user`
    and `process_create_elf` do so exactly if they fail before they have an address space. -/
theorem process_lifecycle (image : KernelImage) (k : Kernel) (hk : KernelState image k) (fuel : Nat)
    (fns : Trampolines) :
    (∀ entry out, processCreate fuel fns k entry = .ok out → Conserved k out) ∧
      (∀ entry out, processCreateUser fuel fns k entry = .ok out →
        (Conserved k out ↔ NoSpace fuel k)) ∧
      ∀ stale path useLinuxAbi out,
        processCreateElf fuel stale fns k path useLinuxAbi = .ok out →
        (Conserved k out ↔ NotLoadable stale k path ∨ NoSpace fuel k) := by
  obtain ⟨live, blocks, inv⟩ := hk.heapInv
  obtain ⟨hcounted, hzero⟩ := hk.pmmInv
  exact ⟨fun _ _ h => processCreate_conserved inv h,
    fun _ _ h => processCreateUser_conserved inv hcounted hzero h,
    fun _ _ _ _ h => processCreateElf_conserved inv hcounted hzero h⟩

theorem process_lifecycle_first : ∃ k fuel stale out k' p,
    KernelState bootedImage.toKernelImage k ∧
      processCreate 4 ⟨0#64, 0#64⟩ k 0x100000#64 = .ok out ∧ Conserved k out ∧
      processCreateElf fuel stale ⟨0#64, 0#64⟩ k [97] 0#32 = .ok (k', some p) ∧
      (Conserved k (k', some p) ↔ NotLoadable stale k [97] ∨ NoSpace fuel k) := by
  obtain ⟨vmm, fuel, stale, out, k', p, boot, hcreate, helf, -⟩ :=
    bootedKernel_creates ⟨0#64, 0#64⟩
  have hstate := bootedKernel_state (elfHeader 0) (by decide) boot
  exact ⟨_, fuel, stale, out, k', p, hstate, hcreate,
    (process_lifecycle _ _ hstate 4 ⟨0#64, 0#64⟩).1 _ _ hcreate, helf,
    (process_lifecycle _ _ hstate fuel ⟨0#64, 0#64⟩).2.2 _ _ _ _ helf⟩

/-- The process of a program without segments, destroyed right after it was created: the frames of
    its address space are not given back. -/
theorem created_process_leaks : ∃ k fuel stale k' p,
    KernelState bootedImage.toKernelImage k ∧
      processCreateElf fuel stale ⟨0#64, 0#64⟩ k [97] 0#32 = .ok (k', some p) ∧
      ¬ Conserved k (k', some p) := by
  obtain ⟨vmm, fuel, stale, -, k', p, boot, -, helf, m, hm⟩ := bootedKernel_creates ⟨0#64, 0#64⟩
  have hstate := bootedKernel_state (elfHeader 0) (by decide) boot
  refine ⟨_, fuel, stale, k', p, hstate, helf, ?_⟩
  obtain ⟨live, blocks, inv⟩ := hstate.heapInv
  obtain ⟨hcounted, hzero⟩ := hstate.pmmInv
  rw [processCreateElf_conserved inv hcounted hzero helf]
  rcases processCreateElf_stages helf with ⟨-, hnone, -⟩ |
    ⟨hloads, ⟨_, -, hnone, -⟩ | ⟨k₁, p₁, d, ehdr, fd, slot, halloc, hopen, hload, -⟩⟩
  · cases hnone
  · cases hnone
  · obtain ⟨-, r, hr, hkv, -⟩ := loadElf_cases hopen hload
    have hallocs := createElfAddressSpace_allocs hr
    rw [← hkv, (processAlloc_frame halloc).1] at hallocs
    rintro (hnot | hspace)
    · exact hloads hnot
    · exact not_noSpace halloc (hallocs.free hm) hspace

end CustomKernel
