/-
Module: CustomKernel.Proofs.ConstructorHeap
Layer: Proofs
Purpose: What the process constructors leave of the kernel heap. Whether a constructor returns a
  process or gives up, at whichever stage, the blocks that were in use are in use and hold the bytes
  they held. So the heap is one in all runs of the system.
Imports: CustomKernel.Proofs.ProcessLifecycle
Trusted boundary: as in SystemRuns: the kernel heap, the descriptors and the archive are beside
  physical memory
Main exports: HeapKept, SystemStep.heapKept, heapInv_of_run
-/
import CustomKernel.Proofs.ProcessLifecycle

namespace CustomKernel

open Memory Filesystem Syscall Loops StepSystem ByteMemory BlockList

/-- The blocks in use are still in use, byte for byte. -/
def HeapKept (blocks : List Block) (heap heap' : KernelHeap) : Prop :=
  ∃ live' blocks', KernelHeapInv ⟨heap', live'⟩ blocks' ∧ inUse blocks ⊆ inUse blocks' ∧
    BytesKept (inUse blocks) heap.mem heap'.mem

section Kept

variable {s : HeapHistory} {blocks : List Block} {fuel : Nat} {k k' : Kernel} {live : List Word}
  {address kernelStack : Word} {heap heap' : KernelHeap} {new : Option NewProcess} {p : NewProcess}

theorem HeapKept.refl (inv : KernelHeapInv s blocks) : HeapKept blocks s.heap s.heap :=
  ⟨s.live, blocks, inv, fun _ hb => hb, .refl _ _⟩

/-! ### The descriptor and the kernel stack -/

/-- A heap that holds a process besides what was in use, with the bytes there as they were. -/
structure HoldsBeside (s : HeapHistory) (blocks : List Block) (address kernelStack : Word)
    (heap : KernelHeap) : Prop where
  holds : HoldsProcess s blocks address kernelStack heap
  bytes : BytesKept (inUse blocks) s.heap.mem heap.mem

theorem HoldsBeside.heapKept (h : HoldsBeside s blocks address kernelStack heap) :
    HeapKept blocks s.heap heap := by
  obtain ⟨heap₁, blocks₁, blocks₂, t₁, t₂⟩ := h.holds
  exact ⟨_, blocks₂, t₂.inv, fun b hb => t₂.inUse_sub (t₁.inUse_sub hb), h.bytes⟩

/-- `process_alloc`. -/
theorem processAlloc_kept (inv : KernelHeapInv ⟨k.heap, live⟩ blocks)
    (h : processAlloc fuel k = .ok (k', new)) :
    match new with
    | none => HeapKept blocks k.heap k'.heap
    | some p => HoldsBeside ⟨k.heap, live⟩ blocks p.address p.proc.kernelStack k'.heap := by
  have hholds := processAlloc_holds inv h
  unfold processAlloc at h
  obtain ⟨⟨heap₁, proc⟩, hcalloc, h⟩ := bind_ok h
  have hproc := inv.kcalloc_takes (by decide) (orEndless_ok hcalloc)
  have hkept := inv.kcalloc_kept (by decide) (orEndless_ok hcalloc)
  dsimp only at h
  split at h
  · rename_i hnull
    cases h
    rcases hproc with ⟨rfl, -⟩ | ⟨hne, -⟩
    · exact .refl inv
    · exact absurd hnull hne
  · rename_i hne
    obtain ⟨-, blocks₁, t₁⟩ := hproc.resolve_left fun hnull => hne hnull.2
    obtain ⟨⟨heap₂, kstack⟩, hkmalloc, h⟩ := bind_ok h
    have hkstack := t₁.inv.kmalloc_takes (orEndless_ok hkmalloc)
    dsimp only at h
    split at h
    · -- no room for the stack: the descriptor is given back
      rename_i hnull
      obtain ⟨heap₃, hkfree, h⟩ := bind_ok h
      cases h
      rcases hkstack with ⟨rfl, -⟩ | ⟨hne, -⟩
      · obtain ⟨blocks₃, inv₃, huse, hkept₃⟩ := t₁.kfree (orEndless_ok hkfree)
        exact ⟨_, blocks₃, inv₃, fun b hb => huse ▸ hb, hkept.trans hkept₃⟩
      · exact absurd hnull hne
    · cases h
      have hkept₂ := t₁.inv.kmalloc_kept (orEndless_ok hkmalloc)
      exact ⟨hholds, hkept.trans (hkept₂.mono t₁.inUse_sub)⟩

/-- The heap behind `process_alloc`, when a constructor returns: as it was, with an initial stack
    frame, or with the two blocks given back. -/
inductive HeapAfter (fuel : Nat) (p : NewProcess) (heap : KernelHeap) : KernelHeap → Prop
  | same : HeapAfter fuel p heap heap
  | stacked (words : List Word) (hlen : words.length ≤ 3) :
      HeapAfter fuel p heap (pushContext heap p.proc.kernelStack words).1
  | destroyed {k k' : Kernel} {heap' : KernelHeap} (hrun : processDestroy fuel k p = .ok k')
      (hheap : k.heap = heap) (hheap' : k'.heap = heap') : HeapAfter fuel p heap heap'

/-- In each case the other blocks are as they were. -/
theorem HoldsBeside.after (h : HoldsBeside s blocks p.address p.proc.kernelStack heap)
    (after : HeapAfter fuel p heap heap') : HeapKept blocks s.heap heap' := by
  cases after with
  | same => exact h.heapKept
  | stacked words hlen =>
      have hlen' : words.length ≤ 2048 := by omega
      obtain ⟨-, hmem⟩ := h.holds.pushed words hlen'
      refine HoldsBeside.heapKept ⟨h.holds.pushContext words hlen', h.bytes.trans ?_⟩
      obtain ⟨heap₁, blocks₁, blocks₂, t₁, t₂⟩ := h.holds
      exact (t₂.payload_kept hmem).mono t₁.inUse_sub
  | destroyed hrun hheap hheap' =>
      obtain ⟨heap₁, blocks₁, blocks₂, t₁, t₂⟩ := h.holds
      obtain ⟨heap₃, hfree₁, hrun⟩ := bind_ok hrun
      obtain ⟨heap₄, hfree₂, hrun⟩ := bind_ok hrun
      cases hrun
      rw [hheap] at hfree₁
      rw [← hheap']
      obtain ⟨blocks₃, inv₃, huse₃, hkept₃⟩ := t₂.kfree (orEndless_ok hfree₁)
      obtain ⟨blocks₄, inv₄, huse₄, hkept₄⟩ :=
        inv₃.kfree_kept (t₂.kept t₁.inv List.mem_cons_self) (orEndless_ok hfree₂)
      have huse : inUse blocks₄ = inUse blocks := by rw [huse₄, huse₃, t₁.rest]
      rw [huse] at hkept₄
      exact ⟨_, blocks₄, inv₄, fun b hb => huse ▸ hb,
        h.bytes.trans ((hkept₃.mono t₁.inUse_sub).trans hkept₄)⟩

/-! ### The constructors -/

/-- What follows `process_alloc` in `process_create_user`. -/
theorem processCreateUser_after {fns : Trampolines} {entry : Word}
    (h : processCreateUser fuel fns k entry = .ok (k', new)) :
    ∃ k₁ proc, processAlloc fuel k = .ok (k₁, proc) ∧
      match proc with
      | none => k'.heap = k₁.heap
      | some p => HeapAfter fuel p k₁.heap k'.heap := by
  unfold processCreateUser at h
  obtain ⟨⟨k₁, proc⟩, halloc, h⟩ := bind_ok h
  refine ⟨k₁, proc, halloc, ?_⟩
  cases proc with
  | none =>
      cases h
      rfl
  | some p =>
      dsimp only at h ⊢
      split at h
      · obtain ⟨k₂, hdestroy, h⟩ := bind_ok h
        cases h
        exact .destroyed hdestroy rfl rfl
      · obtain ⟨stack, -, h⟩ := bind_ok h
        split at h
        · obtain ⟨vmm', -, h⟩ := bind_ok h
          split at h
          · cases h
          · split at h
            · cases h
            · cases h
              exact .stacked [userStackVirt, _, fns.user] (Nat.le_refl 3)
        · cases h
          exact .same

/-- What follows it in `process_create_elf`. -/
theorem loadElf_after {stale : Stale} {fns : Trampolines} {ehdr : Ehdr} {fd : Int}
    {useLinuxAbi : BitVec 32} (h : loadElf fuel stale fns ehdr fd useLinuxAbi k p = .ok (k', new)) :
    HeapAfter fuel p k.heap k'.heap := by
  unfold loadElf at h
  dsimp only at h
  split at h
  · obtain ⟨k₂, hdestroy, h⟩ := bind_ok h
    cases h
    exact .destroyed hdestroy rfl rfl
  · obtain ⟨stack, -, h⟩ := bind_ok h
    split at h
    · obtain ⟨st, -, h⟩ := bind_ok h
      split at h
      · cases h
        exact .stacked [userStackVirt - 8#64, ehdr.eEntry, fns.user] (Nat.le_refl 3)
      · cases h
        exact .same
    · cases h
      exact .same

/-- `process_create`. -/
theorem processCreate_heapKept {fns : Trampolines} {entry : Word}
    (inv : KernelHeapInv ⟨k.heap, live⟩ blocks)
    (h : processCreate fuel fns k entry = .ok (k', new)) : HeapKept blocks k.heap k'.heap := by
  obtain ⟨⟨k₁, proc⟩, halloc, h⟩ := bind_ok h
  have hkept := processAlloc_kept inv halloc
  cases proc with
  | none =>
      cases h
      exact hkept
  | some p =>
      cases h
      have hafter : HeapAfter fuel p k₁.heap (pushContext k₁.heap p.proc.kernelStack _).1 :=
        .stacked [entry, fns.process] (by simp)
      exact hkept.after hafter

/-- `process_create_user`. -/
theorem processCreateUser_heapKept {fns : Trampolines} {entry : Word}
    (inv : KernelHeapInv ⟨k.heap, live⟩ blocks)
    (h : processCreateUser fuel fns k entry = .ok (k', new)) : HeapKept blocks k.heap k'.heap := by
  obtain ⟨k₁, proc, halloc, hrest⟩ := processCreateUser_after h
  have hkept := processAlloc_kept inv halloc
  cases proc with
  | none =>
      dsimp only at hrest
      rw [hrest]
      exact hkept
  | some p => exact hkept.after hrest

/-- `process_create_elf`. -/
theorem processCreateElf_heapKept {stale : Stale} {fns : Trampolines} {path : List Byte}
    {useLinuxAbi : BitVec 32} (inv : KernelHeapInv ⟨k.heap, live⟩ blocks)
    (h : processCreateElf fuel stale fns k path useLinuxAbi = .ok (k', new)) :
    HeapKept blocks k.heap k'.heap := by
  rcases processCreateElf_stages h with ⟨-, -, hheap, -⟩ |
    ⟨-, ⟨k₁, halloc, -, hheap, -⟩ | ⟨k₁, p, d, ehdr, fd, slot, halloc, -, hload, -⟩⟩
  · rw [hheap]
    exact .refl inv
  · rw [hheap]
    exact processAlloc_kept inv halloc
  · have hafter := loadElf_after hload
    exact (processAlloc_kept inv halloc).after hafter

end Kept

/-! ### The heap in all runs -/

section Runs

variable {image : BootImage} {fns : Trampolines} {s s' : System} {call : SystemCall}
  {live : List Word} {blocks : List Block}

/-- No call of the system touches a block in use. -/
theorem SystemStep.heapKept (inv : KernelHeapInv ⟨s.kernel.heap, live⟩ blocks)
    (step : SystemStep image fns s call s') : HeapKept blocks s.kernel.heap s'.kernel.heap := by
  have hinv : KernelHeapInv ⟨(s.constructing image).heap, live⟩ blocks := inv
  cases call with
  | create entry =>
      obtain ⟨fuel, k, new, hok, rfl⟩ := step
      have hkept := processCreate_heapKept hinv hok
      exact hkept
  | createUser entry =>
      obtain ⟨-, -, fuel, k, new, hok, rfl⟩ := step
      have hkept := processCreateUser_heapKept hinv hok
      exact hkept
  | createElf path useLinuxAbi =>
      obtain ⟨fuel, stale, k, new, hok, rfl⟩ := step
      have hkept := processCreateElf_heapKept hinv hok
      exact hkept
  | user pid call =>
      obtain ⟨proc, r, -, -, rfl⟩ := step
      exact .refl inv

/-- The heap is one in every state of the system. -/
theorem heapInv_of_run {calls : List SystemCall} (inv : KernelHeapInv ⟨s.kernel.heap, live⟩ blocks)
    (run : Run (SystemStep image fns) s calls s') :
    ∃ live' blocks', KernelHeapInv ⟨s'.kernel.heap, live'⟩ blocks' := by
  refine run.invariant (fun t : System => ∃ live blocks, KernelHeapInv ⟨t.kernel.heap, live⟩ blocks)
    (fun t call t' ht step => ?_) ⟨live, blocks, inv⟩
  obtain ⟨live, blocks, inv⟩ := ht
  obtain ⟨live', blocks', inv', -⟩ := step.heapKept inv
  exact ⟨live', blocks', inv'⟩

end Runs

end CustomKernel
