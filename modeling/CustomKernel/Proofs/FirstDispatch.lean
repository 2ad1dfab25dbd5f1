/-
Module: CustomKernel.Proofs.FirstDispatch
Layer: Proofs
Purpose: How a process starts. The constructors leave the words for the trampolines on its kernel
  stack; the first `context_switch` to it returns into a trampoline, which calls `pic_send_eoi` and
  then the entry function, or builds the frame for an `iretq`. The stack is followed word by word
  from the constructor to the entry.
Imports: CustomKernel.Proofs.ContextSwitch, CustomKernel.Proofs.SyscallFrame,
  CustomKernel.Proofs.ProcessLifecycle, CustomKernel.Proofs.DescriptorTables
Trusted boundary: `pic_send_eoi` is any function that keeps to the SysV convention
Main exports: Built, Awaits, OtherDescriptor, dispatched, StartsKernel, StartsUser, first_dispatch
-/
import CustomKernel.Proofs.ContextSwitch
import CustomKernel.Proofs.SyscallFrame
import CustomKernel.Proofs.ProcessLifecycle
import CustomKernel.Proofs.DescriptorTables

namespace CustomKernel

open Memory Filesystem Syscall Loops ByteMemory

/-! ### What the constructors build -/

/-- A process with the given words at the top of its kernel stack, the first one highest. Descriptor
    and stack are inside the heap, and apart. -/
structure Built (heap : KernelHeap) (p : NewProcess) (words : List Word) : Prop where
  address : p.address.toNat + 232 ≤ heapHi
  stack : 16384 ≤ p.proc.kernelStack.toNat
  top : p.proc.kernelStack.toNat ≤ heapHi
  apart : p.address.toNat + 232 ≤ p.proc.kernelStack.toNat - 16384 ∨
    p.proc.kernelStack.toNat ≤ p.address.toNat
  rsp : p.rsp = p.proc.kernelStack - BitVec.ofNat 64 (8 * words.length)
  frame : ∀ i w, words[i]? = some w → loadWord heap.mem (stackWord p.proc.kernelStack i) = w

section Constructors

variable {s : HeapHistory} {blocks : List BlockList.Block} {fuel : Nat} {fns : Trampolines}
  {k k' : Kernel} {p : NewProcess} {live : List Word}

/-- `sp--; *sp = word;` pushes like the processor. -/
theorem pushContext_eq : ∀ (words : List Word) (heap : KernelHeap) (sp : Word),
    (pushContext heap sp words).1.mem = pushWords heap.mem sp words ∧
      (pushContext heap sp words).2 = sp - BitVec.ofNat 64 (8 * words.length)
  | [], heap, sp => ⟨rfl, (BitVec.sub_zero sp).symm⟩
  | word :: words, heap, sp => by
      obtain ⟨hmem, hsp⟩ := pushContext_eq words
        { heap with mem := store 8 (sp - 8#64).toNat word.toNat heap.mem } (sp - 8#64)
      refine ⟨hmem, ?_⟩
      rw [pushContext, hsp, List.length_cons]
      bv_omega

/-- Where the two blocks of a process are. -/
theorem HoldsProcess.bounds {address kernelStack : Word} {heap : KernelHeap}
    (h : HoldsProcess s blocks address kernelStack heap) :
    address.toNat + 232 ≤ heapHi ∧ 16384 ≤ kernelStack.toNat ∧ kernelStack.toNat ≤ heapHi ∧
      (address.toNat + 232 ≤ kernelStack.toNat - 16384 ∨ kernelStack.toNat ≤ address.toNat) := by
  have htop := h.toNat_kernelStack
  obtain ⟨heap₁, blocks₁, blocks₂, t₁, t₂⟩ := h
  obtain ⟨pre₁, b₁, post₁, hlist₁, hptr₁, hsize₁⟩ := t₁.room
  obtain ⟨pre₂, b₂, post₂, hlist₂, hptr₂, hsize₂⟩ := t₂.room
  have hmem₁ : b₁ ∈ blocks₁ := by rw [hlist₁]; simp
  have hmem₂ : b₂ ∈ blocks₂ := by rw [hlist₂]; simp
  have hbound₁ := t₁.inv.rep.bounds hmem₁
  have hbound₂ := t₂.inv.rep.bounds hmem₂
  -- the descriptor is still in use when the stack is taken
  have huse : b₁ ∈ BlockList.inUse blocks₁ := by
    obtain ⟨b, hb, hptr⟩ := (t₁.inv.live address).1 List.mem_cons_self
    have hsame : b = b₁ := by
      have hord := t₁.inv.rep.ordered
      have hmem := (BlockList.mem_inUse.1 hb).1
      rw [hlist₁] at hord hmem
      by_contra hne
      have hother : b ∈ pre₁ ∨ b ∈ post₁ := by simpa [hne] using hmem
      exact hord.addr_ne (by decide) hother (by omega)
    exact hsame ▸ hb
  rw [← t₂.rest] at huse
  obtain ⟨huse₂, hother⟩ := List.mem_filter.1 huse
  have hne : b₁.addr ≠ b₂.addr := by
    intro heq
    exact of_decide_eq_true hother (by omega)
  have hapart := t₂.inv.rep.ordered.apart (BlockList.mem_inUse.1 huse₂).1 hmem₂ hne
  unfold BlockList.Block.stop at hapart
  omega

/-- The initial stack of a process. -/
theorem withStack_built (h : HoldsProcess s blocks p.address p.proc.kernelStack k.heap)
    (words : List Word) (hlen : words.length ≤ 3) :
    Built (withStack k p words).1.heap (withStack k p words).2 words := by
  obtain ⟨haddress, hstack, htop, hapart⟩ := h.bounds
  obtain ⟨hmem, hsp⟩ := pushContext_eq words k.heap p.proc.kernelStack
  refine ⟨haddress, hstack, htop, hapart, hsp, fun i w hw => ?_⟩
  show loadWord (pushContext k.heap p.proc.kernelStack words).1.mem _ = w
  rw [hmem]
  exact pushWords_word words _ _ (by omega) i w hw

/-- `process_create`. -/
theorem processCreate_built {entry : Word} (inv : KernelHeapInv ⟨k.heap, live⟩ blocks)
    (h : processCreate fuel fns k entry = .ok (k', some p)) :
    Built k'.heap p [entry, fns.process] := by
  unfold processCreate at h
  obtain ⟨⟨k₁, proc⟩, halloc, h⟩ := bind_ok h
  have hholds := processAlloc_holds inv halloc
  cases proc with
  | none => cases h
  | some p₁ =>
      cases h
      exact withStack_built hholds [entry, fns.process] (Nat.le_succ 2)

/-- `process_create_user`. -/
theorem processCreateUser_built {entry : Word} (inv : KernelHeapInv ⟨k.heap, live⟩ blocks)
    (h : processCreateUser fuel fns k entry = .ok (k', some p)) :
    Built k'.heap p [p.userStack, userCodeVirt + (entry &&& 0xFFF#64), fns.user] ∧
      p.userStack = userStackVirt := by
  unfold processCreateUser at h
  obtain ⟨⟨k₁, proc⟩, halloc, h⟩ := bind_ok h
  have hholds := processAlloc_holds inv halloc
  cases proc with
  | none => cases h
  | some p₁ =>
      dsimp only at h
      split at h
      · obtain ⟨k₂, -, h⟩ := bind_ok h
        cases h
      · obtain ⟨stack, -, h⟩ := bind_ok h
        split at h
        · obtain ⟨vmm, -, h⟩ := bind_ok h
          split at h
          · cases h
          · split at h
            · cases h
            · cases h
              exact ⟨@withStack_built _ _ { k₁ with vmm := vmm }
                { p₁ with
                  proc := { p₁.proc with pageTable := (vmmCreateAddressSpace k₁.vmm).2 }
                  userStack := userStackVirt } hholds _ (Nat.le_refl 3), rfl⟩
        · cases h

/-- `process_create_elf`: the entry is that of the file's header. -/
theorem processCreateElf_built {stale : Stale} {path : List Byte} {useLinuxAbi : BitVec 32}
    (inv : KernelHeapInv ⟨k.heap, live⟩ blocks)
    (h : processCreateElf fuel stale fns k path useLinuxAbi = .ok (k', some p)) :
    ∃ pos size, findFile k.disk.image k.disk.length path (k.disk.length / 512 + 1) 0 =
        some (pos, size) ∧
      Built k'.heap p
        [p.userStack, (fileHeader stale k.disk.image (openedFile pos size)).eEntry, fns.user] ∧
      p.userStack = userStackVirt - 8#64 := by
  rcases processCreateElf_stages h with ⟨-, hnone, -⟩ |
    ⟨-, ⟨k₁, -, hnone, -⟩ | ⟨k₁, p₁, d, ehdr, fd, slot, halloc, -, hload, pos, size, hfind, hehdr⟩⟩
  · cases hnone
  · cases hnone
  · refine ⟨pos, size, hfind, ?_⟩
    rw [← hehdr]
    have hholds := processAlloc_holds inv halloc
    unfold loadElf at hload
    dsimp only at hload
    split at hload
    · obtain ⟨k₂, -, hload⟩ := bind_ok hload
      cases hload
    · obtain ⟨stack, -, hload⟩ := bind_ok hload
      split at hload
      · obtain ⟨st, -, hload⟩ := bind_ok hload
        split at hload
        · cases hload
          exact ⟨@withStack_built _ _ { k₁ with vmm := st.vmm, disk := ramdiskClose st.disk fd }
            { p₁ with
              proc := { p₁.proc with
                pageTable := (vmmCreateAddressSpace k₁.vmm).2
                heapStart := if st.lastVend ≠ 0#64 then st.lastVend else userHeapBase
                heapEnd := if st.lastVend ≠ 0#64 then st.lastVend else userHeapBase }
              userStack := userStackVirt - 8#64
              useLinuxAbi := useLinuxAbi.setWidth 8 } hholds _ (Nat.le_refl 3), rfl⟩
        · cases hload
      · cases hload

end Constructors

/-! ### The first switch -/

/-- Memory has the process as its constructor has left it: `context.rsp` in its descriptor, and the
    words on its stack. -/
structure Awaits (mem : ByteMem) (heap : KernelHeap) (p : NewProcess) : Prop where
  rsp : loadWord mem (Machine.savedRsp p.address) = p.rsp
  stack : ∀ a, p.rsp.toNat ≤ a → a < p.proc.kernelStack.toNat → mem a = heap.mem a

/-- Another descriptor: it overlaps neither that of the process nor its stack. -/
structure OtherDescriptor (curr : Word) (p : NewProcess) : Prop where
  fits : curr.toNat + 232 ≤ 2 ^ 64
  descriptor : curr.toNat + 232 ≤ p.address.toNat ∨ p.address.toNat + 232 ≤ curr.toNat
  stack : curr.toNat + 232 ≤ p.proc.kernelStack.toNat - 16384 ∨ p.proc.kernelStack.toNat ≤ curr.toNat

section Dispatch

variable {heap : KernelHeap} {p : NewProcess} {words : List Word} {m : Machine} {curr : Word}

theorem stackWord_toNat {top : Word} {i : Nat} (h : 8 * (i + 1) ≤ top.toNat) :
    (stackWord top i).toNat = top.toNat - 8 * (i + 1) := by
  have hlt := top.isLt
  unfold stackWord
  bv_omega

/-- `context_switch` writes one word. -/
theorem contextSwitch_mem (m : Machine) :
    m.contextSwitch.mem = storeWord m.mem (m.cpu.rdi + Machine.processContextRsp) m.cpu.rsp :=
  rfl

/-- The first switch to a process returns to the last word its constructor pushed, and leaves the
    stack pointer above that word and the others in place. -/
theorem dispatched (built : Built heap p words) (hlen : words.length ≤ 3)
    (awaits : Awaits m.mem heap p) (other : OtherDescriptor curr p) (hrdi : m.cpu.rdi = curr)
    (hrsi : m.cpu.rsi = p.address) {i : Nat} {target : Word} (hlast : words.length = i + 1)
    (htarget : words[i]? = some target) :
    m.contextSwitch.cpu.rip = target ∧
      m.contextSwitch.cpu.rsp = p.proc.kernelStack - BitVec.ofNat 64 (8 * i) ∧
      ∀ j w, words[j]? = some w →
        loadWord m.contextSwitch.mem (stackWord p.proc.kernelStack j) = w := by
  have haddress := built.address
  have hstack := built.stack
  have hslot : (curr + Machine.processContextRsp).toNat = curr.toNat + 8 := by
    have := other.fits
    rw [Machine.processContextRsp]
    bv_omega
  have hsaved : (Machine.savedRsp p.address).toNat = p.address.toNat + 8 := by
    unfold heapHi at haddress
    rw [Machine.savedRsp, Machine.processContextRsp]
    bv_omega
  have hrspWord : p.rsp = stackWord p.proc.kernelStack i := by
    rw [built.rsp, hlast]
    rfl
  have hrspNat := @stackWord_toNat p.proc.kernelStack i (by omega)
  -- the stack pointer of the other process goes into its own descriptor
  have hloaded : loadWord m.contextSwitch.mem (Machine.savedRsp p.address) = p.rsp := by
    have hapart : WordsApart (Machine.savedRsp p.address) (curr + Machine.processContextRsp) := by
      rw [WordsApart, hslot, hsaved]
      have := other.descriptor
      omega
    rw [contextSwitch_mem, hrdi, loadWord_storeWord_apart hapart, awaits.rsp]
  have hwords : ∀ j w, words[j]? = some w →
      loadWord m.contextSwitch.mem (stackWord p.proc.kernelStack j) = w := by
    intro j w hw
    have hj : j < words.length := (List.getElem?_eq_some_iff.1 hw).1
    have hwordNat := @stackWord_toNat p.proc.kernelStack j (by omega)
    have hapart : WordsApart (stackWord p.proc.kernelStack j)
        (curr + Machine.processContextRsp) := by
      rw [WordsApart, hslot, hwordNat]
      have := other.stack
      omega
    rw [contextSwitch_mem, hrdi, loadWord_storeWord_apart hapart, ← built.frame j w hw]
    refine loadWord_congr fun a hlo hhi => awaits.stack a ?_ (by omega)
    rw [hrspWord]
    omega
  have hrsp : m.contextSwitch.cpu.rsp =
      loadWord m.contextSwitch.mem (m.cpu.rsi + Machine.processContextRsp) + 8 := rfl
  have hrip : m.contextSwitch.cpu.rip = loadWord m.contextSwitch.mem
      (loadWord m.contextSwitch.mem (m.cpu.rsi + Machine.processContextRsp)) := rfl
  rw [hrsi] at hrsp hrip
  have hload : loadWord m.contextSwitch.mem (p.address + Machine.processContextRsp) = p.rsp :=
    hloaded
  refine ⟨?_, ?_, hwords⟩
  · rw [hrip, hload, hrspWord]
    exact hwords i target htarget
  · rw [hrsp, hload, hrspWord, stackWord]
    bv_omega

/-- There is such a memory. -/
theorem Built.awaits (built : Built heap p words) (hlen : words.length ≤ 3) :
    Awaits (storeWord heap.mem (Machine.savedRsp p.address) p.rsp) heap p := by
  have haddress := built.address
  have hsaved : (Machine.savedRsp p.address).toNat = p.address.toNat + 8 := by
    unfold heapHi at haddress
    rw [Machine.savedRsp, Machine.processContextRsp]
    bv_omega
  have hrsp : p.rsp.toNat = p.proc.kernelStack.toNat - 8 * words.length := by
    have hstack := built.stack
    have hlt := p.proc.kernelStack.isLt
    rw [built.rsp]
    bv_omega
  refine ⟨loadWord_storeWord_self _ _ _, fun a hlo hhi => store_outside ?_⟩
  have hapart := built.apart
  have hstack := built.stack
  omega

end Dispatch

/-! ### The trampolines -/

/-- A stack pointer within the kernel stack of a process. -/
def OnKernelStack (p : NewProcess) (sp : Word) : Prop :=
  p.proc.kernelStack.toNat - 16384 ≤ sp.toNat ∧ sp.toNat ≤ p.proc.kernelStack.toNat

/-- The switch to a kernel process ends in the call of its entry function, on its own stack, with
    interrupts enabled, whatever `pic_send_eoi` leaves in the registers that are not its caller's. -/
def StartsKernel (fns : Trampolines) (entry : Word) (p : NewProcess) (m : Machine) : Prop :=
  m.contextSwitch.cpu.rip = fns.process ∧
    ∀ next after returned,
      SysVReturn p.proc.kernelStack (m.contextSwitch.processTrampolineFn next) returned →
      let called := returned.processTrampolineEnter after
      called.cpu.rip = entry ∧ called.cpu.rsp = p.proc.kernelStack - 8 ∧
        loadWord called.mem called.cpu.rsp = after ∧ called.cpu.rflags &&& 0x200 ≠ 0

/-- The stack pointers on the way from the switch to the `iretq`; those `inside` are the ones of
    `pic_send_eoi`. -/
def userPointers (p : NewProcess) (m : Machine) (next : Word) (inside : List Word)
    (returned : Machine) : List Word :=
  [p.rsp, m.contextSwitch.cpu.rsp, (m.contextSwitch.processUserTrampolineFn next).cpu.rsp] ++
    inside ++ [returned.cpu.rsp, returned.popEntry.cpu.rsp] ++
    returned.popEntry.popUserStack.iretWords.inits.map fun ws =>
      (returned.popEntry.popUserStack.pushAll ws).cpu.rsp

/-- The selectors of a frame are those of user code and user data, in the table that `gdt_init`
    leaves, wherever it is. -/
def Machine.IretFrame.UserSegments (f : Machine.IretFrame) : Prop :=
  f.cs &&& 7 = 3 ∧ f.ss &&& 7 = 3 ∧ ∀ (gdt : Nat) (tss syscallEntry : Word) (mem : ByteMem)
    (r : SystemRegisters), TablesApart gdt tss →
      (segmentAt (gdtInit gdt tss syscallEntry mem r).1 gdt (f.cs >>> 3).toNat).access = 0xFA ∧
      (segmentAt (gdtInit gdt tss syscallEntry mem r).1 gdt (f.ss >>> 3).toNat).access = 0xF2

/-- The switch to a user process ends in an `iretq` to its entry address and its user stack, in user
    mode and with interrupts enabled, with zero in all general registers; on the way the stack
    pointer stays on its kernel stack if `pic_send_eoi` makes do with what is left of it. -/
def StartsUser (fns : Trampolines) (entry : Word) (p : NewProcess) (m : Machine) : Prop :=
  m.contextSwitch.cpu.rip = fns.user ∧
    ∀ next returned inside,
      SysVReturn p.proc.kernelStack (m.contextSwitch.processUserTrampolineFn next) returned →
      let called := (m.contextSwitch.processUserTrampolineFn next).cpu.rsp
      let final := returned.processUserTrampolineEnter
      (final.iretFrame.rip = entry ∧ final.iretFrame.rsp = p.userStack ∧
        final.iretFrame.UserSegments ∧ final.iretFrame.rflags &&& 0x200 ≠ 0) ∧
      final.cpu = { rsp := final.cpu.rsp, rip := final.cpu.rip, rflags := final.cpu.rflags,
                    cr3 := final.cpu.cr3 } ∧
      ((∀ sp ∈ inside, called.toNat - 16360 ≤ sp.toNat ∧ sp.toNat ≤ called.toNat) →
        ∀ sp ∈ userPointers p m next inside returned, OnKernelStack p sp)

section Start

variable {heap : KernelHeap} {p : NewProcess} {m : Machine} {curr : Word} {fns : Trampolines}
  {entry : Word}

/-- A word of the caller's stack, after a call that obeys the convention. -/
theorem SysVReturn.word {top : Word} {m m' : Machine} (h : SysVReturn top m m') {addr : Word}
    (hlo : m.cpu.rsp.toNat + 8 ≤ addr.toNat) (hhi : addr.toNat + 8 ≤ top.toNat) :
    loadWord m'.mem addr = loadWord m.mem addr :=
  loadWord_congr fun a hlo' hhi' => h.stack a (by omega) (by omega)

/-- The kernel trampoline. -/
theorem starts_kernel (built : Built heap p [entry, fns.process]) (awaits : Awaits m.mem heap p)
    (other : OtherDescriptor curr p) (hrdi : m.cpu.rdi = curr) (hrsi : m.cpu.rsi = p.address) :
    StartsKernel fns entry p m := by
  obtain ⟨hrip, hrsp, hwords⟩ := dispatched built (Nat.le_succ 2) awaits other hrdi hrsi (i := 1) rfl rfl
  refine ⟨hrip, fun next after returned hsysv => ?_⟩
  have hstack := built.stack
  have hentry : loadWord m.contextSwitch.mem (p.proc.kernelStack - 8) = entry := hwords 0 entry rfl
  generalize p.proc.kernelStack = top at *
  have hlt := top.isLt
  have hrsp' : m.contextSwitch.cpu.rsp = top - 8 := hrsp
  -- the entry is popped and pushed again, below it the return address
  have hcalledRsp : (m.contextSwitch.processTrampolineFn next).cpu.rsp = top - 16 := by
    show m.contextSwitch.cpu.rsp + 8 - 8 - 8 = _
    rw [hrsp']
    bv_omega
  have hcalledMem : (m.contextSwitch.processTrampolineFn next).mem =
      storeWord (storeWord m.contextSwitch.mem (m.contextSwitch.cpu.rsp + 8 - 8)
        (loadWord m.contextSwitch.mem m.contextSwitch.cpu.rsp))
        (m.contextSwitch.cpu.rsp + 8 - 8 - 8) next := rfl
  have hreturnedRsp : returned.cpu.rsp = top - 8 := by
    rw [hsysv.rsp, hcalledRsp]
    bv_omega
  have hreturned : loadWord returned.mem (top - 8) = entry := by
    have hapart : WordsApart (top - 8) (top - 8 + 8 - 8 - 8) := by
      refine .inr ?_
      bv_omega
    have hback : top - 8 + 8 - 8 = top - 8 := by bv_omega
    rw [hsysv.word (by rw [hcalledRsp]; bv_omega) (by bv_omega), hcalledMem, hrsp', hentry,
      loadWord_storeWord_apart hapart, hback, loadWord_storeWord_self]
  refine ⟨?_, ?_, ?_, ?_⟩
  · show loadWord returned.mem returned.cpu.rsp = entry
    rw [hreturnedRsp, hreturned]
  · show returned.cpu.rsp + 8 - 8 = top - 8
    rw [hreturnedRsp]
    bv_omega
  · exact loadWord_storeWord_self _ _ _
  · show (returned.cpu.rflags ||| 0x200) &&& 0x200 ≠ 0
    rw [BitVec.and_comm]
    intro hzero
    have hbit := congrArg (fun v : Word => v.getLsbD 9) hzero
    simp at hbit

/-- What the user trampoline finds behind `pic_send_eoi`. -/
theorem user_returned (built : Built heap p [p.userStack, entry, fns.user])
    (awaits : Awaits m.mem heap p) (other : OtherDescriptor curr p) (hrdi : m.cpu.rdi = curr)
    (hrsi : m.cpu.rsi = p.address) {next : Word} {returned : Machine}
    (hsysv : SysVReturn p.proc.kernelStack (m.contextSwitch.processUserTrampolineFn next) returned) :
    (m.contextSwitch.cpu.rip = fns.user ∧ m.contextSwitch.cpu.rsp = p.proc.kernelStack - 16 ∧
      (m.contextSwitch.processUserTrampolineFn next).cpu.rsp = p.proc.kernelStack - 24) ∧
    returned.cpu.rsp = p.proc.kernelStack - 16 ∧
    loadWord returned.mem (p.proc.kernelStack - 16) = entry ∧
    loadWord returned.mem (p.proc.kernelStack - 8) = p.userStack := by
  obtain ⟨hrip, hrsp, hwords⟩ :=
    dispatched built (Nat.le_refl 3) awaits other hrdi hrsi (i := 2) rfl rfl
  have hstack := built.stack
  have huser : loadWord m.contextSwitch.mem (p.proc.kernelStack - 8) = p.userStack :=
    hwords 0 p.userStack rfl
  have hentry : loadWord m.contextSwitch.mem (p.proc.kernelStack - 16) = entry :=
    hwords 1 entry rfl
  have hswitched : m.contextSwitch.cpu.rsp = p.proc.kernelStack - 16 := hrsp
  have hcalled : (m.contextSwitch.processUserTrampolineFn next).cpu.rsp =
      p.proc.kernelStack - 24 := by
    show m.contextSwitch.cpu.rsp - 8 = _
    rw [hswitched]
    bv_omega
  have hmem : (m.contextSwitch.processUserTrampolineFn next).mem =
      storeWord m.contextSwitch.mem (p.proc.kernelStack - 24) next := by
    show storeWord m.contextSwitch.mem (m.contextSwitch.cpu.rsp - 8) next = _
    rw [← hcalled]
    rfl
  refine ⟨⟨hrip, hswitched, hcalled⟩, ?_, ?_, ?_⟩
  · rw [hsysv.rsp, hcalled]
    bv_omega
  · have hapart : WordsApart (p.proc.kernelStack - 16) (p.proc.kernelStack - 24) := by
      refine .inr ?_
      bv_omega
    rw [hsysv.word (by rw [hcalled]; bv_omega) (by bv_omega), hmem,
      loadWord_storeWord_apart hapart, hentry]
  · have hapart : WordsApart (p.proc.kernelStack - 8) (p.proc.kernelStack - 24) := by
      refine .inr ?_
      bv_omega
    rw [hsysv.word (by rw [hcalled]; bv_omega) (by bv_omega), hmem,
      loadWord_storeWord_apart hapart, huser]

/-- The five words pushed are the frame of the `iretq`. -/
theorem pushAll_iretFrame {rip cs rflags rsp ss : Word} (hroom : 40 ≤ m.cpu.rsp.toNat) :
    (m.pushAll [ss, rsp, rflags, cs, rip]).iretFrame = ⟨rip, cs, rflags, rsp, ss⟩ := by
  have hword : ∀ i w, i ≤ 4 → [ss, rsp, rflags, cs, rip][4 - i]? = some w →
      (m.pushAll [ss, rsp, rflags, cs, rip]).popped i = w := by
    intro i w hi hw
    have haddr : (m.pushAll [ss, rsp, rflags, cs, rip]).cpu.rsp + BitVec.ofNat 64 (8 * i) =
        stackWord m.cpu.rsp (4 - i) := by
      rw [Machine.pushAll_cpu, stackWord]
      dsimp only [List.length_cons, List.length_nil]
      bv_omega
    rw [Machine.popped, haddr, Machine.pushAll_mem]
    exact pushWords_word [ss, rsp, rflags, cs, rip] _ _ hroom _ w hw
  rw [Machine.iretFrame, hword 0 rip (by decide) rfl, hword 1 cs (by decide) rfl,
    hword 2 rflags (by decide) rfl, hword 3 rsp (by decide) rfl, hword 4 ss (by decide) rfl]

/-- The two pops behind it. -/
theorem user_popped {returned : Machine} {top : Word} (hrsp : returned.cpu.rsp = top - 16) :
    returned.popEntry.cpu.rsp = top - 8 ∧ returned.popEntry.popUserStack.cpu.rsp = top ∧
      returned.popEntry.popUserStack.iretWords =
        [0x1B, loadWord returned.mem (top - 8), 0x202, 0x23, loadWord returned.mem (top - 16)] := by
  have hpopEntry : returned.popEntry.cpu.rsp = top - 8 := by
    show returned.cpu.rsp + 8 = _
    rw [hrsp]
    bv_omega
  refine ⟨hpopEntry, ?_, ?_⟩
  · show returned.popEntry.cpu.rsp + 8 = _
    rw [hpopEntry]
    bv_omega
  · have hrcx : returned.popEntry.popUserStack.cpu.rcx = loadWord returned.mem returned.cpu.rsp :=
      rfl
    have hmem : returned.popEntry.mem = returned.mem := by
      simp only [Machine.popEntry, Machine.pop]
    have hrdx : returned.popEntry.popUserStack.cpu.rdx =
        loadWord returned.popEntry.mem returned.popEntry.cpu.rsp := rfl
    rw [Machine.iretWords, hrcx, hrdx, hmem, hrsp, hpopEntry]

/-- The last of the words pushed is 40 bytes below the top. -/
theorem user_pointers {returned : Machine} {next : Word} {inside : List Word}
    (hstack : 16384 ≤ p.proc.kernelStack.toNat) (hstart : p.rsp = p.proc.kernelStack - 24)
    (hswitched : m.contextSwitch.cpu.rsp = p.proc.kernelStack - 16)
    (hcalled : (m.contextSwitch.processUserTrampolineFn next).cpu.rsp = p.proc.kernelStack - 24)
    (hrsp : returned.cpu.rsp = p.proc.kernelStack - 16)
    (hinside : ∀ sp ∈ inside, OnKernelStack p sp) :
    ∀ sp ∈ userPointers p m next inside returned, OnKernelStack p sp := by
  obtain ⟨hpopEntry, hpopStack, hwords⟩ := user_popped hrsp
  have hbelow : ∀ d : Nat, d ≤ 40 → OnKernelStack p (p.proc.kernelStack - BitVec.ofNat 64 d) := by
    intro d hd
    unfold OnKernelStack
    bv_omega
  intro sp hsp
  rw [userPointers, List.mem_append, List.mem_append, List.mem_append] at hsp
  rcases hsp with ((hsp | hsp) | hsp) | hsp
  · rw [hstart, hswitched, hcalled] at hsp
    simp only [List.mem_cons, List.not_mem_nil, or_false] at hsp
    rcases hsp with rfl | rfl | rfl
    · exact hbelow 24 (by decide)
    · exact hbelow 16 (by decide)
    · exact hbelow 24 (by decide)
  · exact hinside sp hsp
  · rw [hrsp, hpopEntry] at hsp
    simp only [List.mem_cons, List.not_mem_nil, or_false] at hsp
    rcases hsp with rfl | rfl
    · exact hbelow 16 (by decide)
    · exact hbelow 8 (by decide)
  · obtain ⟨ws, hws, rfl⟩ := List.mem_map.1 hsp
    have hlength : ws.length ≤ 5 := by
      have := ((List.mem_inits ..).1 hws).length_le
      rwa [hwords] at this
    rw [Machine.pushAll_cpu, hpopStack]
    exact hbelow (8 * ws.length) (by omega)

theorem userSegments (rip rflags rsp : Word) :
    (Machine.IretFrame.mk rip 0x23 rflags rsp 0x1B).UserSegments := by
  refine ⟨?_, ?_, fun gdt tss syscallEntry mem r apart => ?_⟩
  · show (0x23 : Word) &&& 7 = 3
    decide
  · show (0x1B : Word) &&& 7 = 3
    decide
  · have hheld := (gdtInit_tables apart syscallEntry mem r).1.segments
    have hcode : ((0x23 : Word) >>> 3).toNat = 4 ∧ ((0x1B : Word) >>> 3).toNat = 3 := by decide
    dsimp only
    rw [hcode.1, hcode.2, hheld 4 _ rfl, hheld 3 _ rfl]
    exact ⟨rfl, rfl⟩

/-- The user trampoline. -/
theorem starts_user (built : Built heap p [p.userStack, entry, fns.user])
    (awaits : Awaits m.mem heap p) (other : OtherDescriptor curr p) (hrdi : m.cpu.rdi = curr)
    (hrsi : m.cpu.rsi = p.address) : StartsUser fns entry p m := by
  obtain ⟨hrip, -⟩ := dispatched built (Nat.le_refl 3) awaits other hrdi hrsi (i := 2) rfl rfl
  refine ⟨hrip, fun next returned inside hsysv => ?_⟩
  obtain ⟨⟨-, hswitched, hcalled⟩, hrsp, hentry, huser⟩ :=
    user_returned built awaits other hrdi hrsi hsysv
  obtain ⟨-, hpopStack, hwords⟩ := user_popped hrsp
  rw [hentry, huser] at hwords
  have hstack := built.stack
  have hframe : returned.processUserTrampolineEnter.iretFrame =
      ⟨entry, 0x23, 0x202, p.userStack, 0x1B⟩ := by
    have hpushed := @pushAll_iretFrame returned.popEntry.popUserStack entry 0x23 0x202 p.userStack
      0x1B (by rw [hpopStack]; omega)
    rw [← hwords] at hpushed
    exact hpushed
  refine ⟨?_, rfl, fun hinside => ?_⟩
  · rw [hframe]
    refine ⟨rfl, rfl, userSegments _ _ _, ?_⟩
    show (0x202 : Word) &&& 0x200 ≠ 0
    decide
  · refine user_pointers hstack built.rsp hswitched hcalled hrsp fun sp hsp => ?_
    obtain ⟨hlo, hhi⟩ := hinside sp hsp
    rw [hcalled] at hlo hhi
    have hnat : (p.proc.kernelStack - 24).toNat = p.proc.kernelStack.toNat - 24 := by bv_omega
    rw [hnat, Nat.sub_sub] at hlo
    rw [hnat] at hhi
    exact ⟨hlo, by omega⟩

end Start

/-- The first switch to a process that one of the constructors has returned, from whatever process or
    from the boot code, and with whatever else in the registers: a kernel process starts in its entry
    function, a user process at the address that its constructor has stored. -/
theorem first_dispatch (image : KernelImage) (k : Kernel) (hk : KernelState image k) (fuel : Nat)
    (fns : Trampolines) (k' : Kernel) (p : NewProcess) (m : Machine) (curr : Word)
    (awaits : Awaits m.mem k'.heap p) (other : OtherDescriptor curr p) (hrdi : m.cpu.rdi = curr)
    (hrsi : m.cpu.rsi = p.address) :
    (∀ entry, processCreate fuel fns k entry = .ok (k', some p) → StartsKernel fns entry p m) ∧
    (∀ entry, processCreateUser fuel fns k entry = .ok (k', some p) →
      StartsUser fns (userCodeVirt + (entry &&& 0xFFF#64)) p m ∧ p.userStack = userStackVirt) ∧
    (∀ stale path useLinuxAbi,
      processCreateElf fuel stale fns k path useLinuxAbi = .ok (k', some p) →
      ∃ pos size, findFile k.disk.image k.disk.length path (k.disk.length / 512 + 1) 0 =
          some (pos, size) ∧
        StartsUser fns (fileHeader stale k.disk.image (openedFile pos size)).eEntry p m ∧
        p.userStack = userStackVirt - 8#64) := by
  obtain ⟨live, blocks, inv⟩ := hk.heapInv
  refine ⟨fun entry h => ?_, fun entry h => ?_, fun stale path useLinuxAbi h => ?_⟩
  · exact starts_kernel (processCreate_built inv h) awaits other hrdi hrsi
  · obtain ⟨built, huser⟩ := processCreateUser_built inv h
    exact ⟨starts_user built awaits other hrdi hrsi, huser⟩
  · obtain ⟨pos, size, hfind, built, huser⟩ := processCreateElf_built inv h
    exact ⟨pos, size, hfind, starts_user built awaits other hrdi hrsi, huser⟩

/-- A switch from a descriptor outside of the heap to a new process. -/
def switchingTo (heap : KernelHeap) (p : NewProcess) : Machine where
  cpu := { rdi := 0xFFFFFFFF00000000, rsi := p.address, rbx := 7, r15 := 8 }
  mem := storeWord heap.mem (Machine.savedRsp p.address) p.rsp
  kernelStackTop := 0x120000
  userRspTmp := 0

/-- A function that returns at once. -/
theorem sysVReturn_at_once (top : Word) (m : Machine) :
    SysVReturn top m { m with cpu := { m.cpu with rsp := m.cpu.rsp + 8 } } :=
  ⟨rfl, rfl, fun _ _ _ => rfl⟩

/-- The first process of a kernel that has booted, with a `pic_send_eoi` that returns at once. -/
theorem first_dispatch_booted : ∃ k fuel stale k' p pos size,
    KernelState bootedImage.toKernelImage k ∧
      processCreateElf fuel stale ⟨0x101000#64, 0x102000#64⟩ k [97] 0#32 = .ok (k', some p) ∧
      StartsUser ⟨0x101000#64, 0x102000#64⟩
        (fileHeader stale k.disk.image (openedFile pos size)).eEntry p (switchingTo k'.heap p) ∧
      ∃ returned, SysVReturn p.proc.kernelStack
        ((switchingTo k'.heap p).contextSwitch.processUserTrampolineFn 0x102100) returned := by
  obtain ⟨vmm, fuel, stale, -, k', p, boot, -, helf, -⟩ :=
    bootedKernel_creates ⟨0x101000#64, 0x102000#64⟩
  have hstate := bootedKernel_state (elfHeader 0) (by decide) boot
  obtain ⟨live, blocks, inv⟩ := hstate.heapInv
  obtain ⟨_, _, _, built, _⟩ := processCreateElf_built inv helf
  have haddress := built.address
  have htop := built.top
  unfold heapHi at haddress htop
  have hcurr : (0xFFFFFFFF00000000 : Word).toNat = 0xFFFFFFFF00000000 := rfl
  have other : OtherDescriptor 0xFFFFFFFF00000000 p :=
    ⟨by decide, .inr (by rw [hcurr]; omega), .inr (by rw [hcurr]; omega)⟩
  obtain ⟨pos, size, _, hstarts, _⟩ := (first_dispatch _ _ hstate fuel ⟨0x101000#64, 0x102000#64⟩ k' p
    (switchingTo k'.heap p) _ (built.awaits (Nat.le_refl 3)) other rfl rfl).2.2 stale [97] 0#32 helf
  exact ⟨_, fuel, stale, k', p, pos, size, hstate, helf, hstarts, _, sysVReturn_at_once _ _⟩

end CustomKernel
