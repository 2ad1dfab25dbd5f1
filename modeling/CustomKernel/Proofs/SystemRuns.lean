/-
Module: CustomKernel.Proofs.SystemRuns
Layer: Proofs
Purpose: Runs of the whole memory system: the kernel is booted, processes are constructed in any of
  the three ways, and user processes grow their heaps or map the frame buffer, in any order. What
  holds in every state of such a run, whatever programs are loaded and whatever is asked for: the
  tables form a tree, the kernel's own PML4 has its first entry alone, and every frame that left the
  allocator did so through `pmm_alloc`.
Imports: CustomKernel.Proofs.Allocations, CustomKernel.Proofs.ProgramLoad,
  CustomKernel.Proofs.ElfFiles, CustomKernel.Proofs.UserConfinement
Trusted boundary: the kernel heap, the descriptors and the archive are records beside physical
  memory; what is mapped over them at PML4 index 0 does not reach them
Main exports: System, SystemCall, SystemStep, SystemInv, SystemInv.boot, SystemInv.step
-/
import CustomKernel.Proofs.Allocations
import CustomKernel.Proofs.ProgramLoad
import CustomKernel.Proofs.ElfFiles
import CustomKernel.Proofs.UserConfinement

namespace CustomKernel

open Memory Filesystem Syscall Loops StepSystem

/-! ### The system -/

/-- The kernel and the user processes that exist. -/
structure System where
  kernel : Kernel
  users : List Process

inductive SystemCall where
  | create (entry : Word)
  | createUser (entry : Word)
  | createElf (path : List Byte) (useLinuxAbi : BitVec 32)
  | user (pid : Nat) (call : UserCall)

/-- The kernel while a process is constructed: the constructors are called from `kernel_main`, which
    runs in the address space the kernel has booted in. -/
def System.constructing (image : BootImage) (s : System) : Kernel :=
  { s.kernel with vmm := vmmSwitchAddressSpace s.kernel.vmm image.pml4Table }

/-- The system with what a constructor has returned. -/
def System.add (s : System) (k : Kernel) (new : Option NewProcess) : System :=
  { kernel := k, users := s.users ++ (new.map NewProcess.proc).toList }

/-- A call that returns. The entry of a user process is a function of the kernel image, eight pages
    before its end at least; a system call runs in the address space of its caller. A call may map
    pages at PML4 index 0, and what it maps over the kernel heap, a descriptor or the archive does
    not reach the records that stand for them here. -/
def SystemStep (image : BootImage) (fns : Trampolines) (s : System) : SystemCall → System → Prop
  | .create entry, s' => ∃ fuel k new,
      processCreate fuel fns (s.constructing image) entry = .ok (k, new) ∧ s' = { s with kernel := k }
  | .createUser entry, s' =>
      image.kernelStart ≤ entry.toNat ∧ entry.toNat + 8 * pageSize ≤ image.kernelEnd ∧
        ∃ fuel k new, processCreateUser fuel fns (s.constructing image) entry = .ok (k, new) ∧
          s' = s.add k new
  | .createElf path useLinuxAbi, s' => ∃ fuel stale k new,
      processCreateElf fuel stale fns (s.constructing image) path useLinuxAbi = .ok (k, new) ∧
        s' = s.add k new
  | .user pid call, s' => ∃ proc r, s.users[pid]? = some proc ∧
      call.run (vmmSwitchAddressSpace s.kernel.vmm proc.pageTable) proc = .ok r ∧
      s' = { kernel := { s.kernel with vmm := r.vmm }, users := s.users.set pid r.proc }

/-! ### The invariant -/

/-- A frame that `pmm_init` keeps back. -/
def ReservedFrame (image : BootImage) (w : Word) : Prop :=
  ∃ n < totalFrames, n ∉ (pmmInit image.toKernelImage).freeSet ∧ w = frameAddr n

/-- Nothing above PML4 index 0 in the kernel's own tables. -/
def KernelClean (image : BootImage) (mem : PhysMem) : Prop :=
  ∀ i, 1 ≤ i → i < 512 → hasFlag (mem image.pml4Table i) ptePresent = false

/-- The tables of all address spaces, whichever is loaded. -/
structure TreeInv (image : BootImage) (tag : Word → Option Label) (s : Vmm) : Prop where
  tree : PageTree image (ReservedFrame image) tag s
  clean : KernelClean image s.mem
  allocs : Allocs (pmmInit image.toKernelImage) s.pmm

/-- The address space of a user process. -/
def UserRoot (image : BootImage) (tag : Word → Option Label) (pml4 : Word) : Prop :=
  tag pml4 = some .root ∧ pml4 ≠ image.pml4Table

structure SystemInv (image : BootImage) (tag : Word → Option Label) (s : System) : Prop
    extends TreeInv image tag s.kernel.vmm where
  users : ∀ proc ∈ s.users, UserRoot image tag proc.pageTable

section Steps

variable {image : BootImage} {tag tag' : Word → Option Label} {vmm vmm' : Vmm} {pml4 virt : Word}

theorem UserRoot.ext (h : UserRoot image tag pml4) (hext : Extends tag tag') :
    UserRoot image tag' pml4 :=
  ⟨hext _ _ h.1, h.2⟩

theorem TreeInv.switch (h : TreeInv image tag vmm) (cr3 : Word) :
    TreeInv image tag (vmmSwitchAddressSpace vmm cr3) :=
  ⟨h.tree.switch cr3, h.clean, h.allocs⟩

/-- Mapping in another address space leaves the kernel's PML4 alone. -/
theorem KernelClean.mapped {leaf : Word} (h : KernelClean image vmm.mem)
    (hroot : tag image.pml4Table = some .root) (hne : pml4 ≠ image.pml4Table)
    (m : Mapped privateOwner pml4 virt leaf tag vmm tag' vmm') :
    KernelClean image vmm'.mem := by
  intro i hlo hhi
  rw [m.roots hroot fun hhit => hne hhit.1.symm]
  exact h i hlo hhi

/-- The loop over fresh pages. -/
theorem TreeInv.pages {virt : Nat → Word} {flags : Word} {count i : Nat} {out : FreshPages}
    (h : TreeInv image tag vmm) (hroot : UserRoot image tag pml4) (hflags : entryAddr flags = 0#64)
    (hok : mapFreshPages pml4 virt flags count i vmm = .ok out) :
    ∃ tag', TreeInv image tag' out.vmm ∧ Extends tag tag' ∧ out.vmm.cr3 = vmm.cr3 := by
  have hloop := mapFreshPages_invariant
    (fun t => ∃ tag', PageTree image (ReservedFrame image) tag' t ∧ KernelClean image t.mem ∧
      Extends tag tag' ∧ t.cr3 = vmm.cr3)
    (fun t ht => by
      obtain ⟨tag', htree, -⟩ := ht
      exact htree.zero_notMem)
    (fun k _ _ t n t' ht hn hmap => by
      obtain ⟨tag₁, htree, hclean, hext, hcr3⟩ := ht
      obtain ⟨tag₂, htree', m⟩ := htree.map_fresh (hroot.ext hext).1 hn hflags hmap
      have hkernel := @extends_update _ _ (slot privateOwner pml4 (virt k) 0)
        (htree.tagged.free_unlabelled hn) _ _ htree.kernel
      exact ⟨tag₂, htree', @KernelClean.mapped _ _ _ { t with pmm := reserveFrame n t.pmm } _ _ _ _
          hclean hkernel hroot.2 m.mapped,
        hext.trans (m.ext htree.tagged hn), (vmmMapIn_cr3 hmap).trans hcr3⟩)
    ⟨tag, h.tree, h.clean, fun _ _ ht => ht, rfl⟩ hok
  obtain ⟨tag', htree, hclean, hext, hcr3⟩ := hloop
  exact ⟨tag', ⟨htree, hclean, h.allocs.trans (mapFreshPages_allocs _ _ _ _ hok)⟩, hext, hcr3⟩

/-- A page above index 0 mapped to a frame the allocator does not know. -/
theorem TreeInv.map_reserved {phys flags : Word} (h : TreeInv image tag vmm)
    (hroot : UserRoot image tag pml4) (hvirt : 1 ≤ pml4Index virt)
    (hphys : ReservedFrame image phys) (hflags : entryAddr flags = 0#64)
    (hok : vmmMapIn vmm pml4 virt phys flags = .ok vmm') :
    ∃ tag', TreeInv image tag' vmm' ∧ Extends tag tag' ∧ vmm'.cr3 = vmm.cr3 := by
  obtain ⟨tag', m, t⟩ := vmmMapIn_touched h.tree.tagged hroot.1 hok
  have hleaf : ReservedFrame image (entryAddr (phys ||| flags ||| ptePresent)) := by
    obtain ⟨n, hn, hreserved, rfl⟩ := hphys
    rw [entryAddr_or, entryAddr_or, hflags, entryAddr_ptePresent, BitVec.or_zero, BitVec.or_zero,
      entryAddr_frameAddr hn]
    exact ⟨n, hn, hreserved, rfl⟩
  exact ⟨tag', ⟨h.tree.mapped hroot.1 m t (.inr ⟨hleaf, hvirt⟩),
    h.clean.mapped h.tree.kernel hroot.2 m, h.allocs.trans (vmmMapIn_allocs hok)⟩, m.ext,
    vmmMapIn_cr3 hok⟩

/-- A new PML4, created while the kernel's is loaded. -/
theorem TreeInv.created (h : TreeInv image tag vmm) (hcr3 : vmm.cr3 = image.pml4Table) :
    vmmCreateAddressSpace vmm = (vmm, 0#64) ∨
      ∃ n vmm' tag', vmmCreateAddressSpace vmm = (vmm', frameAddr n) ∧ frameAddr n ≠ 0#64 ∧
        TreeInv image tag' vmm' ∧ Extends tag tag' ∧ UserRoot image tag' (frameAddr n) ∧
        vmm'.cr3 = vmm.cr3 := by
  have hroot : tag vmm.cr3 = some .root := by rw [hcr3, h.tree.kernel]
  have hclean := h.clean
  unfold KernelClean at hclean
  rw [← hcr3] at hclean
  rcases vmmCreateAddressSpace_spec h.tree.tagged hroot (privateOwner_shared hclean) with
    ⟨-, hnull⟩ | ⟨n, hn, hne, vmm', hcreate, c⟩
  · exact .inl hnull
  · have hother : image.pml4Table ≠ frameAddr n := by
      intro heq
      have := c.fresh
      rw [← heq, h.tree.kernel] at this
      cases this
    have hallocs := vmmCreateAddressSpace_allocs vmm
    rw [hcreate] at hallocs
    refine .inr ⟨n, vmm', _, hcreate, hne, ⟨h.tree.created hroot c, fun i hlo hhi => ?_,
      h.allocs.trans hallocs⟩, c.ext, ⟨Function.update_self .., hother.symm⟩, c.cr3⟩
    rw [c.other _ hother]
    exact h.clean i hlo hhi

/-! ### Programs -/

/-- Loading a program leaves the kernel's PML4 alone. -/
theorem KernelClean.rule {n : Nat} (hne : frameAddr n ≠ image.pml4Table) {A : Word → Prop} :
    LoadRule image (ReservedFrame image) (frameAddr n) A
      (fun _ s => KernelClean image s.mem) where
  map {tag tag' s s' virt m} htree hclean _ hm _ mapped := by
    have hkernel := @extends_update _ _ (slot privateOwner (frameAddr n) virt 0)
      (htree.tagged.free_unlabelled hm) _ _ htree.kernel
    exact @KernelClean.mapped _ _ _ { s with pmm := reserveFrame m s.pmm } _ _ _ _ hclean hkernel hne
      mapped.mapped
  store {tag s s' v m} htree hclean _ _ stored := by
    intro i hlo hhi
    rw [stored.outside image.pml4Table fun z _ => ?_]
    · exact hclean i hlo hhi
    · rw [htree.kernel]
      exact fun heq => nomatch heq
  switch _ hclean := hclean

/-- A program of any contents. -/
theorem TreeInv.createElf {elf : ElfFile} {r : ElfReturn} (h : TreeInv image tag vmm)
    (hcr3 : vmm.cr3 = image.pml4Table) (hok : createElfAddressSpace vmm elf = .ok r) :
    ∃ tag', TreeInv image tag' r.vmm ∧ Extends tag tag' ∧
      ∀ proc, r.proc = some proc → UserRoot image tag' proc.pageTable := by
  have hroot : tag vmm.cr3 = some .root := by rw [hcr3, h.tree.kernel]
  have hclean := h.clean
  unfold KernelClean at hclean
  rw [← hcr3] at hclean
  have hne : ∀ n ∈ vmm.pmm.freeSet, frameAddr n ≠ image.pml4Table := by
    intro n hn heq
    have := h.tree.tagged.free_unlabelled hn
    rw [heq, h.tree.kernel] at this
    cases this
  have hallocs := h.allocs.trans (createElfAddressSpace_allocs hok)
  rcases createElfAddressSpace_load (A := fun _ => True)
      (P := fun _ _ s => KernelClean image s.mem) h.tree hroot hclean
      (fun n hn => KernelClean.rule (hne n hn))
      (fun n hn s' c i hlo hhi => by
        rw [c.other _ (hne n hn).symm]
        exact h.clean i hlo hhi)
      (fun _ _ => trivial) (fun _ _ _ _ _ => trivial) hok with
    ⟨hvmm, hproc⟩ | ⟨n, hn, s₁, tag', c, load, hproc⟩
  · rw [hvmm, hproc]
    exact ⟨tag, h, fun _ _ ht => ht, fun _ hp => nomatch hp⟩
  · refine ⟨tag', ⟨load.tree.toPageTree, load.prop, hallocs⟩, c.ext.trans load.ext,
      fun proc hp => ?_⟩
    rw [hproc proc hp]
    exact ⟨load.tree.root, hne n hn⟩

/-! ### Kernel functions as user programs -/

/-- The identity map translates the first gigabyte to itself. -/
theorem PageTree.getPhys_identity {window : Word → Prop} (h : PageTree image window tag vmm)
    (hroot : tag vmm.cr3 = some .root) {v : Word} (hv : v.toNat < 2 ^ 30) : vmmGetPhys vmm v = v := by
  have hpml4 : pml4Index v = 0 := by
    rw [pml4Index, tableIndex_eq]
    omega
  have hpdpt : pdptIndex v = 0 := by
    rw [pdptIndex, tableIndex_eq]
    omega
  have hroots := h.roots hroot
  obtain ⟨hpresent, hhuge, haddr⟩ := h.identity (pdIndex v) (tableIndex_lt _ _)
  unfold vmmGetPhys
  simp only [h.tagged.entryAddr_eq hroot, hpml4, hpdpt, hroots.present, hroots.addr, h.link.present,
    h.link.small, h.link.addr, hpresent, hhuge, haddr, Bool.not_true, Bool.false_eq_true, if_false,
    if_true]
  have hlow : (v &&& 0x1FFFFF#64).toNat = v.toNat % 2 ^ 21 :=
    Bits.toNat_and_lowMask v (n := 21) (by decide)
  apply BitVec.eq_of_toNat_eq
  rw [BitVec.toNat_add, BitVec.toNat_ofNat, hlow, pdIndex, tableIndex_eq]
  omega

/-- The pages of a kernel function are frames of the image. -/
theorem reserved_of_image {entry : Word} (hlo : image.kernelStart ≤ entry.toNat)
    (hhi : entry.toNat + 8 * pageSize ≤ image.kernelEnd) {i : Nat} (hi : i < 8) :
    ReservedFrame image (entryAddr entry + BitVec.ofNat 64 (i * 0x1000)) := by
  have hend : image.kernelEnd ≤ 268435456 := image.end_le
  rw [show pageSize = 4096 from rfl] at hhi
  refine ⟨entry.toNat / 4096 + i, show _ < 65536 by omega, fun hfree => ?_, ?_⟩
  · refine (((pmmInit_spec _).2 _).1 hfree).2 (.inr ?_)
    show image.kernelStart / 4096 ≤ _ ∧ _ < (image.kernelEnd + 4096 - 1) / 4096
    omega
  · apply BitVec.eq_of_toNat_eq
    rw [toNat_frameAddr (show _ < 65536 by omega), BitVec.toNat_add, toNat_entryAddr,
      BitVec.toNat_ofNat]
    omega

/-- The loop that maps the pages of a kernel function. -/
theorem TreeInv.userCode {entry : Word} (h : TreeInv image tag vmm)
    (hroot : UserRoot image tag pml4) (hlo : image.kernelStart ≤ entry.toNat)
    (hhi : entry.toNat + 8 * pageSize ≤ image.kernelEnd)
    (hok : mapUserCode pml4 (entryAddr entry) vmm = .ok vmm') :
    ∃ tag', TreeInv image tag' vmm' ∧ Extends tag tag' := by
  refine forRangeE_invariant (fun _ t => ∃ tag', TreeInv image tag' t ∧ Extends tag tag')
    (Nat.zero_le 8) ⟨tag, h, fun _ _ ht => ht⟩ ?_ hok
  rintro i t t' hi ⟨tag₁, ht, hext⟩ hmap
  have hpage : (userCodeVirt + BitVec.ofNat 64 (i * 0x1000)).toNat = 0x8000200000 + i * 4096 := by
    rw [userCodeVirt, BitVec.toNat_add, BitVec.toNat_ofNat, BitVec.toNat_ofNat]
    omega
  obtain ⟨tag₂, ht', hext', -⟩ := ht.map_reserved (hroot.ext hext)
    (pml4Index_of_range (by omega) (by omega)) (reserved_of_image hlo hhi hi) (by decide) hmap
  exact ⟨tag₂, ht', hext.trans hext'⟩

theorem processDestroy_vmm {fuel : Nat} {k k' : Kernel} {p : NewProcess}
    (h : processDestroy fuel k p = .ok k') : k'.vmm = k.vmm := by
  obtain ⟨heap₁, -, h⟩ := bind_ok h
  obtain ⟨heap₂, -, h⟩ := bind_ok h
  cases h
  rfl

/-- `process_create_user` of a kernel function. -/
theorem TreeInv.createUser {fuel : Nat} {fns : Trampolines} {entry : Word} {k k' : Kernel}
    {new : Option NewProcess} (h : TreeInv image tag k.vmm) (hcr3 : k.vmm.cr3 = image.pml4Table)
    (hlo : image.kernelStart ≤ entry.toNat) (hhi : entry.toNat + 8 * pageSize ≤ image.kernelEnd)
    (hok : processCreateUser fuel fns k entry = .ok (k', new)) :
    ∃ tag', TreeInv image tag' k'.vmm ∧ Extends tag tag' ∧
      ∀ p, new = some p → UserRoot image tag' p.proc.pageTable := by
  unfold processCreateUser at hok
  obtain ⟨⟨k₁, proc⟩, halloc, hok⟩ := bind_ok hok
  obtain ⟨hvmm, -⟩ := processAlloc_frame halloc
  dsimp only at hvmm hok
  cases proc with
  | none =>
      cases hok
      rw [hvmm]
      exact ⟨tag, h, fun _ _ ht => ht, fun _ hp => nomatch hp⟩
  | some p =>
      rw [hvmm] at hok
      rcases h.created hcr3 with hnull | ⟨n, vmm₁, tag₁, hcreate, hne, h₁, hext₁, hroot, hcr3₁⟩
      · rw [hnull] at hok
        obtain ⟨k₂, hdestroy, hok⟩ := bind_ok hok
        have hvmm₂ := processDestroy_vmm hdestroy
        cases hok
        rw [hvmm₂]
        exact ⟨tag, h, fun _ _ ht => ht, fun _ hp => nomatch hp⟩
      · rw [hcreate] at hok
        simp only [hne, if_false] at hok
        obtain ⟨stack, hstack, hok⟩ := bind_ok hok
        obtain ⟨tag₂, h₂, hext₂, hcr3₂⟩ := h₁.pages hroot (by decide) hstack
        split at hok
        · obtain ⟨vmm₃, hcode, hok⟩ := bind_ok hok
          -- the entry is read in the identity map of the loaded address space
          have hloaded : stack.vmm.cr3 = image.pml4Table := (hcr3₂.trans hcr3₁).trans hcr3
          have hlow : (entryAddr entry).toNat < 2 ^ 30 := by
            have hend : image.kernelEnd ≤ 268435456 := image.end_le
            rw [toNat_entryAddr]
            omega
          have hphys := PageTree.getPhys_identity h₂.tree (by rw [hloaded, h₂.tree.kernel]) hlow
          rw [hphys] at hcode hok
          obtain ⟨tag₃, h₃, hext₃⟩ := h₂.userCode (hroot.ext hext₂) hlo hhi hcode
          split at hok
          · cases hok
          · split at hok
            · cases hok
            · cases hok
              refine ⟨tag₃, h₃, (hext₁.trans hext₂).trans hext₃, fun p' hp => ?_⟩
              cases hp
              exact (hroot.ext hext₂).ext hext₃
        · cases hok
          exact ⟨tag₂, h₂, hext₁.trans hext₂, fun _ hp => nomatch hp⟩

/-! ### System calls -/

/-- The pages of the VGA window are below the frames of the allocator. -/
theorem reserved_vga {i : Nat} (hi : i < 16) :
    ReservedFrame image (0xA0000#64 + BitVec.ofNat 64 (i * 0x1000)) := by
  refine ⟨160 + i, show _ < 65536 by omega, fun hfree => ?_, ?_⟩
  · refine (((pmmInit_spec _).2 _).1 hfree).2 (.inl ?_)
    show _ < 256
    omega
  · apply BitVec.eq_of_toNat_eq
    rw [toNat_frameAddr (show _ < 65536 by omega), BitVec.toNat_add, BitVec.toNat_ofNat,
      BitVec.toNat_ofNat]
    omega

theorem TreeInv.mapFb {proc : Process} {r : HeapReturn} (h : TreeInv image tag vmm)
    (hroot : UserRoot image tag proc.pageTable) (hok : sysMapFb vmm proc = .ok r) :
    r.proc = proc ∧ ∃ tag', TreeInv image tag' r.vmm ∧ Extends tag tag' := by
  unfold sysMapFb at hok
  split at hok
  · cases hok
    exact ⟨rfl, tag, h, fun _ _ ht => ht⟩
  · obtain ⟨s', hloop, hok⟩ := bind_ok hok
    cases hok
    refine ⟨rfl, ?_⟩
    refine forRangeE_invariant (fun _ t => ∃ tag', TreeInv image tag' t ∧ Extends tag tag')
      (Nat.zero_le 16) ⟨tag, h, fun _ _ ht => ht⟩ ?_ hloop
    rintro i t t' hi ⟨tag₁, ht, hext⟩ hmap
    have hpage : (userFbVirt + BitVec.ofNat 64 (i * 0x1000)).toNat = 0x9000000000 + i * 4096 := by
      rw [userFbVirt, BitVec.toNat_add, BitVec.toNat_ofNat, BitVec.toNat_ofNat]
      omega
    obtain ⟨tag₂, ht', hext', -⟩ := ht.map_reserved (hroot.ext hext)
      (pml4Index_of_range (by omega) (by omega)) (reserved_vga hi) (by decide) hmap
    exact ⟨tag₂, ht', hext.trans hext'⟩

/-- A system call of a user process. -/
theorem TreeInv.userCall {call : UserCall} {proc : Process} {r : HeapReturn}
    (h : TreeInv image tag vmm) (hroot : UserRoot image tag proc.pageTable)
    (hok : call.run vmm proc = .ok r) :
    r.proc.pageTable = proc.pageTable ∧ ∃ tag', TreeInv image tag' r.vmm ∧ Extends tag tag' := by
  by_cases hfb : call = .mapFb
  · subst hfb
    obtain ⟨hproc, hinv⟩ := h.mapFb hroot hok
    exact ⟨by rw [hproc], hinv⟩
  · obtain ⟨⟨brk, hproc⟩, hpages⟩ := UserCall.run_cases hfb hok
    refine ⟨by rw [hproc], ?_⟩
    rcases hpages with ⟨hvmm, -⟩ | ⟨out, hmap, hvmm, -⟩
    · rw [hvmm]
      exact ⟨tag, h, fun _ _ ht => ht⟩
    · obtain ⟨tag', h', hext, -⟩ := h.pages hroot userPage_flags hmap
      rw [hvmm]
      exact ⟨tag', h', hext⟩

end Steps

/-! ### Runs -/

section Runs

variable {image : BootImage} {fns : Trampolines} {tag : Word → Option Label} {s s' : System}

/-- The system before the first process. -/
theorem SystemInv.boot {ram : PhysMem} {k : Kernel} (hboot : kernelBoot image ram = .ok k.vmm) :
    ∃ tag, SystemInv image tag { kernel := k, users := [] } := by
  obtain ⟨tag, htree⟩ := @PageTree.booted _ (ReservedFrame image) _ _ hboot
  obtain ⟨tag', hbooted⟩ := @kernelBoot_spec privateOwner _ _ _ hboot
  exact ⟨tag, ⟨htree, hbooted.low, kernelBoot_allocs hboot⟩, fun _ hp => nomatch hp⟩

/-- A constructor adds at most one process. -/
theorem SystemInv.add {k : Kernel} {new : Option NewProcess} {tag' : Word → Option Label}
    (inv : SystemInv image tag s) (hext : Extends tag tag') (h : TreeInv image tag' k.vmm)
    (hnew : ∀ p, new = some p → UserRoot image tag' p.proc.pageTable) :
    SystemInv image tag' (s.add k new) := by
  refine ⟨h, fun proc hproc => ?_⟩
  rcases List.mem_append.1 hproc with hold | hadded
  · exact (inv.users proc hold).ext hext
  · cases new with
    | none => cases hadded
    | some p =>
        obtain rfl := List.mem_singleton.1 hadded
        exact hnew p rfl

/-- Every call keeps the invariant. -/
theorem SystemInv.step {call : SystemCall} (inv : SystemInv image tag s)
    (step : SystemStep image fns s call s') : ∃ tag', SystemInv image tag' s' ∧ Extends tag tag' := by
  have hstart : TreeInv image tag (s.constructing image).vmm := inv.toTreeInv.switch _
  cases call with
  | create entry =>
      obtain ⟨fuel, k, new, hok, rfl⟩ := step
      refine ⟨tag, ⟨?_, inv.users⟩, fun _ _ ht => ht⟩
      obtain ⟨⟨k₁, proc⟩, halloc, hok⟩ := bind_ok hok
      obtain ⟨hvmm, -⟩ := processAlloc_frame halloc
      dsimp only at hvmm hok
      cases proc with
      | none =>
          cases hok
          rw [hvmm]
          exact hstart
      | some p =>
          cases hok
          show TreeInv image tag k₁.vmm
          rw [hvmm]
          exact hstart
  | createUser entry =>
      obtain ⟨hlo, hhi, fuel, k, new, hok, rfl⟩ := step
      obtain ⟨tag', h, hext, hnew⟩ := hstart.createUser rfl hlo hhi hok
      exact ⟨tag', inv.add hext h hnew, hext⟩
  | createElf path useLinuxAbi =>
      obtain ⟨fuel, stale, k, new, hok, rfl⟩ := step
      obtain ⟨-, ⟨hvmm, hnone⟩ | ⟨p, size, r, -, hr, hvmm, hspace⟩⟩ := processCreateElf_cases hok
      · refine ⟨tag, inv.add (fun _ _ ht => ht) (hvmm ▸ hstart) fun p hp => ?_, fun _ _ ht => ht⟩
        rw [hnone] at hp
        cases hp
      · obtain ⟨tag', h, hext, hroot⟩ := hstart.createElf rfl hr
        refine ⟨tag', inv.add hext (hvmm ▸ h) fun p hp => ?_, hext⟩
        rw [hp] at hspace
        cases hproc : r.proc with
        | none =>
            rw [hproc] at hspace
            cases hspace
        | some proc =>
            rw [hproc] at hspace
            have htable : p.proc.pageTable = proc.pageTable :=
              congrArg Prod.fst (Option.some.inj hspace)
            rw [htable]
            exact hroot proc hproc
  | user pid call =>
      obtain ⟨proc, r, hproc, hok, rfl⟩ := step
      have hroot := inv.users proc (List.mem_of_getElem? hproc)
      obtain ⟨htable, tag', h, hext⟩ := (inv.toTreeInv.switch proc.pageTable).userCall hroot hok
      refine ⟨tag', ⟨h, fun other hother => ?_⟩, hext⟩
      rcases List.mem_or_eq_of_mem_set hother with hold | rfl
      · exact (inv.users other hold).ext hext
      · rw [htable]
        exact hroot.ext hext

/-- Every state of a run keeps it. -/
theorem SystemInv.of_run {ram : PhysMem} {k : Kernel} {calls : List SystemCall}
    (hboot : kernelBoot image ram = .ok k.vmm)
    (run : Run (SystemStep image fns) { kernel := k, users := [] } calls s) :
    ∃ tag, SystemInv image tag s := by
  refine run.invariant (fun s => ∃ tag, SystemInv image tag s) (fun t call t' ht step => ?_)
    (SystemInv.boot hboot)
  obtain ⟨tag, inv⟩ := ht
  obtain ⟨tag', inv', -⟩ := inv.step step
  exact ⟨tag', inv'⟩

end Runs

/-! ### A kernel before its first process -/

/-- A kernel with an empty heap and an empty archive. -/
def firstKernel (vmm : Vmm) : Kernel where
  vmm := vmm
  heap := heapInit fun _ => 0
  disk := { image := fun _ => 0, length := 0, fds := fun _ => {} }
  nextPid := 1

theorem heapInit_allocs :
    ((kcalloc 4 (heapInit fun _ => 0) 1#64 processSize).bind fun r =>
      (kmalloc 4 r.1 kernelStackSize).map fun r' => (r.2 != 0#64 && r'.2 != 0#64)) = some true := by
  decide +kernel

/-- The empty heap has room for a descriptor and a stack. -/
theorem processAlloc_first (k : Kernel) (hheap : k.heap = heapInit fun _ => 0) :
    ∃ k' p, processAlloc 4 k = .ok (k', some p) := by
  obtain ⟨⟨heap₁, proc⟩, hproc, hrest⟩ := Option.bind_eq_some_iff.1 heapInit_allocs
  obtain ⟨⟨heap₂, kstack⟩, hkstack, hne⟩ := Option.map_eq_some_iff.1 hrest
  obtain ⟨hne₁, hne₂⟩ := Bool.and_eq_true_iff.1 hne
  unfold processAlloc
  rw [hheap, hproc]
  show ∃ k' p, (if proc = 0#64 then _ else _) = _
  rw [if_neg (bne_iff_ne.1 hne₁)]
  show ∃ k' p, (orEndless (kmalloc 4 heap₁ kernelStackSize) >>= _) = _
  rw [hkstack]
  show ∃ k' p, (if kstack = 0#64 then _ else _) = _
  rw [if_neg (bne_iff_ne.1 hne₂)]
  exact ⟨_, _, rfl⟩

end CustomKernel
