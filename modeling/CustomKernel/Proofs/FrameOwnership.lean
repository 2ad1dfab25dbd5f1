/-
Module: CustomKernel.Proofs.FrameOwnership
Layer: Proofs
Purpose: Every frame that `pmm_alloc` has handed out has one place in the page tables at most. The
  references to a frame are the entries on the way from the PML4 tables down to it; the labels of the
  page tree show that the entry, the table it is in and the way to that table are determined by the
  frame. The huge pages of the identity map, which cover all frames, are no references.
Imports: CustomKernel.Proofs.LoaderRuns
Trusted boundary: as in SystemRuns: the kernel heap, the descriptors and the archive are beside
  physical memory
Main exports: Reaches, References, PageTree.reference_unique, frames_owned_once
-/
import CustomKernel.Proofs.LoaderRuns

namespace CustomKernel

open Memory Filesystem Syscall Loops StepSystem

/-! ### References -/

/-- The table that a path of indices, the last one first, leads to from one of the PML4 tables. -/
inductive Reaches (mem : PhysMem) (roots : Word → Prop) : List Nat → Word → Prop where
  | root {pml4 : Word} : roots pml4 → Reaches mem roots [] pml4
  | next {path : List Nat} {table : Word} {i : Nat} : Reaches mem roots path table →
      path.length < 3 → i < 512 → hasFlag (mem table i) ptePresent = true →
      hasFlag (mem table i) pteHuge = false → Reaches mem roots (i :: path) (pteAddr (mem table i))

/-- A present entry for a frame: the frame is the next table or, below a page table, a 4KB page. -/
structure References (mem : PhysMem) (roots : Word → Prop) (path : List Nat) (table : Word) (i : Nat)
    (frame : Word) : Prop where
  reached : Reaches mem roots path table
  index : i < 512
  present : hasFlag (mem table i) ptePresent = true
  small : path.length < 3 → hasFlag (mem table i) pteHuge = false
  target : pteAddr (mem table i) = frame

/-- The address spaces: the kernel's own and those of the user processes. -/
def System.Root (image : BootImage) (s : System) (pml4 : Word) : Prop :=
  pml4 = image.pml4Table ∨ ∃ proc ∈ s.users, pml4 = proc.pageTable

section Unique

variable {image : BootImage} {window : Word → Prop} {tag : Word → Option Label} {s : Vmm}
  {roots : Word → Prop} {path path' : List Nat} {table table' : Word} {i i' : Nat}

theorem Reaches.length_le {mem : PhysMem} (h : Reaches mem roots path table) : path.length ≤ 3 := by
  cases h with
  | root _ => exact Nat.zero_le 3
  | next _ hlt _ _ _ => exact hlt

/-- The label of the table that an entry leads on to. -/
theorem Tagged.next_label {label : Label} (h : Tagged privateOwner tag s)
    (ht : tag table = some label) (hl : 2 ≤ label.level) (hi : i < 512)
    (hp : hasFlag (s.mem table i) ptePresent = true)
    (hh : hasFlag (s.mem table i) pteHuge = false) :
    tag (pteAddr (s.mem table i)) = some (label.child privateOwner table i) := by
  have hchild := h.child ht hl hi hp hh
  obtain ⟨n, hn, -, -, heq⟩ := h.frame hchild
  rw [pteAddr_of_frame hn heq, ← heq]
  exact hchild

/-- A table that is reached is labelled with the way to it. -/
theorem Reaches.label (h : Reaches s.mem roots path table) (htagged : Tagged privateOwner tag s)
    (hroots : ∀ p, roots p → tag p = some .root) :
    (path = [] ∧ tag table = some .root) ∨
      (path ≠ [] ∧ ∃ owner, tag table = some (.node owner path)) := by
  induction h with
  | root hp => exact .inl ⟨rfl, hroots _ hp⟩
  | @next path table i _ hlt hi hp hh ih =>
      refine .inr ⟨List.cons_ne_nil _ _, ?_⟩
      rcases ih with ⟨rfl, hlabel⟩ | ⟨-, owner, hlabel⟩
      · exact ⟨_, Tagged.next_label htagged hlabel (by decide) hi hp hh⟩
      · refine ⟨owner, Tagged.next_label htagged hlabel ?_ hi hp hh⟩
        show 2 ≤ 4 - path.length
        omega

/-- Below the PML4 tables, the label determines the table. -/
theorem Reaches.unique (h : PageTree image window tag s)
    (hroots : ∀ p, roots p → tag p = some .root) (hreach : Reaches s.mem roots path table)
    (hreach' : Reaches s.mem roots path table') (hne : path ≠ []) (heq : tag table = tag table') :
    table = table' := by
  induction hreach generalizing table' with
  | root hp => exact absurd rfl hne
  | @next path table i hup hlt hi hp hh ih =>
      cases hreach' with
      | @next _ table' _ hup' _ _ hp' hh' =>
          rcases hup.label h.tagged hroots with ⟨rfl, hlabel⟩ | ⟨hne', owner, hlabel⟩
          · -- from the PML4 tables: the entry of one of them, or the common first entry
            rcases hup'.label h.tagged hroots with ⟨-, hlabel'⟩ | ⟨hbad, -⟩
            · rw [Tagged.next_label h.tagged hlabel (by decide) hi hp hh,
                Tagged.next_label h.tagged hlabel' (by decide) hi hp' hh'] at heq
              injection Option.some.inj heq with howner
              by_cases hzero : i = 0
              · subst hzero
                have hlink := h.roots hlabel
                have hlink' := h.roots hlabel'
                obtain ⟨n, hn, -, -, hframe⟩ := h.tagged.frame h.pdpt
                rw [pteAddr_of_frame hn (hlink.addr.trans hframe),
                  pteAddr_of_frame hn (hlink'.addr.trans hframe)]
              · rw [privateOwner, privateOwner, if_neg hzero, if_neg hzero] at howner
                rw [Option.some.inj howner]
            · exact absurd rfl hbad
          · rcases hup'.label h.tagged hroots with ⟨hbad, -⟩ | ⟨-, owner', hlabel'⟩
            · exact absurd hbad hne'
            · have hlevel : 2 ≤ 4 - path.length := by omega
              rw [Tagged.next_label h.tagged hlabel hlevel hi hp hh,
                Tagged.next_label h.tagged hlabel' hlevel hi hp' hh'] at heq
              injection Option.some.inj heq with howner
              rw [ih hup' hne' (by rw [hlabel, hlabel', howner])]

/-- A frame that is referenced is labelled with the way to it. -/
theorem References.label {n : Nat} (h : PageTree image (ReservedFrame image) tag s)
    (hroots : ∀ p, roots p → tag p = some .root)
    (hn : n ∈ (pmmInit image.toKernelImage).freeSet)
    (r : References s.mem roots path table i (frameAddr n)) :
    ∃ owner, tag (frameAddr n) = some (.node owner (i :: path)) ∧
      ((path = [] ∧ tag table = some .root ∧ owner = privateOwner table i) ∨
        (path ≠ [] ∧ tag table = some (.node owner path))) := by
  have hlen := r.reached.length_le
  have htarget := r.target
  rcases r.reached.label h.tagged hroots with ⟨rfl, hlabel⟩ | ⟨hne, owner, hlabel⟩
  · have hnext := Tagged.next_label h.tagged hlabel (by decide) r.index r.present
      (r.small (by decide))
    rw [htarget] at hnext
    exact ⟨_, hnext, .inl ⟨rfl, hlabel, rfl⟩⟩
  · refine ⟨owner, ?_, .inr ⟨hne, hlabel⟩⟩
    by_cases hlt : path.length < 3
    · have hnext := Tagged.next_label h.tagged hlabel
        (show 2 ≤ 4 - path.length by omega) r.index r.present (r.small hlt)
      rw [htarget] at hnext
      exact hnext
    · -- a page: its own frame, or a frame that `pmm_alloc` never hands out
      have hlevel : (Label.node owner path).level = 1 := by
        show 4 - path.length = 1
        omega
      rcases h.owned table _ i hlabel hlevel r.index r.present with hown | ⟨m, hm, hreserved, heq⟩
      · obtain ⟨m, hm, -, -, heq⟩ := h.tagged.frame hown
        rw [pteAddr_of_frame hm heq] at htarget
        rw [← htarget, ← heq]
        exact hown
      · rw [pteAddr_of_frame hm heq] at htarget
        obtain rfl := frameAddr_inj hm (mem_freeSet.1 hn).1 htarget
        exact absurd hn hreserved

/-- A frame of the allocator is referenced by one entry at most. -/
theorem PageTree.reference_unique {n : Nat} (h : PageTree image (ReservedFrame image) tag s)
    (hroots : ∀ p, roots p → tag p = some .root)
    (hn : n ∈ (pmmInit image.toKernelImage).freeSet)
    (r : References s.mem roots path table i (frameAddr n))
    (r' : References s.mem roots path' table' i' (frameAddr n)) :
    path = path' ∧ table = table' ∧ i = i' := by
  obtain ⟨owner, hlabel, hup⟩ := r.label h hroots hn
  obtain ⟨owner', hlabel', hup'⟩ := r'.label h hroots hn
  rw [hlabel] at hlabel'
  injection Option.some.inj hlabel' with howner hpath
  injection hpath with hi hpath
  subst howner hi hpath
  refine ⟨rfl, ?_, rfl⟩
  rcases hup with ⟨rfl, hroot, howner⟩ | ⟨hne, htable⟩
  · rcases hup' with ⟨-, hroot', howner'⟩ | ⟨hbad, -⟩
    · by_cases hzero : i = 0
      · -- the common entry leads to the kernel's own table
        exfalso
        subst hzero
        obtain ⟨hlo, hlt, hreserved⟩ := image.pml4Frame_bounds
        have haddr := (h.roots hroot).addr
        have htarget := r.target
        rw [pteAddr_of_frame (show image.pml4Frame + 1 < totalFrames by omega) haddr] at htarget
        have hframe := frameAddr_inj (by omega) (mem_freeSet.1 hn).1 htarget
        exact (((pmmInit_spec _).2 n).1 hn).2 (hframe ▸ hreserved 1 (by decide))
      · rw [howner, privateOwner, privateOwner, if_neg hzero, if_neg hzero] at howner'
        exact Option.some.inj howner'
    · exact absurd rfl hbad
  · rcases hup' with ⟨hbad, -⟩ | ⟨-, htable'⟩
    · exact absurd hbad hne
    · exact Reaches.unique h hroots r.reached r'.reached hne (htable.trans htable'.symm)

/-- A PML4 is not referenced. -/
theorem PageTree.root_unreferenced {n : Nat} (h : PageTree image (ReservedFrame image) tag s)
    (hroots : ∀ p, roots p → tag p = some .root)
    (hn : n ∈ (pmmInit image.toKernelImage).freeSet) (hroot : tag (frameAddr n) = some .root) :
    ¬ References s.mem roots path table i (frameAddr n) := by
  intro r
  obtain ⟨owner, hlabel, -⟩ := r.label h hroots hn
  rw [hroot] at hlabel
  cases hlabel

/-- Outside the identity map a frame of the allocator is at its own page. -/
theorem PageTree.translate_page {n : Nat} {pml4 v : Word} {tr : Translation}
    (h : PageTree image (ReservedFrame image) tag s)
    (hn : n ∈ (pmmInit image.toKernelImage).freeSet) (hroot : tag pml4 = some .root)
    (hv : ¬ (pml4Index v = 0 ∧ pdptIndex v = 0)) (htr : translate s.mem pml4 v = some tr)
    (hframe : entryAddr tr.phys = frameAddr n) :
    tag (frameAddr n) = some (slot privateOwner pml4 v 0) := by
  obtain ⟨pt, hpt, hleaf, hpresent, hphys⟩ := h.tagged.translate_leaf hroot hv htr
  have hlevel : (slot privateOwner pml4 v 1).level = 1 := level_slot _ _ (by decide)
  have hown := h.owned pt _ (ptIndex v) hpt hlevel (tableIndex_lt _ _) (hleaf ▸ hpresent)
  rw [← hleaf, show (slot privateOwner pml4 v 1).child privateOwner pt (ptIndex v) =
    slot privateOwner pml4 v 0 from child_slot pml4 v pt (by decide)] at hown
  have htarget : ∀ {m}, m < totalFrames → entryAddr tr.leaf = frameAddr m →
      frameAddr m = frameAddr n := by
    intro m hm heq
    have hlt : m < 65536 := hm
    rw [hphys, entryAddr_leaf_phys (by rw [heq, toNat_frameAddr hm]; omega), heq] at hframe
    exact hframe
  rcases hown with hown | ⟨m, hm, hreserved, heq⟩
  · obtain ⟨m, hm, -, -, heq⟩ := h.tagged.frame hown
    rw [← htarget hm heq, ← heq]
    exact hown
  · obtain rfl := frameAddr_inj hm (mem_freeSet.1 hn).1 (htarget hm heq)
    exact absurd hn hreserved

end Unique

/-! ### Runs -/

/-- What is true of a frame that `pmm_alloc` has handed out: it is marked used; one present entry
    references it at most, and none if it is a PML4; and outside the identity map it is mapped at one
    page at most. -/
structure OwnedOnce (image : BootImage) (s : System) (n : Nat) : Prop where
  used : bitmapTest s.kernel.vmm.pmm.bitmap n = true
  entry : ∀ {path table i path' table' i'},
    References s.kernel.vmm.mem (s.Root image) path table i (frameAddr n) →
    References s.kernel.vmm.mem (s.Root image) path' table' i' (frameAddr n) →
    path = path' ∧ table = table' ∧ i = i'
  root : s.Root image (frameAddr n) →
    ∀ path table i, ¬ References s.kernel.vmm.mem (s.Root image) path table i (frameAddr n)
  page : ∀ {pml4 pml4' v v' tr tr'}, s.Root image pml4 → s.Root image pml4' →
    ¬ (pml4Index v = 0 ∧ pdptIndex v = 0) → ¬ (pml4Index v' = 0 ∧ pdptIndex v' = 0) →
    translate s.kernel.vmm.mem pml4 v = some tr → entryAddr tr.phys = frameAddr n →
    translate s.kernel.vmm.mem pml4' v' = some tr' → entryAddr tr'.phys = frameAddr n →
    walkPath v = walkPath v'

theorem SystemInv.roots {image : BootImage} {tag : Word → Option Label} {s : System}
    (inv : SystemInv image tag s) : ∀ p, s.Root image p → tag p = some .root := by
  rintro p (rfl | ⟨proc, hproc, rfl⟩)
  · exact inv.tree.kernel
  · exact (inv.users proc hproc).1

theorem SystemInv.owned_once {image : BootImage} {tag : Word → Option Label} {s : System} {n : Nat}
    (inv : SystemInv image tag s) (hn : n ∈ (pmmInit image.toKernelImage).freeSet)
    (hused : n ∉ s.kernel.vmm.pmm.freeSet) : OwnedOnce image s n where
  used := by
    by_contra hclear
    exact hused (mem_freeSet.2 ⟨(mem_freeSet.1 hn).1, Bool.not_eq_true _ ▸ hclear⟩)
  entry r r' := PageTree.reference_unique inv.tree inv.roots hn r r'
  root hroot path table i :=
    PageTree.root_unreferenced inv.tree inv.roots hn (inv.roots _ hroot)
  page hroot hroot' hv hv' htr hframe htr' hframe' := by
    have hlabel := PageTree.translate_page inv.tree hn (inv.roots _ hroot) hv htr hframe
    rw [PageTree.translate_page inv.tree hn (inv.roots _ hroot') hv' htr' hframe'] at hlabel
    injection Option.some.inj hlabel with _ hpath
    exact hpath.symm

/-- In every state of a run each frame that `pmm_alloc` has returned is owned once. -/
theorem frames_owned_once (image : BootImage) (fns : Trampolines) (ram : PhysMem) (k : Kernel)
    (boot : kernelBoot image ram = .ok k.vmm) (calls : List SystemCall) (s : System)
    (run : Run (SystemStep image fns) { kernel := k, users := [] } calls s) :
    ∃ count, s.kernel.vmm.pmm = (pmmAllocs count (pmmInit image.toKernelImage)).1 ∧
      ∀ address ∈ (pmmAllocs count (pmmInit image.toKernelImage)).2,
        ∃ n, address = n * pageSize ∧ OwnedOnce image s n := by
  obtain ⟨tag, inv⟩ := SystemInv.of_run boot run
  obtain ⟨count, hpmm⟩ := inv.allocs
  refine ⟨count, hpmm, fun address hmem => ?_⟩
  obtain ⟨n, hn, rfl⟩ := exists_of_mem_pmmAllocs count hmem
  have hzero : 0 ∉ (pmmInit image.toKernelImage).freeSet := fun h0 =>
    (((pmmInit_spec _).2 0).1 h0).2 (.inl (by decide))
  have hused := ((mem_pmmAllocs hzero count n).1 hmem).2
  rw [← hpmm] at hused
  exact ⟨n, rfl, inv.owned_once hn hused⟩

/-- A process is created from a program and takes a page of heap. -/
theorem frames_owned_once_heap_page : ∃ (k : Kernel) (s : System) (proc : Process),
    kernelBoot bootedImage (fun _ _ => 0#64) = .ok k.vmm ∧
      Run (SystemStep bootedImage ⟨0#64, 0#64⟩) { kernel := k, users := [] }
        [.createElf [97] 0#32, .user 0 (.sbrk 4096#64)] s ∧ s.users = [proc] ∧
      translate s.kernel.vmm.mem proc.pageTable userHeapBase ≠ none ∧
      ∃ count, s.kernel.vmm.pmm = (pmmAllocs count (pmmInit bootedImage.toKernelImage)).1 ∧
        ∀ address ∈ (pmmAllocs count (pmmInit bootedImage.toKernelImage)).2,
          ∃ n, address = n * pageSize ∧ OwnedOnce bootedImage s n := by
  obtain ⟨vmm, k, proc, boot, hcreate, hstart, hend, hcard, -⟩ :=
    emptyProgram_system (fun _ _ => 0#64) ⟨0#64, 0#64⟩
  obtain ⟨tag, inv⟩ := SystemInv.of_run (k := fileKernel vmm (elfHeader 0) (by decide)) boot
    (.single hcreate)
  obtain ⟨vmm₁, n, tag₁, hstep, -, -, m, -⟩ := SystemStep.first_page ⟨0#64, 0#64⟩ k proc
    inv.toTreeInv (inv.users proc (List.mem_singleton.2 rfl)) (Nat.le_trans (by decide) hcard)
    hstart hend
  have hmapped : translate vmm₁.mem proc.pageTable userHeapBase ≠ none := by
    rw [m.mapped.self (v := userHeapBase) rfl]
    exact Option.some_ne_none _
  have run := Run.cons hcreate (.single hstep)
  exact ⟨fileKernel vmm (elfHeader 0) (by decide), _, _, boot, run, rfl, hmapped,
    frames_owned_once bootedImage ⟨0#64, 0#64⟩ (fun _ _ => 0#64)
      (fileKernel vmm (elfHeader 0) (by decide)) boot _ _ run⟩

/-! ### The identity map -/

/-- The walk of an address in the first gigabyte. -/
theorem PageTree.translate_identity {image : BootImage} {window : Word → Prop}
    {tag : Word → Option Label} {s : Vmm} {pml4 v : Word} (h : PageTree image window tag s)
    (hroot : tag pml4 = some .root) (hv : v.toNat < 2 ^ 30) :
    ∃ tr, translate s.mem pml4 v = some tr ∧ tr.phys = v := by
  have hpml4 : tableIndex (12 + 9 * 3) v = 0 := by
    rw [tableIndex_eq]
    omega
  have hpdpt : tableIndex (12 + 9 * 2) v = 0 := by
    rw [tableIndex_eq]
    omega
  have hpd : tableIndex (12 + 9 * 1) v < 512 := tableIndex_lt _ _
  have hlink := h.roots hroot
  obtain ⟨n, hn, -, -, hframe⟩ := h.tagged.frame h.pdpt
  obtain ⟨m, hm, -, -, hframe'⟩ := h.tagged.frame h.pd
  obtain ⟨hpresent, hhuge, haddr⟩ := h.identity _ hpd
  have hdown₄ := @mmuWalk_down pml4 _ v _ 3 (by decide)
    (hpml4 ▸ hlink.present) (hpml4 ▸ hlink.small)
    (hpml4 ▸ pteAddr_of_frame hn (hlink.addr.trans hframe))
  have hdown₃ := @mmuWalk_down image.pdptTable _ v _ 2 (by decide)
    (hpdpt ▸ h.link.present) (hpdpt ▸ h.link.small)
    (hpdpt ▸ pteAddr_of_frame hm (h.link.addr.trans hframe'))
  have hleaf : mmuWalk s.mem v 2 image.pdTable =
      some (leafTranslation v (s.mem image.pdTable (tableIndex (12 + 9 * 1) v)) 21) := by
    rw [mmuWalk]
    simp only [hpresent, hhuge]
    rfl
  rw [← hframe] at hdown₄
  rw [← hframe'] at hdown₃
  refine ⟨_, by rw [Memory.translate, h.tagged.pteAddr_eq hroot, hdown₄, hdown₃, hleaf]; rfl, ?_⟩
  -- the entry has the upper bits of the address
  have hidx : tableIndex (12 + 9 * 1) v = v.toNat / 2 ^ 21 := by
    rw [tableIndex_eq]
    omega
  have hpte : pteAddr (s.mem image.pdTable (tableIndex (12 + 9 * 1) v)) =
      v &&& ~~~0x1FFFFF#64 := by
    rw [pteAddr_eq_entryAddr (by rw [haddr, BitVec.toNat_ofNat]; omega), haddr]
    have hround : (v &&& ~~~0x1FFFFF#64).toNat = v.toNat / 2 ^ 21 * 2 ^ 21 :=
      Bits.toNat_and_not_lowMask v (n := 21) (by decide)
    apply BitVec.eq_of_toNat_eq
    rw [hround, BitVec.toNat_ofNat, hidx]
    omega
  show (pteAddr (s.mem image.pdTable (tableIndex (12 + 9 * 1) v)) &&& ~~~0x1FFFFF#64) |||
    (v &&& 0x1FFFFF#64) = v
  rw [hpte, BitVec.and_assoc, BitVec.and_self, BitVec.or_comm, ← BitVec.and_or_distrib_left,
    show 0x1FFFFF#64 ||| ~~~0x1FFFFF#64 = BitVec.allOnes 64 by decide, BitVec.and_allOnes]

/-- A page of the kernel heap is mapped to a frame that was free. -/
theorem kernelBoot_heapPage {image : BootImage} {ram : PhysMem} {s : Vmm}
    (hboot : kernelBoot image ram = .ok s) :
    ∃ i < heapPages, ∃ n ∈ (pmmInit image.toKernelImage).freeSet, n ∉ s.pmm.freeSet ∧
      ∃ tr, translate s.mem image.pml4Table (heapPage i) = some tr ∧
        entryAddr tr.phys = frameAddr n := by
  have hsub : ∀ {t : Vmm}, Allocs (pmmInit image.toKernelImage) t.pmm →
      t.pmm.freeSet ⊆ (pmmInit image.toKernelImage).freeSet := fun h => h.free
  rw [kernelBoot, vmmInit_eq] at hboot
  have hloop := forRangeE_invariant
    (fun j (t : Vmm) => (∃ tag, Booted privateOwner image tag t) ∧
      Allocs (pmmInit image.toKernelImage) t.pmm ∧
      (0 < j → ∃ i < heapPages, ∃ n ∈ (pmmInit image.toKernelImage).freeSet, n ∉ t.pmm.freeSet ∧
        ∃ tr, translate t.mem image.pml4Table (heapPage i) = some tr ∧
          entryAddr tr.phys = frameAddr n))
    (Nat.zero_le heapPages) ⟨⟨_, boot_init⟩, .refl _, fun h => absurd h (Nat.lt_irrefl 0)⟩ ?_ hboot
  · exact hloop.2.2 (by decide)
  · rintro i t t' hi ⟨⟨tag, h⟩, hallocs, -⟩ hbody
    rcases pmmAlloc_spec t.pmm with ⟨hnull, -⟩ | ⟨n, hn, -, halloc⟩
    · simp [hnull] at hbody
    have hallocs' := hallocs.trans (.alloc t.pmm)
    have hne : n * pageSize ≠ 0 :=
      Nat.mul_ne_zero (by have := h.tagged.free n hn; omega) (by decide)
    simp only [halloc, hne, if_false] at hbody
    rw [halloc] at hallocs'
    change vmmMap _ (heapPage i) (frameAddr n) 0x03#64 = _ at hbody
    have hlt := (mem_freeSet.1 hn).1
    have hlt' : n < 65536 := hlt
    obtain ⟨tag', m⟩ := vmmMap_spec (h.tagged.reserve n) h.cr3 h.root hbody
    refine ⟨h.heap_page hn (heapPage_index hi).1 hbody, hallocs'.trans (vmmMap_allocs hbody),
      fun _ => ⟨i, hi, n, hsub hallocs hn, fun hfree => ?_, _, m.self rfl, ?_⟩⟩
    · have := m.free hfree
      simp at this
    · have hleaf : entryAddr (frameAddr n ||| 0x03#64 ||| ptePresent) = frameAddr n :=
        fresh_leaf hn (by decide)
      rw [entryAddr_leaf_phys (by rw [hleaf, toNat_frameAddr hlt]; omega), hleaf]

/-- With the identity map counted, a frame behind the kernel heap is mapped at two pages. -/
theorem frame_mapped_twice : ∃ (k : Kernel) (count n : Nat) (v v' : Word) (tr tr' : Translation),
    kernelBoot bootedImage (fun _ _ => 0#64) = .ok k.vmm ∧
      k.vmm.pmm = (pmmAllocs count (pmmInit bootedImage.toKernelImage)).1 ∧
      n * pageSize ∈ (pmmAllocs count (pmmInit bootedImage.toKernelImage)).2 ∧
      walkPath v ≠ walkPath v' ∧
      translate k.vmm.mem bootedImage.pml4Table v = some tr ∧ entryAddr tr.phys = frameAddr n ∧
      translate k.vmm.mem bootedImage.pml4Table v' = some tr' ∧
      entryAddr tr'.phys = frameAddr n := by
  obtain ⟨vmm₀, boot, -⟩ := bootedImage_boots fun _ _ => 0#64
  obtain ⟨i, hi, n, hn, hused, tr, htr, hframe⟩ := kernelBoot_heapPage boot
  obtain ⟨tag, htree⟩ := @PageTree.booted _ (fun _ => False) _ _ boot
  have hlt := (mem_freeSet.1 hn).1
  have hlt' : n < 65536 := hlt
  obtain ⟨tr', htr', hphys⟩ := PageTree.translate_identity htree htree.kernel
    (show (frameAddr n).toNat < 2 ^ 30 by rw [toNat_frameAddr hlt]; omega)
  obtain ⟨count, hpmm⟩ := kernelBoot_allocs boot
  have hzero : 0 ∉ (pmmInit bootedImage.toKernelImage).freeSet := fun h0 =>
    (((pmmInit_spec _).2 0).1 h0).2 (.inl (by decide))
  refine ⟨firstKernel vmm₀, count, n, heapPage i, frameAddr n, tr, tr', boot, hpmm,
    (mem_pmmAllocs hzero count n).2 ⟨hn, hpmm ▸ hused⟩, ?_, htr, hframe, htr', ?_⟩
  · rw [Ne, walkPath_eq_iff, toNat_frameAddr hlt]
    have hpage : (heapPage i).toNat = 0xC0000000 + i * 4096 := by
      have hi' : i < 1024 := hi
      show (heapStart + BitVec.ofNat 64 (i * 4096)).toNat = _
      rw [heapStart, BitVec.toNat_add, BitVec.toNat_ofNat, BitVec.toNat_ofNat]
      omega
    have hi' : i < 1024 := hi
    rw [hpage]
    omega
  · rw [hphys, entryAddr_frameAddr hlt]

end CustomKernel
