/-
Module: CustomKernel.Proofs.KernelBoot
Layer: Proofs
Purpose: The state the kernel boots into. The boot tables, filled up by `vmm_init` and extended by
  the pages of the kernel heap, are well formed under a labelling with one PML4; nothing is mapped
  above PML4 index 0 and no page is accessible from ring 3.
Imports: CustomKernel.Proofs.PageTables
Trusted boundary: none (fully proved)
Main exports: Booted, kernelBoot_spec, kernelBoot_ok
-/
import CustomKernel.Proofs.PageTables

namespace CustomKernel.Memory

open Loops

/-- The state after the memory part of `kernel_main`. -/
structure Booted (ownerOf : Word → Nat → Option Word) (image : BootImage)
    (tag : Word → Option Label) (s : Vmm) : Prop where
  tagged : Tagged ownerOf tag s
  cr3 : s.cr3 = image.pml4Table
  root : tag image.pml4Table = some .root
  only_root : ∀ {u}, tag u = some .root → u = image.pml4Table
  counted : s.pmm.Counted
  low : ∀ i, 1 ≤ i → i < 512 → hasFlag (s.mem image.pml4Table i) ptePresent = false
  supervisor : ∀ {v tr}, translate s.mem image.pml4Table v = some tr →
    hasFlag tr.leaf pteUser = false
  owned : OwnedLeaves ownerOf (fun _ => False) tag s
  pages : ∀ {u owner path}, tag u = some (.node owner path) →
    (Label.node owner path).level = 0 → owner = ownerOf image.pml4Table 0

section Boot

variable {ownerOf : Word → Nat → Option Word} {image : BootImage} {ram : PhysMem}

/-! ### The three boot tables -/

theorem BootImage.pml4Frame_bounds (image : BootImage) :
    256 ≤ image.pml4Frame ∧ image.pml4Frame + 2 < totalFrames ∧
      ∀ k < 3, image.toKernelImage.Reserved (image.pml4Frame + k) := by
  have hge := image.tables_ge
  have hle := image.tables_le
  have hstart := image.start_ge
  have hend : image.kernelEnd ≤ 268435456 := image.end_le
  rw [show pageSize = 4096 from rfl] at hge hle
  refine ⟨by omega, show _ < 65536 by omega, fun k hk => .inr ?_⟩
  show image.kernelStart / 4096 ≤ _ ∧ _ < (image.kernelEnd + 4096 - 1) / 4096
  omega

/-- The labels of the boot tables. -/
def bootTag (ownerOf : Word → Nat → Option Word) (image : BootImage) : Word → Option Label :=
  fun table =>
    if table = image.pml4Table then some .root
    else if table = image.pdptTable then some (.node (ownerOf image.pml4Table 0) [0])
    else if table = image.pdTable then some (.node (ownerOf image.pml4Table 0) [0, 0])
    else none

theorem BootImage.tables_ne (image : BootImage) :
    image.pml4Table ≠ image.pdptTable ∧ image.pml4Table ≠ image.pdTable ∧
      image.pdptTable ≠ image.pdTable := by
  obtain ⟨-, hlt, -⟩ := image.pml4Frame_bounds
  refine ⟨fun h => ?_, fun h => ?_, fun h => ?_⟩
  · have := frameAddr_inj (by omega) (by omega) h
    omega
  · have := frameAddr_inj (by omega) (by omega) h
    omega
  · have := frameAddr_inj (by omega) (by omega) h
    omega

/-- Huge-page `i` of the identity map. -/
def identityEntry (i : Nat) : Word := BitVec.ofNat 64 (i * 0x200000) ||| 0b10000011#64

theorem identityEntry_flags (i : Nat) :
    hasFlag (identityEntry i) ptePresent = true ∧ hasFlag (identityEntry i) pteHuge = true ∧
      hasFlag (identityEntry i) pteUser = false := by
  have haddr : entryAddr (BitVec.ofNat 64 (i * 0x200000)) = BitVec.ofNat 64 (i * 0x200000) := by
    apply BitVec.eq_of_toNat_eq
    rw [toNat_entryAddr, BitVec.toNat_ofNat]
    omega
  have hconst : hasFlag 0b10000011#64 ptePresent = true ∧ hasFlag 0b10000011#64 pteHuge = true ∧
      hasFlag 0b10000011#64 pteUser = false := by decide
  simp [identityEntry, hasFlag_of_aligned haddr, hconst]

/-- The entry `vmm_init` writes is the one `boot.asm` would have written. -/
theorem vmmInit_entry (i : Nat) :
    BitVec.ofNat 64 i <<< 21 ||| ptePresent ||| pteWritable ||| pteHuge = identityEntry i := by
  have hshift : BitVec.ofNat 64 i <<< 21 = BitVec.ofNat 64 (i * 0x200000) := by
    apply BitVec.eq_of_toNat_eq
    simp [BitVec.toNat_shiftLeft, Nat.shiftLeft_eq]
  have hconst : ptePresent ||| pteWritable ||| pteHuge = 0b10000011#64 := by decide
  rw [hshift, identityEntry, ← hconst, BitVec.or_assoc, BitVec.or_assoc, BitVec.or_assoc]

/-- Memory after `vmm_init`: the boot tables with a full page directory. -/
def initMem (image : BootImage) (ram : PhysMem) : PhysMem := fun table i =>
  if table = image.pdTable ∧ i < 512 then identityEntry i else bootMem image ram table i

theorem bootMem_pml4 (i : Nat) : bootMem image ram image.pml4Table i =
    if i = 0 then image.pdptTable ||| 0b11#64 else 0#64 := by
  simp [bootMem]

theorem bootMem_pdpt (i : Nat) : bootMem image ram image.pdptTable i =
    if i = 0 then image.pdTable ||| 0b11#64 else 0#64 := by
  have hne := image.tables_ne
  simp [bootMem, hne.1.symm]

theorem bootMem_pd (i : Nat) : bootMem image ram image.pdTable i =
    if i < 8 then identityEntry i else 0#64 := by
  have hne := image.tables_ne
  simp [bootMem, hne.2.1.symm, hne.2.2.symm, identityEntry]

/-- A link to a boot table. -/
theorem link_flags {frame : Nat} (h : frame < totalFrames) :
    hasFlag (frameAddr frame ||| 0b11#64) pteHuge = false ∧
      entryAddr (frameAddr frame ||| 0b11#64) = frameAddr frame := by
  have haddr := entryAddr_frameAddr h
  have hconst : hasFlag 0b11#64 pteHuge = false ∧ entryAddr 0b11#64 = 0#64 := by decide
  simp [hasFlag_of_aligned haddr entryAddr_pteHuge, haddr, hconst]

theorem link_present (table : Word) : hasFlag (table ||| 0b11#64) ptePresent = true := by
  have : hasFlag 0b11#64 ptePresent = true := by decide
  simp [this]

theorem vmmInit_eq : vmmInit
    { pmm := pmmInit image.toKernelImage, mem := bootMem image ram, cr3 := image.pml4Table } =
    { pmm := pmmInit image.toKernelImage, mem := initMem image ram, cr3 := image.pml4Table } := by
  obtain ⟨-, hlt, -⟩ := image.pml4Frame_bounds
  have hpml4 : entryAddr image.pml4Table = image.pml4Table := entryAddr_frameAddr (by omega)
  have hpdpt : entryAddr (bootMem image ram image.pml4Table 0) = image.pdptTable := by
    rw [bootMem_pml4, if_pos rfl]
    exact (link_flags (by omega)).2
  have hpd : entryAddr (bootMem image ram image.pdptTable 0) = image.pdTable := by
    rw [bootMem_pdpt, if_pos rfl]
    exact (link_flags (by omega)).2
  have hloop := @forRange_invariant _ (fun i (mem : PhysMem) =>
      if !hasFlag (mem image.pdTable i) ptePresent then
        mem.store image.pdTable i
          (BitVec.ofNat 64 i <<< 21 ||| ptePresent ||| pteWritable ||| pteHuge)
      else mem)
    (fun i mem => mem = fun table j =>
      if table = image.pdTable ∧ j < i then identityEntry j else bootMem image ram table j)
    0 512 (bootMem image ram) (by decide) (by simp)
    (by
      rintro i mem - - rfl
      funext table j
      simp only [Nat.lt_irrefl, and_false, if_false, bootMem_pd, vmmInit_entry]
      by_cases h8 : i < 8
      · -- already mapped by `boot.asm`
        simp only [h8, if_true, (identityEntry_flags i).1, Bool.not_true, Bool.false_eq_true,
          if_false]
        by_cases hhit : table = image.pdTable ∧ j = i
        · obtain ⟨rfl, rfl⟩ := hhit
          simp [bootMem_pd, h8]
        · congr 1
          refine propext ⟨fun h => ⟨h.1, Nat.lt_succ_of_lt h.2⟩, fun h => ⟨h.1, ?_⟩⟩
          have : j ≠ i := fun hji => hhit ⟨h.1, hji⟩
          omega
      · simp only [h8, if_false, hasFlag_zero, Bool.not_false, if_true, PhysMem.store_apply]
        by_cases hhit : table = image.pdTable ∧ j = i
        · simp [hhit]
        · rw [if_neg hhit]
          congr 1
          refine propext ⟨fun h => ⟨h.1, Nat.lt_succ_of_lt h.2⟩, fun h => ⟨h.1, ?_⟩⟩
          have : j ≠ i := fun hji => hhit ⟨h.1, hji⟩
          omega)
  simp only [vmmInit, hpml4, hpdpt, hpd]
  rw [hloop]
  rfl

/-! ### The boot tables are well formed -/

theorem bootTag_cases {table : Word} {label : Label} (h : bootTag ownerOf image table = some label) :
    (table = image.pml4Table ∧ label = .root) ∨
      (table = image.pdptTable ∧ label = .node (ownerOf image.pml4Table 0) [0]) ∨
      (table = image.pdTable ∧ label = .node (ownerOf image.pml4Table 0) [0, 0]) := by
  unfold bootTag at h
  split at h
  · exact .inl ⟨‹_›, by simpa using h.symm⟩
  · split at h
    · exact .inr (.inl ⟨‹_›, by simpa using h.symm⟩)
    · split at h
      · exact .inr (.inr ⟨‹_›, by simpa using h.symm⟩)
      · cases h

theorem initMem_pml4 (i : Nat) : initMem image ram image.pml4Table i =
    if i = 0 then image.pdptTable ||| 0b11#64 else 0#64 := by
  rw [initMem, if_neg (fun h => image.tables_ne.2.1 h.1), bootMem_pml4]

theorem initMem_pdpt (i : Nat) : initMem image ram image.pdptTable i =
    if i = 0 then image.pdTable ||| 0b11#64 else 0#64 := by
  rw [initMem, if_neg (fun h => image.tables_ne.2.2 h.1), bootMem_pdpt]

theorem initMem_pd {i : Nat} (hi : i < 512) : initMem image ram image.pdTable i =
    identityEntry i := by
  rw [initMem, if_pos ⟨rfl, hi⟩]

theorem boot_tagged : Tagged ownerOf (bootTag ownerOf image)
    { pmm := pmmInit image.toKernelImage, mem := initMem image ram, cr3 := image.pml4Table } := by
  obtain ⟨hge, hlt, hres⟩ := image.pml4Frame_bounds
  obtain ⟨hne₁, hne₂, hne₃⟩ := image.tables_ne
  have hused : ∀ k < 3, image.pml4Frame + k ∉ (pmmInit image.toKernelImage).freeSet := by
    intro k hk hmem
    exact ((pmmInit_spec image.toKernelImage).2 _ |>.1 hmem).2 (hres k hk)
  have htag_pdpt : bootTag ownerOf image image.pdptTable =
      some (.node (ownerOf image.pml4Table 0) [0]) := by
    simp [bootTag, hne₁.symm]
  have htag_pd : bootTag ownerOf image image.pdTable =
      some (.node (ownerOf image.pml4Table 0) [0, 0]) := by
    simp [bootTag, hne₂.symm, hne₃.symm]
  refine ⟨fun {table label} ht => ?_, fun {table label i} ht hl hi hp hh => ?_,
    fun {table label i} ht hl hi hp hh => ?_, fun n hn => ?_⟩
  · rcases bootTag_cases ht with ⟨rfl, -⟩ | ⟨rfl, -⟩ | ⟨rfl, -⟩
    · exact ⟨_, by omega, hused 0 (by decide), hge, rfl⟩
    · exact ⟨_, by omega, hused 1 (by decide), by omega, rfl⟩
    · exact ⟨_, hlt, hused 2 (by decide), by omega, rfl⟩
  · rcases bootTag_cases ht with ⟨rfl, rfl⟩ | ⟨rfl, rfl⟩ | ⟨rfl, rfl⟩
    · simp only [initMem_pml4] at hp ⊢
      by_cases hzero : i = 0
      · subst hzero
        rw [if_pos rfl, show entryAddr (image.pdptTable ||| 0b11#64) = image.pdptTable from
          (link_flags (by omega)).2, htag_pdpt]
        rfl
      · simp [hzero] at hp
    · simp only [initMem_pdpt] at hp ⊢
      by_cases hzero : i = 0
      · subst hzero
        rw [if_pos rfl, show entryAddr (image.pdTable ||| 0b11#64) = image.pdTable from
          (link_flags (by omega)).2, htag_pd]
        rfl
      · simp [hzero] at hp
    · simp only [initMem_pd hi, (identityEntry_flags i).2.1] at hh
      cases hh
  · rcases bootTag_cases ht with ⟨rfl, rfl⟩ | ⟨rfl, rfl⟩ | ⟨rfl, rfl⟩
    · simp only [initMem_pml4] at hp hh
      by_cases hzero : i = 0
      · rw [if_pos hzero, show hasFlag (image.pdptTable ||| 0b11#64) pteHuge = false from
          (link_flags (by omega)).1] at hh
        cases hh
      · simp [hzero] at hp
    · simp only [initMem_pdpt] at hp hh
      by_cases hzero : i = 0
      · rw [if_pos hzero, show hasFlag (image.pdTable ||| 0b11#64) pteHuge = false from
          (link_flags (by omega)).1] at hh
        cases hh
      · simp [hzero] at hp
    · exact ⟨_, rfl⟩
  · have hfree := ((pmmInit_spec image.toKernelImage).2 n).1 hn
    exact Nat.le_of_not_lt fun hlow => hfree.2 (.inl hlow)

/-- The walks in the boot tables end at an identity-mapped huge page or nowhere. -/
theorem boot_supervisor {v : Word} {tr : Translation}
    (h : translate (initMem image ram) image.pml4Table v = some tr) :
    hasFlag tr.leaf pteUser = false := by
  obtain ⟨-, hlt, -⟩ := image.pml4Frame_bounds
  have hpml4 : pteAddr image.pml4Table = image.pml4Table := pteAddr_frameAddr (by omega)
  rw [translate, hpml4] at h
  by_cases h4 : tableIndex (12 + 9 * 3) v = 0
  · have e₄ : initMem image ram image.pml4Table (tableIndex (12 + 9 * 3) v) =
        image.pdptTable ||| 0b11#64 := by
      rw [initMem_pml4, if_pos h4]
    by_cases h3 : tableIndex (12 + 9 * 2) v = 0
    · have e₃ : initMem image ram image.pdptTable (tableIndex (12 + 9 * 2) v) =
          image.pdTable ||| 0b11#64 := by
        rw [initMem_pdpt, if_pos h3]
      have e₂ := @initMem_pd image ram _ (tableIndex_lt (12 + 9 * 1) v)
      obtain ⟨hp, hh, hu⟩ := identityEntry_flags (tableIndex (12 + 9 * 1) v)
      rw [mmuWalk_down (by decide) (e₄ ▸ link_present _) (e₄ ▸ (link_flags (by omega)).1)
          (e₄ ▸ pteAddr_of_frame (by omega) (link_flags (by omega)).2),
        mmuWalk_down (by decide) (e₃ ▸ link_present _) (e₃ ▸ (link_flags (by omega)).1)
          (e₃ ▸ pteAddr_of_frame (by omega) (link_flags (by omega)).2)] at h
      have hleaf : mmuWalk (initMem image ram) v 2 (frameAddr (image.pml4Frame + 2)) =
          some (leafTranslation v (identityEntry (tableIndex (12 + 9 * 1) v)) (12 + 9 * 1)) := by
        rw [mmuWalk]
        simp only [show initMem image ram (frameAddr (image.pml4Frame + 2)) _ = _ from e₂, hp, hh]
        rfl
      rw [hleaf] at h
      cases h
      exact hu
    · rw [mmuWalk_down (by decide) (e₄ ▸ link_present _) (e₄ ▸ (link_flags (by omega)).1)
          (e₄ ▸ pteAddr_of_frame (by omega) (link_flags (by omega)).2),
        mmuWalk_absent (by
          rw [show initMem image ram (frameAddr (image.pml4Frame + 1)) _ = _ from initMem_pdpt _,
            if_neg h3]
          exact hasFlag_zero _)] at h
      cases h
  · rw [mmuWalk_absent (by rw [initMem_pml4, if_neg h4]; exact hasFlag_zero _)] at h
    cases h

theorem boot_init : Booted ownerOf image (bootTag ownerOf image)
    { pmm := pmmInit image.toKernelImage, mem := initMem image ram, cr3 := image.pml4Table } where
  tagged := boot_tagged
  cr3 := rfl
  root := by simp [bootTag]
  only_root {u} hu := by
    rcases bootTag_cases hu with ⟨rfl, -⟩ | ⟨-, h⟩ | ⟨-, h⟩
    · rfl
    · cases h
    · cases h
  counted := (pmmInit_spec image.toKernelImage).1
  low i hi _ := by
    show hasFlag (initMem image ram image.pml4Table i) ptePresent = false
    rw [initMem_pml4, if_neg (by omega)]
    exact hasFlag_zero _
  supervisor h := boot_supervisor h
  owned u l j hu hl := by
    rcases bootTag_cases hu with ⟨-, rfl⟩ | ⟨-, rfl⟩ | ⟨-, rfl⟩
    · cases hl
    · cases hl
    · cases hl
  pages hu hl := by
    rcases bootTag_cases hu with ⟨-, hlabel⟩ | ⟨-, hlabel⟩ | ⟨-, hlabel⟩
    · cases hlabel
    · cases hlabel
      cases hl
    · cases hlabel
      cases hl

/-! ### The pages of the kernel heap -/

/-- The labels after a fresh frame was mapped are the old ones, the page's, and those of tables. -/
theorem Mapped.root_of_root {tag tag' : Word → Option Label} {s s' : Vmm} {pml4 virt leaf : Word}
    (m : Mapped ownerOf pml4 virt leaf tag s tag' s') {u : Word} (hu : tag' u = some .root) :
    tag u = some .root := by
  cases hold : tag u with
  | none => exact absurd (m.fresh hu hold).2 (by decide)
  | some l =>
      have := m.ext _ _ hold
      rw [hu] at this
      exact this.symm ▸ rfl

/-- Address of page `i` of the kernel heap. -/
def heapPage (i : Nat) : Word := heapStart + BitVec.ofNat 64 (i * pageSize)

theorem heapPage_index {i : Nat} (hi : i < heapPages) :
    pml4Index (heapPage i) = 0 ∧ pdptIndex (heapPage i) = 3 := by
  have hlt : i < 1024 := hi
  have hnat : (heapPage i).toNat = 0xC0000000 + i * 4096 := by
    show (heapStart + BitVec.ofNat 64 (i * 4096)).toNat = _
    rw [heapStart, BitVec.toNat_add, BitVec.toNat_ofNat, BitVec.toNat_ofNat]
    omega
  simp only [pml4Index, pdptIndex, tableIndex_eq, hnat]
  omega

/-- One page of the kernel heap. -/
theorem Booted.heap_page {tag : Word → Option Label} {s s' : Vmm} {n : Nat} {virt : Word}
    (h : Booted ownerOf image tag s) (hn : n ∈ s.pmm.freeSet) (hvirt : pml4Index virt = 0)
    (hok : vmmMap { s with pmm := reserveFrame n s.pmm } virt (frameAddr n) 0x03#64 = .ok s') :
    ∃ tag', Booted ownerOf image tag' s' := by
  have hlabel : (slot ownerOf image.pml4Table virt 0).level = 0 := level_slot _ _ (by decide)
  have hnone := h.tagged.free_unlabelled hn
  have hext := @extends_update _ _ (slot ownerOf image.pml4Table virt 0) hnone
  have hroot := hext _ _ h.root
  have hleaf : entryAddr (frameAddr n ||| 0x03#64 ||| ptePresent) = frameAddr n := by
    have : entryAddr 0x03#64 = 0#64 := by decide
    simp [entryAddr_frameAddr (mem_freeSet.1 hn).1, this]
  obtain ⟨tag', m⟩ := vmmMap_spec (h.tagged.label_page hn (by omega)) h.cr3 hroot hok
  refine ⟨tag', m.tagged, m.cr3.trans h.cr3, m.ext _ _ hroot, ?_, ?_, ?_, ?_, ?_, ?_⟩
  · intro u hu
    have hold := m.root_of_root hu
    by_cases hnew : u = frameAddr n
    · rw [hnew, Function.update_self] at hold
      cases hold
    · rw [Function.update_of_ne hnew] at hold
      exact h.only_root hold
  · exact m.counted (Counted.reserveFrame h.counted hn)
  · intro i hi hlt
    rw [m.roots hroot (fun hhit => by omega)]
    exact h.low i hi hlt
  · intro v tr htr
    by_cases hpath : walkPath v = walkPath virt
    · rw [m.self hpath] at htr
      cases htr
      have hconst : hasFlag 0x03#64 pteUser = false ∧ hasFlag ptePresent pteUser = false := by decide
      simp [leafTranslation, hconst,
        hasFlag_of_aligned (entryAddr_frameAddr (mem_freeSet.1 hn).1) entryAddr_pteUser]
    · have hw := m.widened hroot (.inr hpath)
      rw [htr] at hw
      cases hold : translate s.mem image.pml4Table v with
      | none =>
          rw [hold] at hw
          exact hw.elim
      | some old =>
          rw [hold] at hw
          rw [hw.leaf]
          exact h.supervisor hold
  · refine (h.owned.label_page h.tagged hn hlabel).mapped m (.inl ?_)
    rw [hleaf, Function.update_self]
  · intro u owner path hu hl
    cases hold : Function.update tag (frameAddr n) (some (slot ownerOf image.pml4Table virt 0)) u with
    | none =>
        have := (m.fresh hu hold).1
        omega
    | some l =>
        have hsame := m.ext _ _ hold
        rw [hu] at hsame
        cases hsame
        by_cases hnew : u = frameAddr n
        · rw [hnew, Function.update_self] at hold
          cases hold
          rw [hvirt]
        · rw [Function.update_of_ne hnew] at hold
          exact h.pages hold hl

/-- The kernel boots into a well-formed state. -/
theorem kernelBoot_spec {s : Vmm} (hboot : kernelBoot image ram = .ok s) :
    ∃ tag, Booted ownerOf image tag s := by
  rw [kernelBoot, vmmInit_eq] at hboot
  refine forRangeE_invariant (fun _ s => ∃ tag, Booted ownerOf image tag s) (Nat.zero_le _)
    ⟨_, boot_init⟩ ?_ hboot
  rintro i s s' hi ⟨tag, h⟩ hbody
  rcases pmmAlloc_spec s.pmm with ⟨hnull, -⟩ | ⟨n, hn, -, halloc⟩
  · simp [hnull] at hbody
  · have hne : n * pageSize ≠ 0 :=
      Nat.mul_ne_zero (by have := h.tagged.free n hn; omega) (by decide)
    simp only [halloc, hne, if_false] at hbody
    exact h.heap_page hn (heapPage_index hi).1 hbody

/-- Booting succeeds when the kernel image leaves enough frames for the heap and its tables. -/
theorem kernelBoot_ok (image : BootImage) (ram : PhysMem)
    (hfree : 4 * heapPages ≤ (pmmInit image.toKernelImage).freeSet.card) :
    ∃ s, kernelBoot image ram = .ok s ∧
      (pmmInit image.toKernelImage).freeSet.card ≤ s.pmm.freeSet.card + 4 * heapPages := by
  rw [kernelBoot, vmmInit_eq]
  obtain ⟨s, hrun, -, hcard⟩ := @forRangeE_ok _ _ (fun i (s : Vmm) =>
      if (pmmAlloc s.pmm).2 = 0 then
        throw Halt.invalidFrame
      else
        vmmMap { s with pmm := (pmmAlloc s.pmm).1 } (heapPage i)
          (framePointer (pmmAlloc s.pmm).2) 0x03#64)
    (fun i s => (∃ tag, Booted (fun _ _ => none) image tag s) ∧
      (pmmInit image.toKernelImage).freeSet.card ≤ s.pmm.freeSet.card + 4 * i)
    0 heapPages _ (Nat.zero_le heapPages) ⟨⟨_, @boot_init _ _ ram⟩, Nat.le_add_right _ _⟩
    (by
      rintro i s hi ⟨⟨tag, h⟩, hcard⟩
      have hroom : 4 ≤ s.pmm.freeSet.card := by omega
      rcases pmmAlloc_spec s.pmm with ⟨-, hempty⟩ | ⟨n, hn, -, halloc⟩
      · rw [hempty] at hroom
        cases hroom
      have hne : n * pageSize ≠ 0 :=
        Nat.mul_ne_zero (by have := h.tagged.free n hn; omega) (by decide)
      have hcard' : (reserveFrame n s.pmm).freeSet.card = s.pmm.freeSet.card - 1 := by
        rw [freeSet_reserveFrame, Finset.card_erase_of_mem hn]
      have hroot : tag s.cr3 = some .root := by rw [h.cr3, h.root]
      have hlabel := @Tagged.label_page _ _ _ (.node none [0, 0, 0, 0]) h.tagged _ hn (by decide)
      obtain ⟨s', hmap, hleft⟩ := @vmmMap_ok _ _ _ (heapPage i) (frameAddr n) 0x03#64 hlabel
        (extends_update (h.tagged.free_unlabelled hn) _ _ hroot)
        (show 3 ≤ (reserveFrame n s.pmm).freeSet.card by omega)
        (fun hzero => by have := (heapPage_index hi).2; omega)
      have hbody : vmmMap { s with pmm := reserveFrame n s.pmm } (heapPage i)
          (framePointer (n * pageSize)) 0x03#64 = .ok s' := hmap
      refine ⟨s', by simp [halloc, hne, hbody], h.heap_page hn (heapPage_index hi).1 hmap, ?_⟩
      replace hleft : (reserveFrame n s.pmm).freeSet.card ≤ s'.pmm.freeSet.card + 3 := hleft
      omega)
  exact ⟨s, hrun, hcard⟩

end Boot

end CustomKernel.Memory
