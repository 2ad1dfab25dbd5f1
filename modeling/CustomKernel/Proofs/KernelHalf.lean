/-
Module: CustomKernel.Proofs.KernelHalf
Layer: Proofs
Purpose: The part of the address spaces below PML4 index 1 looks the same in all of them. Every PML4
  that is ever loaded leads to the one PDPT of the boot tables at index 0: a copy takes the entry
  over, and a mapping made through any space widens its rights but never moves it. So a kernel path
  may run on whichever CR3 the last process left behind.
Imports: CustomKernel.Proofs.AddressSpaces
Trusted boundary: none (fully proved)
Main exports: TableStep, TableStep.effect, SharesKernelHalf, kernel_half_coherent
-/
import CustomKernel.Proofs.AddressSpaces

namespace CustomKernel.Memory

open StepSystem

/-! ### Histories -/

/-- A call that works on page tables: `vmm_map` in the loaded space, or one that names its space. -/
inductive TableCall where
  | map (virt phys flags : Word)
  | space (call : SpaceCall)
deriving DecidableEq, Repr

/-- A call that returns. -/
def TableStep (image : BootImage) (s : Spaces) : TableCall → Spaces → Prop
  | .map virt phys flags, s' =>
      ∃ vmm, vmmMap s.vmm virt phys flags = .ok vmm ∧ s' = { s with vmm := vmm }
  | .space call, s' => SpaceStep image s call s'

/-- The machine after `pmm_init` and `vmm_init`, before anything is mapped. -/
def bootTables (image : BootImage) (ram : PhysMem) : Spaces where
  vmm := vmmInit
    { pmm := pmmInit image.toKernelImage, mem := bootMem image ram, cr3 := image.pml4Table }
  created := []

/-- Where an address leads, and through which entry. -/
def place (mem : PhysMem) (pml4 virt : Word) : Option (Word × Word) :=
  (translate mem pml4 virt).map fun tr => (tr.phys, tr.leaf)

/-! ### What a call does to the tables -/

/-- The tables are well formed, every space is a PML4 of them, and one of the spaces is loaded. -/
structure SpaceTables (image : BootImage) (tag : Word → Option Label) (s : Spaces) : Prop where
  tagged : Tagged commonOwner tag s.vmm
  loaded : s.Space image s.vmm.cr3
  roots : ∀ pml4, s.Space image pml4 → tag pml4 = some .root

/-- The three things a call can do to the tables: nothing, map a page, or add a PML4. -/
inductive TableEffect (tag : Word → Option Label) (s : Spaces) (tag' : Word → Option Label)
    (s' : Spaces) : Prop where
  | same (htag : tag' = tag) (hmem : s'.vmm.mem = s.vmm.mem)
      (hfree : s'.vmm.pmm.freeSet ⊆ s.vmm.pmm.freeSet) (hcreated : s'.created = s.created)
  | mapped {pml4 virt phys flags : Word} (hcreated : s'.created = s.created)
      (m : Mapped commonOwner pml4 virt (phys ||| flags ||| ptePresent) tag s.vmm tag' s'.vmm)
  | created (n : Nat) (hcreated : s'.created = frameAddr n :: s.created)
      (htag : tag' = Function.update tag (frameAddr n) (some .root))
      (c : Created tag s.vmm commonOwner n s'.vmm)

theorem SpaceTables.mapped {image : BootImage} {s : Spaces} {tag tag' : Word → Option Label}
    {pml4 virt leaf : Word} {vmm : Vmm} (h : SpaceTables image tag s)
    (m : Mapped commonOwner pml4 virt leaf tag s.vmm tag' vmm) :
    SpaceTables image tag' { s with vmm := vmm } := by
  refine ⟨m.tagged, ?_, fun p hp => m.ext _ _ (h.roots p hp)⟩
  show s.Space image vmm.cr3
  rw [m.cr3]
  exact h.loaded

theorem reserveFrame_subset (n : Nat) (pmm : Pmm) : (reserveFrame n pmm).freeSet ⊆ pmm.freeSet := by
  rw [freeSet_reserveFrame]
  exact Finset.erase_subset _ _

/-- Every call has one of these effects and keeps the tables well formed. -/
theorem TableStep.effect {image : BootImage} {s s' : Spaces} {call : TableCall}
    {tag : Word → Option Label} (step : TableStep image s call s') (h : SpaceTables image tag s) :
    ∃ tag', TableEffect tag s tag' s' ∧ SpaceTables image tag' s' := by
  have hcr3 := h.roots _ h.loaded
  cases call with
  | map virt phys flags =>
      obtain ⟨vmm, hok, rfl⟩ := step
      obtain ⟨tag', m⟩ := vmmMap_spec h.tagged rfl hcr3 hok
      exact ⟨tag', .mapped rfl m, h.mapped m⟩
  | space call =>
      cases call with
      | alloc =>
          rcases pmmAlloc_spec s.vmm.pmm with ⟨hnull, -⟩ | ⟨n, -, -, halloc⟩
          · have : s' = s := by simpa [TableStep, SpaceStep, hnull] using step
            subst this
            exact ⟨tag, .same rfl rfl (Finset.Subset.refl _) rfl, h⟩
          · have hs' : s' = { s with vmm := { s.vmm with pmm := reserveFrame n s.vmm.pmm } } := by
              simpa [TableStep, SpaceStep, halloc] using step
            subst hs'
            exact ⟨tag, .same rfl rfl (reserveFrame_subset n _) rfl, h.tagged.reserve n, h.loaded, h.roots⟩
      | create =>
          rcases vmmCreateAddressSpace_spec h.tagged hcr3 (fun _ _ _ _ _ => commonOwner_eq _ _ _)
            with ⟨-, hnull⟩ | ⟨n, hn, hne, vmm, hcreate, c⟩
          · have : s' = s := by simpa [TableStep, SpaceStep, hnull] using step
            subst this
            exact ⟨tag, .same rfl rfl (Finset.Subset.refl _) rfl, h⟩
          · have hs' : s' = ⟨vmm, frameAddr n :: s.created⟩ := by
              simpa [TableStep, SpaceStep, hcreate, hne] using step
            subst hs'
            refine ⟨_, .created n rfl rfl c, c.tagged, ?_, fun p hp => ?_⟩
            · rw [show (Spaces.mk vmm (frameAddr n :: s.created)).vmm.cr3 = s.vmm.cr3 from c.cr3]
              exact h.loaded.imp_right (List.mem_cons_of_mem _)
            · by_cases hnew : p = frameAddr n
              · rw [hnew, Function.update_self]
              · exact c.ext _ _ (h.roots p (hp.imp_right fun hmem =>
                  (List.mem_cons.1 hmem).resolve_left hnew))
      | switch pml4 =>
          obtain ⟨hspace, rfl⟩ := step
          exact ⟨tag, .same rfl rfl (Finset.Subset.refl _) rfl, h.tagged.switch pml4, hspace, h.roots⟩
      | mapIn pml4 virt phys flags =>
          obtain ⟨hspace, vmm, hok, rfl⟩ := step
          obtain ⟨tag', m⟩ := vmmMapIn_spec h.tagged (h.roots pml4 hspace) hok
          exact ⟨tag', .mapped rfl m, h.mapped m⟩

/-! ### The shared entry -/

/-- Entry 0 of the PML4 leads to the PDPT of the boot tables. -/
structure KernelEntry (image : BootImage) (mem : PhysMem) (pml4 : Word) : Prop where
  present : hasFlag (mem pml4 0) ptePresent = true
  table : hasFlag (mem pml4 0) pteHuge = false
  addr : entryAddr (mem pml4 0) = image.pdptTable

/-- The tables are well formed, a space is loaded, and every space has the kernel's entry. -/
def SharesKernelHalf (image : BootImage) (s : Spaces) : Prop :=
  s.Space image s.vmm.cr3 ∧ ∃ tag, Tagged commonOwner tag s.vmm ∧
    ∀ pml4, s.Space image pml4 → tag pml4 = some .root ∧ KernelEntry image s.vmm.mem pml4

section Steps

variable {image : BootImage} {s s' : Spaces} {mem mem' : PhysMem} {pml4 : Word}

theorem KernelEntry.congr (h : KernelEntry image mem pml4) (hsame : mem' pml4 0 = mem pml4 0) :
    KernelEntry image mem' pml4 := by
  refine ⟨?_, ?_, ?_⟩
  · rw [hsame, h.present]
  · rw [hsame, h.table]
  · rw [hsame, h.addr]

/-- A mapping made anywhere keeps the entry. -/
theorem KernelEntry.mapped {tag tag' : Word → Option Label} {vmm vmm' : Vmm}
    {other virt leaf : Word} (h : KernelEntry image vmm.mem pml4) (hroot : tag pml4 = some .root)
    (m : Mapped commonOwner other virt leaf tag vmm tag' vmm') : KernelEntry image vmm'.mem pml4 := by
  obtain ⟨haddr, hpresent, hhuge⟩ := m.kept hroot (by decide) h.present
  exact ⟨hpresent, hhuge.trans h.table, haddr.trans h.addr⟩

/-- A copied PML4 has the entry of the one it was copied from. -/
theorem KernelEntry.created {tag : Word → Option Label} {vmm vmm' : Vmm} {n : Nat}
    (h : KernelEntry image vmm.mem vmm.cr3) (c : Created tag vmm commonOwner n vmm') :
    KernelEntry image vmm'.mem (frameAddr n) := by
  obtain ⟨hpresent, hhuge, -, -, haddr⟩ := shared_flags (vmm.mem vmm.cr3 0)
  have hentry := c.entries 0 (by decide)
  refine ⟨?_, ?_, ?_⟩
  · rw [hentry, hpresent, h.present]
  · rw [hentry, hhuge, h.table]
  · rw [hentry, haddr, h.addr]

/-- Every call keeps the kernel half shared. -/
theorem SharesKernelHalf.step {call : TableCall} (inv : SharesKernelHalf image s)
    (step : TableStep image s call s') : SharesKernelHalf image s' := by
  obtain ⟨hloaded, tag, htagged, hspaces⟩ := inv
  obtain ⟨tag', heffect, htables⟩ := step.effect ⟨htagged, hloaded, fun p hp => (hspaces p hp).1⟩
  refine ⟨htables.loaded, tag', htables.tagged, fun p hp => ⟨htables.roots p hp, ?_⟩⟩
  cases heffect with
  | same htag hmem hfree hcreated =>
      rw [hmem]
      exact (hspaces p (hp.imp_right (hcreated ▸ ·))).2
  | mapped hcreated m =>
      obtain ⟨hroot, hentry⟩ := hspaces p (hp.imp_right (hcreated ▸ ·))
      exact hentry.mapped hroot m
  | created n hcreated htag c =>
      -- the spaces there were keep their entry, the new one has that of the loaded space
      by_cases hnew : p = frameAddr n
      · rw [hnew]
        exact (hspaces _ hloaded).2.created c
      · have hold : s.Space image p := hp.imp_right fun hmem =>
          (List.mem_cons.1 (hcreated ▸ hmem)).resolve_left hnew
        exact (hspaces p hold).2.congr (by rw [c.other _ hnew])

theorem SharesKernelHalf.init (image : BootImage) (ram : PhysMem) :
    SharesKernelHalf image (bootTables image ram) := by
  obtain ⟨-, hlt, -⟩ := image.pml4Frame_bounds
  unfold bootTables
  rw [vmmInit_eq]
  refine ⟨.inl rfl, _, boot_tagged, fun pml4 hspace => ?_⟩
  rcases hspace with rfl | hmem
  · have hentry : initMem image ram image.pml4Table 0 = image.pdptTable ||| 0b11#64 := by
      rw [initMem_pml4, if_pos rfl]
    obtain ⟨htable, haddr⟩ := @link_flags (image.pml4Frame + 1) (by omega)
    have hkernel : KernelEntry image (initMem image ram) image.pml4Table :=
      ⟨hentry ▸ link_present _, hentry ▸ htable, hentry ▸ haddr⟩
    exact ⟨by simp [bootTag], hkernel⟩
  · cases hmem

end Steps

/-- The place of an address below PML4 index 1 is found in the shared PDPT. -/
theorem KernelEntry.place {image : BootImage} {mem : PhysMem} {pml4 v : Word}
    (h : KernelEntry image mem pml4) (hroot : pteAddr pml4 = pml4) (hv : pml4Index v = 0) :
    Memory.place mem pml4 v =
      (mmuWalk mem v 3 image.pdptTable).map fun tr => (tr.phys, tr.leaf) := by
  obtain ⟨-, hlt, -⟩ := image.pml4Frame_bounds
  have hindex : tableIndex (12 + 9 * 3) v = 0 := hv
  have hdown := @mmuWalk_down pml4 mem v image.pdptTable 3 (by decide)
    (by rw [hindex]; exact h.present) (by rw [hindex]; exact h.table)
    (by rw [hindex]; exact pteAddr_of_frame (by omega) h.addr)
  rw [Memory.place, translate, hroot, hdown, Option.map_map]
  rfl

/-- In every state, all address spaces translate every virtual address with PML4 index 0 to the same
    physical address, through the same leaf entry. -/
theorem kernel_half_coherent (image : BootImage) (ram : PhysMem) (calls : List TableCall)
    (s : Spaces) (run : Run (TableStep image) (bootTables image ram) calls s) (a b : Word)
    (ha : s.Space image a) (hb : s.Space image b) (v : Word) (hv : pml4Index v = 0) :
    place s.vmm.mem a v = place s.vmm.mem b v := by
  obtain ⟨-, tag, htagged, hspaces⟩ := run.invariant (SharesKernelHalf image)
    (fun _ _ _ inv step => inv.step step) (.init image ram)
  obtain ⟨hroot_a, hentry_a⟩ := hspaces a ha
  obtain ⟨hroot_b, hentry_b⟩ := hspaces b hb
  rw [hentry_a.place (htagged.pteAddr_eq hroot_a) hv, hentry_b.place (htagged.pteAddr_eq hroot_b) hv]

/-- The statement applies to the boot space and a first created one. -/
theorem kernel_half_coherent_first_space :
    ∃ s a, Run (TableStep bootedImage) (bootTables bootedImage fun _ _ => 0#64)
        [.space .create] s ∧ a ∈ s.created ∧ a ≠ bootedImage.pml4Table ∧
      place s.vmm.mem a 0x100000#64 = place s.vmm.mem bootedImage.pml4Table 0x100000#64 := by
  obtain ⟨hloaded, tag, htagged, hspaces⟩ := SharesKernelHalf.init bootedImage fun _ _ => 0#64
  have hcr3 := (hspaces _ hloaded).1
  rcases vmmCreateAddressSpace_spec htagged hcr3 (fun _ _ _ _ _ => commonOwner_eq _ _ _) with
    ⟨hempty, -⟩ | ⟨n, hn, hne, vmm, hcreate, c⟩
  · have hfree := bootedImage_free
    rw [bootTables, vmmInit_eq] at hempty
    dsimp only at hempty
    rw [hempty, Finset.card_empty] at hfree
    omega
  have hstep : TableStep bootedImage (bootTables bootedImage fun _ _ => 0#64) (.space .create)
      ⟨vmm, [frameAddr n]⟩ := by
    simp only [TableStep, SpaceStep, hcreate, if_neg hne]
    rfl
  have hroot := (hspaces _ (.inl rfl)).1
  refine ⟨⟨vmm, [frameAddr n]⟩, frameAddr n, .single hstep, List.mem_singleton_self _, ?_,
    kernel_half_coherent bootedImage _ _ _ (.single hstep) _ _ (.inr (List.mem_singleton_self _))
      (.inl rfl) _ (by decide)⟩
  intro heq
  rw [← heq, c.fresh] at hroot
  cases hroot

end CustomKernel.Memory
