/-
Module: CustomKernel.Proofs.AddressSpaces
Layer: Proofs
Purpose: Isolation of address spaces over all histories of `vmm_create_address_space`,
  `vmm_switch_address_space` and `vmm_map_in`. A new space shares the sub-tables of whatever PML4 is
  loaded, so it is private above PML4 index 0 exactly if nothing is mapped there at that moment;
  histories that create spaces only then keep all spaces apart, and the shortest history that does
  not breaks two of them together.
Imports: CustomKernel.Proofs.KernelBoot, CustomKernel.Library.Runs
Trusted boundary: none (fully proved)
Main exports: SpaceStep, Isolated, address_spaces_isolated, address_spaces_not_isolated
-/
import CustomKernel.Proofs.KernelBoot
import CustomKernel.Library.Runs

namespace CustomKernel.Memory

open StepSystem

/-! ### Histories -/

/-- A call that creates, loads or changes an address space. The frames that callers of `vmm_map_in`
    map come from `pmm_alloc`. -/
inductive SpaceCall where
  | alloc
  | create
  | switch (pml4 : Word)
  | mapIn (pml4 virt phys flags : Word)
deriving DecidableEq, Repr

/-- The machine together with the address spaces created so far. -/
structure Spaces where
  vmm : Vmm
  created : List Word

/-- The address spaces there are: the kernel's own and the created ones. -/
def Spaces.Space (image : BootImage) (s : Spaces) (pml4 : Word) : Prop :=
  pml4 = image.pml4Table ∨ pml4 ∈ s.created

/-- A call that returns. -/
def SpaceStep (image : BootImage) (s : Spaces) : SpaceCall → Spaces → Prop
  | .alloc, s' => s' = { s with vmm := { s.vmm with pmm := (pmmAlloc s.vmm.pmm).1 } }
  | .create, s' =>
      s' = { vmm := (vmmCreateAddressSpace s.vmm).1
             created := if (vmmCreateAddressSpace s.vmm).2 = 0#64 then s.created
               else (vmmCreateAddressSpace s.vmm).2 :: s.created }
  | .switch pml4, s' =>
      s.Space image pml4 ∧ s' = { s with vmm := vmmSwitchAddressSpace s.vmm pml4 }
  | .mapIn pml4 virt phys flags, s' =>
      s.Space image pml4 ∧ ∃ vmm, vmmMapIn s.vmm pml4 virt phys flags = .ok vmm ∧
        s' = { s with vmm := vmm }

/-- No mapping into one created space above PML4 index 0 changes what another one translates
    there. -/
def Isolated (s : Spaces) : Prop :=
  ∀ a ∈ s.created, ∀ virt phys flags vmm, 1 ≤ pml4Index virt →
    vmmMapIn s.vmm a virt phys flags = .ok vmm →
    ∀ b ∈ s.created, b ≠ a → ∀ v, 1 ≤ pml4Index v →
      translate vmm.mem b v = translate s.vmm.mem b v

/-- The PML4 in CR3 has nothing to share above index 0. -/
def Spaces.LoadedClean (s : Spaces) : Prop :=
  ∀ i, 1 ≤ i → i < 512 → hasFlag (s.vmm.mem (entryAddr s.vmm.cr3) i) ptePresent = false

/-- Spaces are created only while the loaded PML4 has nothing to share above index 0. -/
def CreatesClean (s : Spaces) (call : SpaceCall) : Prop :=
  call = .create → s.LoadedClean

/-! ### The invariant -/

/-- Everything above PML4 index 0 belongs to one space; what is below is common. -/
def privateOwner (pml4 : Word) (i : Nat) : Option Word :=
  if i = 0 then none else some pml4

theorem privateOwner_ne {a b : Word} {i j : Nat} (hi : 1 ≤ i) (hne : b ≠ a) :
    privateOwner a i ≠ privateOwner b j := by
  have hi' : i ≠ 0 := by omega
  by_cases hj : j = 0
  · simp [privateOwner, hi', hj]
  · simp [privateOwner, hi', hj, Ne.symm hne]

/-- Everything is common: the view that fits PML4 tables sharing whatever sub-tables they like. -/
def commonOwner (_ : Word) (_ : Nat) : Option Word := none

theorem commonOwner_eq (a b : Word) (i : Nat) : commonOwner a i = commonOwner b i := rfl

/-- The tables are well formed, and every space is a PML4 of them. -/
def SpacesInv (ownerOf : Word → Nat → Option Word) (image : BootImage) (s : Spaces) : Prop :=
  ∃ tag, Tagged ownerOf tag s.vmm ∧ tag s.vmm.cr3 = some .root ∧
    ∀ pml4, s.Space image pml4 → tag pml4 = some .root

section Invariant

variable {ownerOf : Word → Nat → Option Word} {image : BootImage} {s s' : Spaces}

theorem SpacesInv.init {ram : PhysMem} {vmm : Vmm} (boot : kernelBoot image ram = .ok vmm) :
    SpacesInv ownerOf image ⟨vmm, []⟩ := by
  obtain ⟨tag, h⟩ := @kernelBoot_spec ownerOf _ _ _ boot
  refine ⟨tag, h.tagged, ?_, fun pml4 hspace => ?_⟩
  · show tag vmm.cr3 = _
    rw [h.cr3, h.root]
  · rcases hspace with rfl | hmem
    · exact h.root
    · cases hmem

theorem SpacesInv.alloc (inv : SpacesInv ownerOf image s)
    (step : SpaceStep image s .alloc s') : SpacesInv ownerOf image s' := by
  obtain ⟨tag, htagged, hcr3, hspaces⟩ := inv
  rcases pmmAlloc_spec s.vmm.pmm with ⟨hnull, -⟩ | ⟨n, -, -, halloc⟩
  · have : s' = s := by simpa [SpaceStep, hnull] using step
    exact this ▸ ⟨tag, htagged, hcr3, hspaces⟩
  · have hs' : s' = { s with vmm := { s.vmm with pmm := reserveFrame n s.vmm.pmm } } := by
      simpa [SpaceStep, halloc] using step
    subst hs'
    exact ⟨tag, htagged.reserve n, hcr3, hspaces⟩

/-- Creating a space, if what it shares belongs to the new PML4 as it does to the loaded one. -/
theorem SpacesInv.create (inv : SpacesInv ownerOf image s) (step : SpaceStep image s .create s')
    (hshare : ∀ n, ∀ j < 512, hasFlag (s.vmm.mem (entryAddr s.vmm.cr3) j) ptePresent = true →
      ownerOf s.vmm.cr3 j = ownerOf (frameAddr n) j) : SpacesInv ownerOf image s' := by
  obtain ⟨tag, htagged, hcr3, hspaces⟩ := inv
  rw [htagged.entryAddr_eq hcr3] at hshare
  rcases vmmCreateAddressSpace_spec htagged hcr3 (fun n _ => hshare n) with
    ⟨-, hnull⟩ | ⟨n, hn, hne, vmm, hcreate, c⟩
  · have : s' = s := by simpa [SpaceStep, hnull] using step
    exact this ▸ ⟨tag, htagged, hcr3, hspaces⟩
  · have hs' : s' = ⟨vmm, frameAddr n :: s.created⟩ := by
      simpa [SpaceStep, hcreate, hne] using step
    subst hs'
    refine ⟨_, c.tagged, ?_, fun pml4 hspace => ?_⟩
    · rw [show (Spaces.mk vmm _).vmm.cr3 = s.vmm.cr3 from c.cr3]
      exact c.ext _ _ hcr3
    · rcases hspace with rfl | hmem
      · exact c.ext _ _ (hspaces _ (.inl rfl))
      · rcases List.mem_cons.1 hmem with rfl | hmem
        · exact Function.update_self ..
        · exact c.ext _ _ (hspaces _ (.inr hmem))

theorem SpacesInv.switch {pml4 : Word} (inv : SpacesInv ownerOf image s)
    (step : SpaceStep image s (.switch pml4) s') : SpacesInv ownerOf image s' := by
  obtain ⟨tag, htagged, -, hspaces⟩ := inv
  obtain ⟨hspace, rfl⟩ := step
  exact ⟨tag, htagged.switch pml4, hspaces pml4 hspace, hspaces⟩

theorem SpacesInv.mapIn {pml4 virt phys flags : Word} (inv : SpacesInv ownerOf image s)
    (step : SpaceStep image s (.mapIn pml4 virt phys flags) s') : SpacesInv ownerOf image s' := by
  obtain ⟨tag, htagged, hcr3, hspaces⟩ := inv
  obtain ⟨hspace, vmm, hok, rfl⟩ := step
  obtain ⟨tag', m⟩ := vmmMapIn_spec htagged (hspaces pml4 hspace) hok
  refine ⟨tag', m.tagged, ?_, fun other hother => m.ext _ _ (hspaces other hother)⟩
  show tag' vmm.cr3 = _
  rw [m.cr3]
  exact m.ext _ _ hcr3

end Invariant

/-- Whatever is shared, the tables stay well formed with everything in common. -/
theorem SpacesInv.common {image : BootImage} {ram : PhysMem} {vmm : Vmm}
    (boot : kernelBoot image ram = .ok vmm) {calls : List SpaceCall} {s : Spaces}
    (run : Run (SpaceStep image) ⟨vmm, []⟩ calls s) : SpacesInv commonOwner image s := by
  refine run.invariant (SpacesInv commonOwner image) (fun s call s' inv step => ?_) (.init boot)
  cases call with
  | alloc => exact inv.alloc step
  | create => exact inv.create step fun n j _ _ => commonOwner_eq _ _ _
  | switch pml4 => exact inv.switch step
  | mapIn pml4 virt phys flags => exact inv.mapIn step

/-- What is above index 0 stays private while spaces are created clean. -/
theorem SpacesInv.step_clean {image : BootImage} {s s' : Spaces} {call : SpaceCall}
    (inv : SpacesInv privateOwner image s)
    (step : Guarded CreatesClean (SpaceStep image) s call s') :
    SpacesInv privateOwner image s' := by
  obtain ⟨hclean, step⟩ := step
  cases call with
  | alloc => exact inv.alloc step
  | create =>
      refine inv.create step fun n j hj hp => ?_
      have hzero : j = 0 := by
        by_contra hne
        rw [hclean rfl j (by omega) hj] at hp
        cases hp
      simp [privateOwner, hzero]
  | switch pml4 => exact inv.switch step
  | mapIn pml4 virt phys flags => exact inv.mapIn step

/-- Address spaces stay isolated in every history that creates them only while the loaded PML4 has
    no entry above index 0. -/
theorem address_spaces_isolated (image : BootImage) (ram : PhysMem) (vmm : Vmm)
    (boot : kernelBoot image ram = .ok vmm) (calls : List SpaceCall) (s : Spaces)
    (run : Run (Guarded CreatesClean (SpaceStep image)) ⟨vmm, []⟩ calls s) : Isolated s := by
  have inv : SpacesInv privateOwner image s :=
    run.invariant (SpacesInv privateOwner image) (fun _ _ _ inv step => inv.step_clean step)
      (.init boot)
  obtain ⟨tag, htagged, -, hspaces⟩ := inv
  intro a ha virt phys flags vmm' hvirt hok b hb hne v hv
  obtain ⟨tag', m⟩ := vmmMapIn_spec htagged (hspaces a (.inr ha)) hok
  exact m.off (hspaces b (.inr hb)) (privateOwner_ne hvirt hne)

/-! ### Two spaces that share a table -/

/-- A kernel image of one megabyte with its page tables at the end. -/
def bootedImage : BootImage where
  toKernelImage := megabyteImage
  pml4Frame := 0x1FD
  tables_ge := by decide
  tables_le := by decide

theorem bootedImage_free : 65024 ≤ (pmmInit bootedImage.toKernelImage).freeSet.card := by
  have hsub : Finset.Ico 512 65536 ⊆ (pmmInit bootedImage.toKernelImage).freeSet := by
    intro frame hframe
    obtain ⟨hlo, hhi⟩ := Finset.mem_Ico.1 hframe
    refine ((pmmInit_spec _).2 frame).2 ⟨hhi, ?_⟩
    show ¬ (frame < 256 ∨ (256 ≤ frame ∧ frame < 512))
    omega
  have := Finset.card_le_card hsub
  rwa [Nat.card_Ico] at this

/-- The kernel boots with this image, whatever is in memory. -/
theorem bootedImage_boots (ram : PhysMem) :
    ∃ vmm, kernelBoot bootedImage ram = .ok vmm ∧ 60928 ≤ vmm.pmm.freeSet.card := by
  have hfree := bootedImage_free
  obtain ⟨vmm, boot, hcard⟩ := kernelBoot_ok bootedImage ram (Nat.le_trans (by decide) hfree)
  rw [show heapPages = 1024 from rfl] at hcard
  exact ⟨vmm, boot, by omega⟩

/-- It creates a first address space. -/
theorem bootedImage_space : ∃ vmm₀ vmm₁ a, kernelBoot bootedImage (fun _ _ => 0#64) = .ok vmm₀ ∧
    SpaceStep bootedImage ⟨vmm₀, []⟩ .create ⟨vmm₁, [frameAddr a]⟩ ∧
    60000 ≤ vmm₁.pmm.freeSet.card := by
  obtain ⟨vmm₀, boot, hcard⟩ := bootedImage_boots fun _ _ => 0#64
  obtain ⟨tag, h⟩ := @kernelBoot_spec commonOwner _ _ _ boot
  have hroot : tag vmm₀.cr3 = some .root := by rw [h.cr3, h.root]
  rcases vmmCreateAddressSpace_spec h.tagged hroot (fun _ _ _ _ _ => commonOwner_eq _ _ _) with
    ⟨hempty, -⟩ | ⟨a, ha, hne, vmm₁, hcreate, c⟩
  · rw [hempty, Finset.card_empty] at hcard
    omega
  · refine ⟨vmm₀, vmm₁, a, boot, by simp [SpaceStep, hcreate, hne], ?_⟩
    rw [c.free, freeSet_reserveFrame, Finset.card_erase_of_mem ha]
    omega

/-- Entries that lead to the same table translate to the same place. -/
theorem phys_of_common_table {mem : PhysMem} {v a b table : Word}
    (ha : hasFlag (mem a (pml4Index v)) ptePresent = true ∧
      hasFlag (mem a (pml4Index v)) pteHuge = false ∧ pteAddr (mem a (pml4Index v)) = table)
    (hb : hasFlag (mem b (pml4Index v)) ptePresent = true ∧
      hasFlag (mem b (pml4Index v)) pteHuge = false ∧ pteAddr (mem b (pml4Index v)) = table) :
    (mmuWalk mem v 4 b).map Translation.phys = (mmuWalk mem v 4 a).map Translation.phys := by
  have hwalk_a := @mmuWalk_down _ _ _ _ 3 (by decide) ha.1 ha.2.1 ha.2.2
  have hwalk_b := @mmuWalk_down _ _ _ _ 3 (by decide) hb.1 hb.2.1 hb.2.2
  rw [hwalk_a, hwalk_b, Option.map_map, Option.map_map]
  rfl

/-- A space created while another one is loaded and has pages above index 0 shares their tables:
    remapping one of those pages in the old space moves it in the new one. -/
theorem Tagged.copy_follows {tag : Word → Option Label} {s s₁ s₂ : Vmm} {n : Nat}
    {a virt phys flags phys' flags' : Word} (h : Tagged commonOwner tag s) (hcr3 : s.cr3 = a)
    (hroot : tag a = some .root) (c : Created tag s commonOwner n s₁)
    (hbefore : translate s.mem a virt = some (leafTranslation virt (phys ||| flags ||| ptePresent) 12))
    (hok : vmmMapIn s₁ a virt phys' flags' = .ok s₂) :
    (translate s₁.mem (frameAddr n) virt).map Translation.phys =
        some (leafTranslation virt (phys ||| flags ||| ptePresent) 12).phys ∧
      (translate s₂.mem (frameAddr n) virt).map Translation.phys =
        some (leafTranslation virt (phys' ||| flags' ||| ptePresent) 12).phys := by
  have hroot_a := c.ext _ _ hroot
  have hroot_b : Function.update tag (frameAddr n) (some .root) (frameAddr n) = some .root :=
    Function.update_self ..
  obtain ⟨tag', m⟩ := vmmMapIn_spec c.tagged hroot_a hok
  have hidx : pml4Index virt < 512 := tableIndex_lt 39 virt
  have hne : frameAddr n ≠ a := by
    rintro rfl
    rw [c.fresh] at hroot
    cases hroot
  subst hcr3
  constructor
  · have hw := c.copied virt
    rw [hbefore] at hw
    cases hcopy : translate s₁.mem (frameAddr n) virt with
    | none =>
        rw [hcopy] at hw
        exact hw.elim
    | some tr =>
        rw [hcopy] at hw
        rw [Option.map_some, hw.phys]
  · -- the entry of the loaded PML4, in all three states
    have hp : hasFlag (s.mem s.cr3 (pml4Index virt)) ptePresent = true := by
      by_contra habsent
      rw [Bool.not_eq_true] at habsent
      rw [translate, h.pteAddr_eq hroot, @mmuWalk_absent _ _ _ 3 habsent] at hbefore
      cases hbefore
    have hh : hasFlag (s.mem s.cr3 (pml4Index virt)) pteHuge = false := by
      by_contra hhuge
      rw [Bool.not_eq_false] at hhuge
      obtain ⟨owner, hbad⟩ := h.huge hroot (by decide) hidx hp hhuge
      cases hbad
    obtain ⟨k, hk, -, -, hframe⟩ := h.frame (h.child hroot (by decide) hidx hp hh)
    have hold : s₁.mem s.cr3 (pml4Index virt) = s.mem s.cr3 (pml4Index virt) := by
      rw [c.other _ hne.symm]
    obtain ⟨haddr, hp', hh'⟩ := m.kept (j := pml4Index virt) hroot_a (by decide) (hold ▸ hp)
    rw [hold] at haddr hh'
    -- the entry of the copy
    have hcopy : s₂.mem (frameAddr n) (pml4Index virt) = shared (s.mem s.cr3 (pml4Index virt)) := by
      rw [m.roots hroot_b (fun hhit => hne hhit.1), c.entries _ hidx]
    obtain ⟨hsp, hsh, -, -, hsaddr⟩ := shared_flags (s.mem s.cr3 (pml4Index virt))
    have hphys := @phys_of_common_table s₂.mem virt s.cr3 (frameAddr n) _
      ⟨hp', hh'.trans hh, pteAddr_of_frame hk (haddr.trans hframe)⟩
      (by
        rw [hcopy]
        exact ⟨hsp.trans hp, hsh.trans hh, pteAddr_of_frame hk (hsaddr.trans hframe)⟩)
    rw [translate, c.tagged.pteAddr_eq hroot_b, hphys]
    have hself := m.self (v := virt) rfl
    rw [translate, c.tagged.pteAddr_eq hroot_a] at hself
    rw [hself]
    rfl

/-- The first page above PML4 index 0. -/
def firstUserPage : Word := 0x8000000000#64

/-- Create a space, map a page, load it, create a second space: remapping the page in the first
    space then changes the second one. -/
theorem address_spaces_not_isolated :
    ¬ ∀ (image : BootImage) (ram : PhysMem) (vmm : Vmm), kernelBoot image ram = .ok vmm →
      ∀ (calls : List SpaceCall) (s : Spaces), Run (SpaceStep image) ⟨vmm, []⟩ calls s →
        Isolated s := by
  intro hclaim
  have hvirt : ¬ (pml4Index firstUserPage = 0 ∧ pdptIndex firstUserPage = 0) := by decide
  obtain ⟨vmm₀, boot, hcard₀⟩ := bootedImage_boots fun _ _ => 0#64
  obtain ⟨tag₀, h₀⟩ := @kernelBoot_spec commonOwner _ _ _ boot
  have hroot₀ : tag₀ vmm₀.cr3 = some .root := by rw [h₀.cr3, h₀.root]
  -- the first space, created under the boot tables
  rcases vmmCreateAddressSpace_spec h₀.tagged hroot₀ (fun _ _ _ _ _ => commonOwner_eq _ _ _) with
    ⟨hempty, -⟩ | ⟨a, ha, hane, vmm₁, hcreate₁, c₁⟩
  · rw [hempty] at hcard₀
    simp only [Finset.card_empty] at hcard₀
    omega
  have hcard₁ : vmm₁.pmm.freeSet.card = vmm₀.pmm.freeSet.card - 1 := by
    rw [c₁.free, freeSet_reserveFrame, Finset.card_erase_of_mem ha]
  -- a page in it
  have hroot_a : Function.update tag₀ (frameAddr a) (some .root) (frameAddr a) = some .root :=
    Function.update_self ..
  obtain ⟨vmm₂, hmap₂, hcard₂⟩ := vmmMapIn_ok 0x1000#64 7#64 c₁.tagged hroot_a (by omega) hvirt
  obtain ⟨tag₂, m₂⟩ := vmmMapIn_spec c₁.tagged hroot_a hmap₂
  have hroot₂ := m₂.ext _ _ hroot_a
  -- the second space, created while the first one is loaded
  rcases vmmCreateAddressSpace_spec (m₂.tagged.switch (frameAddr a)) hroot₂
      (fun _ _ _ _ _ => commonOwner_eq _ _ _) with ⟨hempty, -⟩ | ⟨b, hb, hbne, vmm₃, hcreate₃, c₃⟩
  · replace hempty : vmm₂.pmm.freeSet = ∅ := hempty
    rw [hempty] at hcard₂
    simp only [Finset.card_empty] at hcard₂
    omega
  have hcard₃ : vmm₃.pmm.freeSet.card = vmm₂.pmm.freeSet.card - 1 := by
    rw [c₃.free, freeSet_reserveFrame, Finset.card_erase_of_mem hb]
  have hroot₃ := c₃.ext _ _ hroot₂
  obtain ⟨vmm₄, hmap₄, -⟩ := vmmMapIn_ok 0x2000#64 7#64 c₃.tagged hroot₃ (by omega) hvirt
  have hba : frameAddr b ≠ frameAddr a := by
    intro heq
    rw [← heq, c₃.fresh] at hroot₂
    cases hroot₂
  have hrun : Run (SpaceStep bootedImage) ⟨vmm₀, []⟩
      [.create, .mapIn (frameAddr a) firstUserPage 0x1000#64 7#64, .switch (frameAddr a), .create]
      ⟨vmm₃, [frameAddr b, frameAddr a]⟩ := by
    refine .cons (t := ⟨vmm₁, [frameAddr a]⟩) ?_ (.cons (t := ⟨vmm₂, [frameAddr a]⟩) ?_
      (.cons (t := ⟨vmmSwitchAddressSpace vmm₂ (frameAddr a), [frameAddr a]⟩) ?_
        (.single ?_)))
    · simp [SpaceStep, hcreate₁, hane]
    · exact ⟨.inr (by simp), vmm₂, hmap₂, rfl⟩
    · exact ⟨.inr (by simp), rfl⟩
    · have hcreate : vmmCreateAddressSpace (vmmSwitchAddressSpace vmm₂ (frameAddr a)) =
          (vmm₃, frameAddr b) := hcreate₃
      simp [SpaceStep, hcreate, hbne]
  have hsame := hclaim bootedImage _ vmm₀ boot _ _ hrun (frameAddr a) (by simp) firstUserPage
    0x2000#64 7#64 vmm₄ (by decide) hmap₄ (frameAddr b) (by simp) hba firstUserPage (by decide)
  obtain ⟨hbefore, hafter⟩ := (m₂.tagged.switch (frameAddr a)).copy_follows rfl hroot₂ c₃
    (m₂.self rfl) hmap₄
  rw [hsame, hbefore] at hafter
  exact absurd hafter (by decide)

/-- The isolation theorem applies to two spaces created one after the other at boot. -/
theorem address_spaces_isolated_at_boot :
    ∃ vmm s, kernelBoot bootedImage (fun _ _ => 0#64) = .ok vmm ∧
      Run (Guarded CreatesClean (SpaceStep bootedImage)) ⟨vmm, []⟩ [.create, .create] s ∧
      s.created ≠ [] ∧ Isolated s := by
  obtain ⟨vmm, boot, hcard⟩ := bootedImage_boots fun _ _ => 0#64
  obtain ⟨tag, h⟩ := @kernelBoot_spec commonOwner _ _ _ boot
  have hroot : tag vmm.cr3 = some .root := by rw [h.cr3, h.root]
  have hclean : ∀ i, 1 ≤ i → i < 512 → hasFlag (vmm.mem vmm.cr3 i) ptePresent = false := by
    rw [h.cr3]
    exact h.low
  rcases vmmCreateAddressSpace_spec h.tagged hroot (fun _ _ _ _ _ => commonOwner_eq _ _ _) with
    ⟨hempty, -⟩ | ⟨a, ha, hane, vmm₁, hcreate, c⟩
  · rw [hempty] at hcard
    simp only [Finset.card_empty] at hcard
    omega
  have hne : vmm.cr3 ≠ frameAddr a := by
    intro heq
    rw [heq, c.fresh] at hroot
    cases hroot
  have hstep : SpaceStep bootedImage ⟨vmm, []⟩ .create ⟨vmm₁, [frameAddr a]⟩ := by
    simp [SpaceStep, hcreate, hane]
  obtain ⟨s, hstep', hsome⟩ :
      ∃ s, SpaceStep bootedImage ⟨vmm₁, [frameAddr a]⟩ .create s ∧ s.created ≠ [] := by
    refine ⟨_, rfl, ?_⟩
    show ite _ _ _ ≠ []
    split <;> simp
  have run : Run (Guarded CreatesClean (SpaceStep bootedImage)) ⟨vmm, []⟩ [.create, .create] s := by
    refine .cons ⟨fun _ i hi hlt => ?_, hstep⟩ (.single ⟨fun _ i hi hlt => ?_, hstep'⟩)
    · show hasFlag (vmm.mem (entryAddr vmm.cr3) i) ptePresent = false
      rw [h.tagged.entryAddr_eq hroot]
      exact hclean i hi hlt
    · show hasFlag (vmm₁.mem (entryAddr vmm₁.cr3) i) ptePresent = false
      rw [c.cr3, h.tagged.entryAddr_eq hroot, c.other _ hne]
      exact hclean i hi hlt
  exact ⟨vmm, s, boot, run, hsome, address_spaces_isolated bootedImage _ vmm boot _ _ run⟩

end CustomKernel.Memory
