/-
Module: CustomKernel.Proofs.PageTree
Layer: Proofs
Purpose: What holds of the page tables of all address spaces whatever is mapped in them: the identity
  map is in place under every PML4, what the common part maps beyond it belongs to its own page, and
  what is above PML4 index 0 belongs to an existing PML4. Frames outside the allocator's reach (a
  window) may be mapped above index 0. One lemma for each way to change the machine: mapping a page,
  taking a frame for one, writing to pages, creating an address space, loading another one.
Imports: CustomKernel.Proofs.AddressSpaces, CustomKernel.Proofs.UserPages
Trusted boundary: none (fully proved)
Main exports: LeavesOf, PageTree, PageTree.mapped, PageTree.label_page, PageTree.of_tables,
  PageTree.created, PageTree.booted, PageTree.map_identity
-/
import CustomKernel.Proofs.AddressSpaces
import CustomKernel.Proofs.UserPages

namespace CustomKernel.Memory

open Loops

/-- Every page that the page tables of an owner map is the frame with the page's own label. -/
def LeavesOf (owner : Option Word) (tag : Word → Option Label) (s : Vmm) : Prop :=
  ∀ u path j, tag u = some (.node owner path) → (Label.node owner path).level = 1 → j < 512 →
    hasFlag (s.mem u j) ptePresent = true →
    tag (entryAddr (s.mem u j)) = some (.node owner (j :: path))

/-- An entry that leads on to a table. -/
structure LinksTo (entry next : Word) : Prop where
  present : hasFlag entry ptePresent = true
  small : hasFlag entry pteHuge = false
  addr : entryAddr entry = next

/-- The tables of all address spaces. -/
structure PageTree (image : BootImage) (window : Word → Prop) (tag : Word → Option Label) (s : Vmm) :
    Prop where
  tagged : Tagged privateOwner tag s
  kernel : tag image.pml4Table = some .root
  pdpt : tag image.pdptTable = some (.node none [0])
  pd : tag image.pdTable = some (.node none [0, 0])
  roots : ∀ {u}, tag u = some .root → LinksTo (s.mem u 0) image.pdptTable
  link : LinksTo (s.mem image.pdptTable 0) image.pdTable
  identity : ∀ j < 512, hasFlag (s.mem image.pdTable j) ptePresent = true ∧
    hasFlag (s.mem image.pdTable j) pteHuge = true ∧
    entryAddr (s.mem image.pdTable j) = BitVec.ofNat 64 (j * 0x200000)
  owned : OwnedLeaves privateOwner window tag s
  common : LeavesOf none tag s
  owners : ∀ {u p path}, tag u = some (.node (some p) path) → tag p = some .root

section Tree

variable {image : BootImage} {window : Word → Prop} {tag tag' : Word → Option Label} {s s' : Vmm}
  {pml4 virt leaf : Word} {owner : Option Word}

/-- The owner of a slot is the PML4, or nobody at index 0. -/
theorem privateOwner_some {p : Word} {i : Nat} (h : privateOwner pml4 i = some p) : pml4 = p := by
  unfold privateOwner at h
  split at h
  · cases h
  · exact Option.some.inj h

theorem privateOwner_none {i : Nat} (h : privateOwner pml4 i = none) : i = 0 := by
  unfold privateOwner at h
  split at h
  · assumption
  · cases h

/-! ### Entries that stay -/

/-- Mapping a page keeps the entries above the page tables. -/
theorem LinksTo.mapped {ownerOf : Word → Nat → Option Word} {u next : Word} {l : Label} {j : Nat}
    (m : Mapped ownerOf pml4 virt leaf tag s tag' s') (hu : tag u = some l)
    (hl : 2 ≤ l.level) (h : LinksTo (s.mem u j) next) : LinksTo (s'.mem u j) next := by
  obtain ⟨haddr, hpresent, hhuge⟩ := m.kept hu hl h.present
  exact ⟨hpresent, hhuge.trans h.small, haddr.trans h.addr⟩

/-- Mapping a page to the frame with its own label keeps the leaves of every owner. -/
theorem LeavesOf.mapped (h : LeavesOf owner tag s)
    (m : Mapped privateOwner pml4 virt leaf tag s tag' s')
    (hleaf : privateOwner pml4 (pml4Index virt) = owner →
      tag (entryAddr leaf) = some (slot privateOwner pml4 virt 0)) : LeavesOf owner tag' s' := by
  intro u path j hu hl hj hp
  rcases m.leaves hu hl hj with ⟨hold, hsame⟩ | hzero | ⟨hslot, rfl, hnew⟩
  · rw [hsame] at hp ⊢
    exact m.ext _ _ (h u path j hold hl hj hp)
  · rw [hzero, hasFlag_zero] at hp
    cases hp
  · rw [hnew]
    injection hslot with howner hpath
    rw [m.ext _ _ (hleaf howner.symm)]
    subst hpath
    rw [howner]
    rfl

theorem LeavesOf.label_page {n : Nat} {label : Label} (h : LeavesOf owner tag s)
    (htagged : Tagged privateOwner tag s) (hn : n ∈ s.pmm.freeSet) (hlevel : label.level = 0) :
    LeavesOf owner (Function.update tag (frameAddr n) (some label))
      { s with pmm := reserveFrame n s.pmm } := by
  intro u path j hu hl hj hp
  by_cases hnew : u = frameAddr n
  · rw [hnew, Function.update_self] at hu
    cases hu
    omega
  · rw [Function.update_of_ne hnew] at hu
    exact extends_update (htagged.free_unlabelled hn) _ _ (h u path j hu hl hj hp)

theorem LeavesOf.of_tables {mem : PhysMem} (h : LeavesOf owner tag s)
    (hsame : ∀ u l, tag u = some l → 1 ≤ l.level → mem u = s.mem u) :
    LeavesOf owner tag { s with mem := mem } := by
  intro u path j hu hl hj hp
  simp only [hsame u _ hu (by omega)] at hp ⊢
  exact h u path j hu hl hj hp

/-! ### The ways to change the machine -/

/-- Mapping a page to the frame with its own label, or above index 0 into the window. -/
theorem PageTree.mapped (h : PageTree image window tag s) (hroot : tag pml4 = some .root)
    (m : Mapped privateOwner pml4 virt leaf tag s tag' s')
    (t : Touched privateOwner pml4 virt tag s tag' s')
    (hleaf : tag (entryAddr leaf) = some (slot privateOwner pml4 virt 0) ∨
      (window (entryAddr leaf) ∧ 1 ≤ pml4Index virt)) : PageTree image window tag' s' where
  tagged := m.tagged
  kernel := m.ext _ _ h.kernel
  pdpt := m.ext _ _ h.pdpt
  pd := m.ext _ _ h.pd
  roots hu := by
    have hold := m.root_of_root hu
    exact (h.roots hold).mapped m hold (by decide)
  link := h.link.mapped m h.pdpt (by decide)
  identity j hj := by
    obtain ⟨hp, hh, haddr⟩ := h.identity j hj
    obtain ⟨haddr', hp', hh'⟩ := m.kept h.pd (by decide) hp
    exact ⟨hp', hh'.trans hh, haddr'.trans haddr⟩
  owned := h.owned.mapped m (hleaf.imp_right And.left)
  common := h.common.mapped m fun hnone => by
    have hzero := privateOwner_none hnone
    exact hleaf.resolve_right fun hwindow => by have := hwindow.2; omega
  owners {u p path} hu := by
    cases hold : tag u with
    | some l =>
        have hsame := m.ext _ _ hold
        rw [hu] at hsame
        cases hsame
        exact m.ext _ _ (h.owners hold)
    | none =>
        obtain ⟨-, level, -, -, hslot⟩ := t.fresh hu hold
        injection hslot with howner
        rw [← privateOwner_some howner.symm]
        exact m.ext _ _ hroot

/-- Taking a free frame for a page. -/
theorem PageTree.label_page {n : Nat} (virt : Word) (h : PageTree image window tag s)
    (hroot : tag pml4 = some .root) (hn : n ∈ s.pmm.freeSet) :
    PageTree image window
      (Function.update tag (frameAddr n) (some (slot privateOwner pml4 virt 0)))
      { s with pmm := reserveFrame n s.pmm } := by
  have hlevel : (slot privateOwner pml4 virt 0).level = 0 := level_slot _ _ (by decide)
  have hext := @extends_update _ _ (slot privateOwner pml4 virt 0) (h.tagged.free_unlabelled hn)
  refine ⟨h.tagged.label_page hn (by omega), hext _ _ h.kernel, hext _ _ h.pdpt, hext _ _ h.pd,
    fun {u} hu => ?_, h.link, h.identity, h.owned.label_page h.tagged hn hlevel,
    h.common.label_page h.tagged hn hlevel, fun {u p path} hu => ?_⟩
  · by_cases hnew : u = frameAddr n
    · rw [hnew, Function.update_self] at hu
      cases hu
    · rw [Function.update_of_ne hnew] at hu
      exact h.roots hu
  · by_cases hnew : u = frameAddr n
    · rw [hnew, Function.update_self] at hu
      injection Option.some.inj hu with howner
      rw [← privateOwner_some howner]
      exact hext _ _ hroot
    · rw [Function.update_of_ne hnew] at hu
      exact hext _ _ (h.owners hu)

/-- Writing to pages and to frames without a label. -/
theorem PageTree.of_tables {mem : PhysMem} (h : PageTree image window tag s)
    (hsame : ∀ u l, tag u = some l → 1 ≤ l.level → mem u = s.mem u) :
    PageTree image window tag { s with mem := mem } where
  tagged := by
    refine ⟨h.tagged.frame, fun {u l j} hu hl hj hp hh => ?_, fun {u l j} hu hl hj hp hh => ?_,
      h.tagged.free⟩
    · simp only [hsame u l hu (by omega)] at hp hh ⊢
      exact h.tagged.child hu hl hj hp hh
    · simp only [hsame u l hu (by omega)] at hp hh
      exact h.tagged.huge hu hl hj hp hh
  kernel := h.kernel
  pdpt := h.pdpt
  pd := h.pd
  roots {u} hu := by
    show LinksTo (mem u 0) _
    rw [hsame u _ hu (by decide)]
    exact h.roots hu
  link := by
    show LinksTo (mem image.pdptTable 0) _
    rw [hsame _ _ h.pdpt (by decide)]
    exact h.link
  identity j hj := by
    simp only [hsame _ _ h.pd (by decide)]
    exact h.identity j hj
  owned u l j hu hl hj hp := by
    simp only [hsame u l hu (by omega)] at hp ⊢
    exact h.owned u l j hu hl hj hp
  common := h.common.of_tables hsame
  owners := h.owners

theorem PageTree.switch (h : PageTree image window tag s) (cr3 : Word) :
    PageTree image window tag { s with cr3 := cr3 } :=
  ⟨h.tagged.switch cr3, h.kernel, h.pdpt, h.pd, h.roots, h.link, h.identity, h.owned, h.common,
    h.owners⟩

/-- A new PML4. -/
theorem PageTree.created {n : Nat} (h : PageTree image window tag s)
    (hroot : tag s.cr3 = some .root) (c : Created tag s privateOwner n s') :
    PageTree image window (Function.update tag (frameAddr n) (some .root)) s' := by
  have hself : Function.update tag (frameAddr n) (some .root) (frameAddr n) = some .root :=
    Function.update_self ..
  have hother : ∀ {u l}, tag u = some l → s'.mem u = s.mem u := fun {u l} hu =>
    c.other u (by rintro rfl; rw [c.fresh] at hu; cases hu)
  have hleaves : ∀ {u l}, Function.update tag (frameAddr n) (some .root) u = some l →
      l ≠ .root → tag u = some l := by
    intro u l hu hl
    by_cases hnew : u = frameAddr n
    · rw [hnew, hself] at hu
      exact absurd (Option.some.inj hu).symm hl
    · rwa [Function.update_of_ne hnew] at hu
  refine ⟨c.tagged, c.ext _ _ h.kernel, c.ext _ _ h.pdpt, c.ext _ _ h.pd, fun {u} hu => ?_, ?_,
    fun j hj => ?_, fun u l j hu hl hj hp => ?_, fun u path j hu hl hj hp => ?_,
    fun {u p path} hu => c.ext _ _ (h.owners (hleaves hu (by simp)))⟩
  · by_cases hnew : u = frameAddr n
    · obtain ⟨hp, hh, -, -, haddr⟩ := shared_flags (s.mem s.cr3 0)
      rw [hnew, c.entries 0 (by decide)]
      have hlink := h.roots hroot
      exact ⟨hp.trans hlink.present, hh.trans hlink.small, haddr.trans hlink.addr⟩
    · rw [Function.update_of_ne hnew] at hu
      rw [hother hu]
      exact h.roots hu
  · rw [hother h.pdpt]
    exact h.link
  · rw [hother h.pd]
    exact h.identity j hj
  · have hold := hleaves hu (by rintro rfl; cases hl)
    rw [hother hold] at hp ⊢
    exact (h.owned u l j hold hl hj hp).imp_left (c.ext _ _)
  · have hold := hleaves hu (by simp)
    rw [hother hold] at hp ⊢
    exact c.ext _ _ (h.common u path j hold hl hj hp)

/-- The label of a fresh page survives the mapping. -/
theorem fresh_leaf {n : Nat} {flags : Word} (hn : n ∈ s.pmm.freeSet)
    (hflags : entryAddr flags = 0#64) :
    entryAddr (frameAddr n ||| flags ||| ptePresent) = frameAddr n := by
  simp [entryAddr_frameAddr (mem_freeSet.1 hn).1, hflags]

/-- The machine after `frame = pmm_alloc(); vmm_map_in(pml4, virt, frame, flags);`, with labels
    `tag` before and `tag'` behind. -/
structure FreshMapped (pml4 virt flags : Word) (n : Nat) (tag : Word → Option Label) (s : Vmm)
    (tag' : Word → Option Label) (s' : Vmm) : Prop where
  mapped : Mapped privateOwner pml4 virt (frameAddr n ||| flags ||| ptePresent)
    (Function.update tag (frameAddr n) (some (slot privateOwner pml4 virt 0)))
    { s with pmm := reserveFrame n s.pmm } tag' s'
  touched : Touched privateOwner pml4 virt
    (Function.update tag (frameAddr n) (some (slot privateOwner pml4 virt 0)))
    { s with pmm := reserveFrame n s.pmm } tag' s'

/-- Mapping a page to a fresh frame. -/
theorem PageTree.map_fresh {n : Nat} {flags : Word} (h : PageTree image window tag s)
    (hroot : tag pml4 = some .root) (hn : n ∈ s.pmm.freeSet) (hflags : entryAddr flags = 0#64)
    (hok : vmmMapIn { s with pmm := reserveFrame n s.pmm } pml4 virt (frameAddr n) flags = .ok s') :
    ∃ tag', PageTree image window tag' s' ∧ FreshMapped pml4 virt flags n tag s tag' s' := by
  have hlabelled := h.label_page virt hroot hn
  have hroot' := @extends_update _ _ (slot privateOwner pml4 virt 0)
    (h.tagged.free_unlabelled hn) _ _ hroot
  obtain ⟨tag', m, t⟩ := vmmMapIn_touched hlabelled.tagged hroot' hok
  refine ⟨tag', hlabelled.mapped hroot' m t (.inl ?_), m, t⟩
  rw [fresh_leaf hn hflags, Function.update_self]

/-! ### Boot -/

/-- The tables `vmm_init` leaves. -/
theorem PageTree.init {ram : PhysMem} : PageTree image window (bootTag privateOwner image)
    { pmm := pmmInit image.toKernelImage, mem := initMem image ram, cr3 := image.pml4Table } := by
  obtain ⟨hne₁, hne₂, hne₃⟩ := image.tables_ne
  obtain ⟨-, hlt, -⟩ := image.pml4Frame_bounds
  have howner : privateOwner image.pml4Table 0 = none := rfl
  have hlink : ∀ {frame : Nat}, frame < totalFrames → LinksTo (frameAddr frame ||| 0b11#64)
      (frameAddr frame) := fun hframe =>
    ⟨link_present _, (link_flags hframe).1, (link_flags hframe).2⟩
  have hlevel : ∀ {u l}, bootTag privateOwner image u = some l → l.level ≠ 1 := by
    intro u l hu
    rcases bootTag_cases hu with ⟨-, rfl⟩ | ⟨-, rfl⟩ | ⟨-, rfl⟩ <;> simp [Label.level]
  refine ⟨boot_tagged, by simp [bootTag], by simp [bootTag, hne₁.symm, howner],
    by simp [bootTag, hne₂.symm, hne₃.symm, howner], fun {u} hu => ?_, ?_, fun j hj => ?_,
    fun u l j hu hl => absurd hl (hlevel hu), fun u path j hu hl => absurd hl (hlevel hu),
    fun {u p path} hu => ?_⟩
  · rcases bootTag_cases hu with ⟨rfl, -⟩ | ⟨-, h⟩ | ⟨-, h⟩
    · show LinksTo (initMem image ram image.pml4Table 0) _
      rw [initMem_pml4, if_pos rfl]
      exact hlink (by omega)
    · cases h
    · cases h
  · show LinksTo (initMem image ram image.pdptTable 0) _
    rw [initMem_pdpt, if_pos rfl]
    exact hlink (by omega)
  · show hasFlag (initMem image ram image.pdTable j) _ = _ ∧
      hasFlag (initMem image ram image.pdTable j) _ = _ ∧
      entryAddr (initMem image ram image.pdTable j) = _
    rw [initMem_pd hj]
    refine ⟨(identityEntry_flags j).1, (identityEntry_flags j).2.1, ?_⟩
    have hflags : entryAddr 0b10000011#64 = 0#64 := by decide
    rw [identityEntry, entryAddr_or, hflags, BitVec.or_zero]
    apply BitVec.eq_of_toNat_eq
    rw [toNat_entryAddr, BitVec.toNat_ofNat]
    omega
  · rcases bootTag_cases hu with ⟨-, h⟩ | ⟨-, h⟩ | ⟨-, h⟩
    · cases h
    · cases h
    · cases h

/-- The tables the kernel boots with. -/
theorem PageTree.booted {ram : PhysMem} (hboot : kernelBoot image ram = .ok s) :
    ∃ tag, PageTree image window tag s := by
  rw [kernelBoot, vmmInit_eq] at hboot
  suffices h : s.cr3 = image.pml4Table ∧ ∃ tag, PageTree image window tag s from h.2
  refine forRangeE_invariant
    (fun _ (s : Vmm) => s.cr3 = image.pml4Table ∧ ∃ tag, PageTree image window tag s)
    (Nat.zero_le _) ⟨rfl, _, .init⟩ ?_ hboot
  rintro i s s' hi ⟨hcr3, tag, h⟩ hbody
  rcases pmmAlloc_spec s.pmm with ⟨hnull, -⟩ | ⟨n, hn, -, halloc⟩
  · simp [hnull] at hbody
  · have hne : n * pageSize ≠ 0 :=
      Nat.mul_ne_zero (by have := h.tagged.free n hn; omega) (by decide)
    simp only [halloc, hne, if_false] at hbody
    have hlabelled := h.label_page (heapPage i) h.kernel hn
    have hroot := @extends_update _ _ (slot privateOwner image.pml4Table (heapPage i) 0)
      (h.tagged.free_unlabelled hn) _ _ h.kernel
    change vmmMap _ (heapPage i) (frameAddr n) 0x03#64 = _ at hbody
    obtain ⟨tag', m, t⟩ := vmmMap_touched hlabelled.tagged hcr3 hroot hbody
    refine ⟨m.cr3.trans hcr3, tag', hlabelled.mapped hroot m t (.inl ?_)⟩
    rw [fresh_leaf hn (by decide), Function.update_self]

/-! ### The identity map -/

theorem PageTree.tables_ne (h : PageTree image window tag s) (hroot : tag pml4 = some .root) :
    pml4 ≠ image.pdptTable ∧ pml4 ≠ image.pdTable ∧ image.pdptTable ≠ image.pdTable := by
  refine ⟨?_, ?_, image.tables_ne.2.2⟩
  · rintro rfl
    rw [h.pdpt] at hroot
    cases hroot
  · rintro rfl
    rw [h.pd] at hroot
    cases hroot

/-- A level of the descent through an entry that leads on. -/
theorem LinksTo.getOrCreateTable {table next next' : Word} {i : Nat}
    (h : LinksTo (s.mem table i) next)
    (hok : Memory.getOrCreateTable s table i (pteWritable ||| pteUser) = .ok (s', next')) :
    next' = next ∧ ∀ u, u ≠ table → s'.mem u = s.mem u := by
  rcases getOrCreateTable_cases hok with ⟨-, -, rfl, rfl⟩ | ⟨habsent, -⟩
  · refine ⟨h.addr, fun u hu => ?_⟩
    funext j
    exact PhysMem.store_other fun hhit => hu hhit.1
  · rw [h.present] at habsent
    cases habsent

/-- The descent of `vmm_map` stops at a huge page. -/
theorem vmmMap_huge {pdpt pd phys flags : Word} (hcr3 : entryAddr s.cr3 = pml4)
    (hne : pml4 ≠ pdpt ∧ pml4 ≠ pd ∧ pdpt ≠ pd) (hpml4 : pml4Index virt = 0)
    (hpdpt : pdptIndex virt = 0) (hroot : LinksTo (s.mem pml4 0) pdpt)
    (hlink : LinksTo (s.mem pdpt 0) pd) (hpresent : hasFlag (s.mem pd (pdIndex virt)) ptePresent = true)
    (hhuge : hasFlag (s.mem pd (pdIndex virt)) pteHuge = true) :
    vmmMap s virt phys flags ≠ .ok s' := by
  intro hok
  obtain ⟨hne₁, hne₂, hne₃⟩ := hne
  unfold vmmMap at hok
  obtain ⟨⟨s₁, pdpt'⟩, hok₁, hok⟩ := bind_ok hok
  obtain ⟨⟨s₂, pd'⟩, hok₂, hok⟩ := bind_ok hok
  obtain ⟨⟨s₃, pt⟩, hok₃, -⟩ := bind_ok hok
  rw [hcr3, hpml4] at hok₁
  obtain ⟨rfl, hmem₁⟩ := hroot.getOrCreateTable hok₁
  rw [hpdpt] at hok₂
  obtain ⟨rfl, hmem₂⟩ := LinksTo.getOrCreateTable (by rw [hmem₁ _ hne₁.symm]; exact hlink) hok₂
  have hmem : s₂.mem pd' = s.mem pd' := (hmem₂ _ hne₃.symm).trans (hmem₁ _ hne₂.symm)
  rw [← hmem] at hpresent hhuge
  rcases getOrCreateTable_cases hok₃ with ⟨-, hsmall, -⟩ | ⟨habsent, -⟩
  · rw [hhuge] at hsmall
    cases hsmall
  · rw [hpresent] at habsent
    cases habsent

/-- In particular at those of the identity map. -/
theorem PageTree.map_identity {phys flags : Word} (h : PageTree image window tag s)
    (hroot : tag pml4 = some .root) (hpml4 : pml4Index virt = 0) (hpdpt : pdptIndex virt = 0) :
    vmmMapIn s pml4 virt phys flags ≠ .ok s' := by
  intro hok
  obtain ⟨t, hmap, -⟩ := bind_ok hok
  obtain ⟨hpresent, hhuge, -⟩ := h.identity (pdIndex virt) (tableIndex_lt _ _)
  exact vmmMap_huge (s := vmmSwitchAddressSpace s pml4) (h.tagged.entryAddr_eq hroot)
    (h.tables_ne hroot) hpml4 hpdpt (h.roots hroot) h.link hpresent hhuge hmap

end Tree

end CustomKernel.Memory
