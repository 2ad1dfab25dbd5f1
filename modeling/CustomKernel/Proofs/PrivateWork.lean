/-
Module: CustomKernel.Proofs.PrivateWork
Layer: Proofs
Purpose: Work in the part of an address space above PML4 index 0: what mapping fresh pages, mapping
  the VGA window, storing through the loaded tables and loading a program do to the machine, as one
  relation that composes.
Imports: CustomKernel.Filesystem.Elf, CustomKernel.Proofs.HeapCalls
Trusted boundary: none (fully proved)
Main exports: PrivateWork, createElfAddressSpace_work
-/
import CustomKernel.Filesystem.Elf
import CustomKernel.Proofs.HeapCalls

namespace CustomKernel.Syscall

open CustomKernel.Memory CustomKernel.Filesystem

/-- The VGA window `0xA0000-0xAFFFF`. -/
def InVgaWindow (addr : Word) : Prop := 0xA0000 ≤ addr.toNat ∧ addr.toNat < 0xB0000

/-! ### Work in the private part of an address space -/

/-- What work above PML4 index 0 of the address space of `pml4` does to the machine: the frames it
    takes become pages or tables of that space, and nothing outside that part changes. -/
structure PrivateWork (pml4 : Word) (tag : Word → Option Label) (s : Vmm)
    (tag' : Word → Option Label) (s' : Vmm) (frames : List Word) : Prop where
  tagged : Tagged privateOwner tag' s'
  ext : Extends tag tag'
  cr3 : s'.cr3 = s.cr3
  counted : s.pmm.Counted → s'.pmm.Counted
  roots : ∀ {u}, tag' u = some .root → tag u = some .root
  pages : ∀ {u l}, tag' u = some l → l.level = 0 → tag u = some l ∨ u ∈ frames
  frames : ∀ {u}, u ∈ frames → ∃ path, tag' u = some (.node (some pml4) path)
  owned : OwnedLeaves privateOwner InVgaWindow tag' s'
  rootEntries : ∀ {u}, tag u = some .root → u ≠ pml4 → s'.mem u = s.mem u
  off : ∀ {other v}, tag other = some .root → other ≠ pml4 ∨ pml4Index v = 0 →
    translate s'.mem other v = translate s.mem other v

namespace PrivateWork

variable {pml4 : Word} {tag tag' tag'' : Word → Option Label} {s s' s'' : Vmm}
  {frames frames' : List Word}

theorem refl (h : Tagged privateOwner tag s) (hown : OwnedLeaves privateOwner InVgaWindow tag s) :
    PrivateWork pml4 tag s tag s [] where
  tagged := h
  ext _ _ ht := ht
  cr3 := rfl
  counted hc := hc
  roots hu := hu
  pages hu _ := .inl hu
  frames hu := by cases hu
  owned := hown
  rootEntries _ _ := rfl
  off _ _ := rfl

theorem trans (h : PrivateWork pml4 tag s tag' s' frames)
    (h' : PrivateWork pml4 tag' s' tag'' s'' frames') :
    PrivateWork pml4 tag s tag'' s'' (frames ++ frames') where
  tagged := h'.tagged
  ext := h.ext.trans h'.ext
  cr3 := h'.cr3.trans h.cr3
  counted hc := h'.counted (h.counted hc)
  roots hu := h.roots (h'.roots hu)
  pages hu hl := by
    rcases h'.pages hu hl with hu' | hmem
    · exact (h.pages hu' hl).imp_right (List.mem_append_left _)
    · exact .inr (List.mem_append_right _ hmem)
  frames hu := by
    rcases List.mem_append.1 hu with hmem | hmem
    · obtain ⟨path, htag⟩ := h.frames hmem
      exact ⟨path, h'.ext _ _ htag⟩
    · exact h'.frames hmem
  owned := h'.owned
  rootEntries hu hne := (h'.rootEntries (h.ext _ _ hu) hne).trans (h.rootEntries hu hne)
  off hother hne := (h'.off (h.ext _ _ hother) hne).trans (h.off hother hne)

/-- The owner of what lies above index 0 in one space differs from the owner of everything else. -/
theorem owner_ne {other v : Word} {i : Nat} (hi : 1 ≤ i) (h : other ≠ pml4 ∨ pml4Index v = 0) :
    privateOwner pml4 i ≠ privateOwner other (pml4Index v) := by
  rcases h with hne | hzero
  · exact privateOwner_ne hi hne
  · have : i ≠ 0 := by omega
    simp [privateOwner, hzero, this]

/-- Mapping fresh pages above index 0. -/
theorem of_pages {virt : Nat → Word} {flags : Word} {i m : Nat}
    (hown : OwnedLeaves privateOwner InVgaWindow tag s)
    (p : PagesMapped privateOwner pml4 virt flags i m tag s tag' s' frames)
    (hvirt : ∀ k < m, 1 ≤ pml4Index (virt (i + k))) :
    PrivateWork pml4 tag s tag' s' frames where
  tagged := p.tagged
  ext := p.ext
  cr3 := p.cr3
  counted := p.counted
  roots := p.roots
  pages := p.pages
  frames hu := by
    obtain ⟨k, hk, htag⟩ := p.frames hu
    have hne : pml4Index (virt (i + k)) ≠ 0 := by have := hvirt k hk; omega
    exact ⟨_, by rw [htag, slot, privateOwner, if_neg hne]⟩
  owned := p.owned hown
  rootEntries hu hne := by
    funext j
    exact p.rootEntries hu fun heq => absurd heq hne
  off hother hne := p.off hother fun k hk => owner_ne (hvirt k hk) hne

/-- Mapping a page above index 0 into the VGA window. -/
theorem of_window {virt leaf : Word} (hown : OwnedLeaves privateOwner InVgaWindow tag s)
    (m : Mapped privateOwner pml4 virt leaf tag s tag' s') (hvirt : 1 ≤ pml4Index virt)
    (hleaf : InVgaWindow (entryAddr leaf)) : PrivateWork pml4 tag s tag' s' [] where
  tagged := m.tagged
  ext := m.ext
  cr3 := m.cr3
  counted := m.counted
  roots hu := m.root_of_root hu
  pages {u l} hu hl := by
    left
    cases hold : tag u with
    | none =>
        have := (m.fresh hu hold).1
        omega
    | some l' =>
        have := m.ext _ _ hold
        rw [hu] at this
        exact this.symm ▸ rfl
  frames hu := by cases hu
  owned := hown.mapped m (.inr hleaf)
  rootEntries hu hne := by
    funext j
    exact m.roots hu fun hhit => hne hhit.1
  off hother hne := m.off hother (owner_ne hvirt hne)

end PrivateWork

/-! ### Stores through an address space -/

/-- A frame mapped above index 0 is no table. -/
theorem leaf_not_table {pml4 : Word} {tag : Word → Option Label} {s : Vmm}
    (h : Tagged privateOwner tag s) {leaf v : Word}
    (hleaf : tag (entryAddr leaf) = some (slot privateOwner pml4 v 0) ∨ InVgaWindow (entryAddr leaf))
    {u : Word} {l : Label} (hu : tag u = some l) (hl : 1 ≤ l.level) : u ≠ entryAddr leaf := by
  rintro rfl
  rcases hleaf with hpage | hwindow
  · rw [hu] at hpage
    cases hpage
    rw [level_slot _ _ (by decide)] at hl
    omega
  · obtain ⟨n, hn, -, hge, heq⟩ := h.frame hu
    have hnat := congrArg BitVec.toNat heq
    rw [toNat_frameAddr hn] at hnat
    have := hwindow.2
    omega

/-- The address in a leaf entry above index 0 lies below the reserved bits. -/
theorem leaf_small {pml4 : Word} {tag : Word → Option Label} {s : Vmm}
    (h : Tagged privateOwner tag s) {leaf v : Word}
    (hleaf : tag (entryAddr leaf) = some (slot privateOwner pml4 v 0) ∨
      InVgaWindow (entryAddr leaf)) : (entryAddr leaf).toNat < 2 ^ 52 := by
  rcases hleaf with hpage | hwindow
  · obtain ⟨n, hn, -, -, heq⟩ := h.frame hpage
    have : n < 65536 := hn
    rw [heq, toNat_frameAddr hn]
    omega
  · have := hwindow.2
    omega

/-- A byte stored above index 0 lands in a page and changes no table. -/
theorem storeByte_work {pml4 v : Word} {byte : BitVec 8} {tag : Word → Option Label} {s s' : Vmm}
    (h : Tagged privateOwner tag s) (hown : OwnedLeaves privateOwner InVgaWindow tag s)
    (hroot : tag pml4 = some .root) (hcr3 : s.cr3 = pml4) (hv : 1 ≤ pml4Index v)
    (hok : storeByte s v byte = .ok s') : PrivateWork pml4 tag s tag s' [] := by
  unfold storeByte at hok
  split at hok
  · cases hok
  cases htr : translate s.mem s.cr3 v with
  | none =>
      rw [htr] at hok
      cases hok
  | some tr =>
      rw [htr] at hok
      cases hok
      rw [hcr3] at htr
      obtain ⟨hleaf, hphys⟩ := h.translate_owned hown hroot hv htr
      have haddr : entryAddr tr.phys = entryAddr tr.leaf := by
        rw [hphys, entryAddr_leaf_phys (leaf_small h hleaf)]
      have hkeep : ∀ u l, tag u = some l → 1 ≤ l.level →
          s.mem.storeByte tr.phys byte u = s.mem u := by
        intro u l hu hl
        funext j
        apply PhysMem.store_other
        rintro ⟨htable, -⟩
        exact leaf_not_table h hleaf hu hl (htable.trans haddr)
      have htagged : Tagged privateOwner tag
          { s with mem := s.mem.storeByte tr.phys byte } := by
        refine ⟨h.frame, fun {u l j} hu hl hj hp hh => ?_, fun {u l j} hu hl hj hp hh => ?_, h.free⟩
        · simp only [hkeep u l hu (by omega)] at hp hh ⊢
          exact h.child hu hl hj hp hh
        · simp only [hkeep u l hu (by omega)] at hp hh
          exact h.huge hu hl hj hp hh
      refine ⟨htagged, fun _ _ ht => ht, rfl, id, id, fun hu _ => .inl hu, fun hu => (nomatch hu),
        fun u l j hu hl hj hp => ?_, fun hu _ => hkeep _ _ hu (by decide), fun hother _ => ?_⟩
      · simp only [hkeep u l hu (by omega)] at hp ⊢
        exact hown u l j hu hl hj hp
      · show mmuWalk _ _ 4 (pteAddr _) = mmuWalk _ _ 4 (pteAddr _)
        rw [h.pteAddr_eq hother]
        exact h.mmuWalk_root hkeep hother _

theorem pml4Index_of_range {v : Word} (hlo : 2 ^ 39 ≤ v.toNat) (hhi : v.toNat < 2 ^ 40) :
    1 ≤ pml4Index v := by
  rw [pml4Index, tableIndex_eq]
  omega

/-- A run of stores at PML4 index 1. -/
theorem storeBytes_work {pml4 : Word} {tag : Word → Option Label} (hroot : tag pml4 = some .root) :
    ∀ (bytes : List (BitVec 8)) (v : Word) (s s' : Vmm), Tagged privateOwner tag s →
      OwnedLeaves privateOwner InVgaWindow tag s → s.cr3 = pml4 → 2 ^ 39 ≤ v.toNat →
      v.toNat + bytes.length ≤ 2 ^ 40 → storeBytes v bytes s = .ok s' →
      PrivateWork pml4 tag s tag s' []
  | [], v, s, s', h, hown, hcr3, hlo, hhi, hok => by
      cases hok
      exact .refl h hown
  | byte :: bytes, v, s, s', h, hown, hcr3, hlo, hhi, hok => by
      obtain ⟨s₁, hfirst, hrest⟩ := Loops.bind_ok hok
      rw [List.length_cons] at hhi
      have first := storeByte_work h hown hroot hcr3 (pml4Index_of_range hlo (by omega)) hfirst
      have hnext : (v + 1#64).toNat = v.toNat + 1 := by
        rw [BitVec.toNat_add, BitVec.toNat_ofNat]
        omega
      have rest := storeBytes_work hroot bytes (v + 1#64) s₁ s' first.tagged first.owned
        (first.cr3.trans hcr3) (by omega) (by omega) hrest
      exact first.trans rest

/-! ### Loading a program -/

/-- Work done after switching to another PML4, seen after switching back. -/
theorem PrivateWork.switched {pml4 cr3 : Word} {tag tag' : Word → Option Label} {s s' : Vmm}
    {frames : List Word}
    (w : PrivateWork pml4 tag (vmmSwitchAddressSpace s cr3) tag' s' frames) :
    PrivateWork pml4 tag s tag' (vmmSwitchAddressSpace s' s.cr3) frames :=
  ⟨w.tagged.switch _, w.ext, rfl, w.counted, w.roots, w.pages, w.frames, w.owned, w.rootEntries,
    w.off⟩

/-- The bytes of a segment, in memory and from the file, lie at PML4 index 1. -/
structure AtIndexOne (phdr : Phdr) : Prop where
  low : 2 ^ 39 ≤ phdr.pVaddr.toNat
  mem_high : phdr.pVaddr.toNat + phdr.pMemsz.toNat ≤ 2 ^ 40
  file_high : phdr.pVaddr.toNat + phdr.pFilesz.toNat ≤ 2 ^ 40

theorem userPage_flags : entryAddr userPage = 0#64 := by decide

theorem AtIndexOne.pages {phdr : Phdr} (h : AtIndexOne phdr) {k : Nat}
    (hk : k < brkPages phdr.vstart phdr.vend) : 1 ≤ pml4Index (sbrkPage phdr.vstart k) := by
  have hlow := h.low
  have hhigh := h.mem_high
  have hstart : phdr.vstart.toNat = phdr.pVaddr.toNat / 4096 * 4096 := toNat_entryAddr _
  have hsum : (phdr.pVaddr + phdr.pMemsz).toNat = phdr.pVaddr.toNat + phdr.pMemsz.toNat := by
    rw [BitVec.toNat_add]
    omega
  have hend : phdr.vend.toNat = (phdr.pVaddr.toNat + phdr.pMemsz.toNat + 4095) / 4096 * 4096 := by
    rw [Phdr.vend, toNat_pageAlignUp (by omega), hsum]
  rw [brkPages, hstart, hend, show pageSize = 4096 from rfl] at hk
  have hpage : (sbrkPage phdr.vstart k).toNat = phdr.vstart.toNat + k * 4096 := by
    show (phdr.vstart + BitVec.ofNat 64 (k * 4096)).toNat = _
    rw [BitVec.toNat_add, BitVec.toNat_ofNat]
    omega
  refine pml4Index_of_range ?_ ?_ <;> omega

/-- One segment. -/
theorem loadSegment_work {pml4 : Word} {phdr : Phdr} {contents : List (BitVec 8)}
    {tag : Word → Option Label} {s : Vmm} {load : Loading} (h : Tagged privateOwner tag s)
    (hown : OwnedLeaves privateOwner InVgaWindow tag s) (hroot : tag pml4 = some .root)
    (hphdr : AtIndexOne phdr) (hcontents : contents.length ≤ phdr.pFilesz.toNat)
    (hok : loadSegment pml4 phdr contents s = .ok load) :
    ∃ tag', PrivateWork pml4 tag s tag' load.vmm load.frames := by
  obtain ⟨out, hmap, hok⟩ := Loops.bind_ok hok
  obtain ⟨m, hm, -, tag', p⟩ := mapFreshPages_spec userPage_flags _ 0 tag s out h hroot hmap
  have pages := PrivateWork.of_pages hown p fun k hk => by
    rw [Nat.zero_add]
    exact hphdr.pages (by omega)
  cases hc : out.complete with
  | false =>
      rw [if_neg (by simp [hc])] at hok
      cases hok
      exact ⟨tag', pages⟩
  | true =>
      rw [if_pos hc] at hok
      obtain ⟨s₁, hzero, hok⟩ := Loops.bind_ok hok
      obtain ⟨s₂, hfill, hok⟩ := Loops.bind_ok hok
      cases hok
      have hroot' := pages.ext _ _ hroot
      have hmem := hphdr.mem_high
      have hfile := hphdr.file_high
      have zeroed := storeBytes_work hroot' _ _ _ _ (pages.tagged.switch pml4) pages.owned rfl
        hphdr.low (by rw [List.length_replicate]; exact hmem) hzero
      have filled := storeBytes_work hroot' _ _ _ _ zeroed.tagged zeroed.owned zeroed.cr3
        hphdr.low (by omega) hfill
      have stored : PrivateWork pml4 tag' out.vmm tag'
          (vmmSwitchAddressSpace s₂ out.vmm.cr3) [] := (zeroed.trans filled).switched
      have hcr3 : out.vmm.cr3 = s.cr3 := pages.cr3
      rw [hcr3] at stored
      have whole := pages.trans stored
      rw [List.append_nil] at whole
      exact ⟨tag', whole⟩

/-- The program-header loop. -/
theorem loadSegments_work {pml4 : Word} {contents : Phdr → List (BitVec 8)} :
    ∀ (phdrs : List Phdr) (tag : Word → Option Label) (s : Vmm) (load : Loading),
      Tagged privateOwner tag s → OwnedLeaves privateOwner InVgaWindow tag s →
      tag pml4 = some .root →
      (∀ phdr ∈ phdrs, phdr.loadable = true → AtIndexOne phdr) →
      (∀ phdr ∈ phdrs, (contents phdr).length ≤ phdr.pFilesz.toNat) →
      loadSegments pml4 contents phdrs s = .ok load →
      ∃ tag', PrivateWork pml4 tag s tag' load.vmm load.frames
  | [], tag, s, load, h, hown, hroot, hphdrs, hcontents, hok => by
      cases hok
      exact ⟨tag, .refl h hown⟩
  | phdr :: phdrs, tag, s, load, h, hown, hroot, hphdrs, hcontents, hok => by
      have htail : ∀ other ∈ phdrs, other.loadable = true → AtIndexOne other :=
        fun other hmem => hphdrs other (List.mem_cons_of_mem _ hmem)
      have htail' : ∀ other ∈ phdrs, (contents other).length ≤ other.pFilesz.toNat :=
        fun other hmem => hcontents other (List.mem_cons_of_mem _ hmem)
      rw [loadSegments] at hok
      cases hload : phdr.loadable with
      | false =>
          rw [if_neg (by simp [hload])] at hok
          exact loadSegments_work phdrs tag s load h hown hroot htail htail' hok
      | true =>
          rw [if_pos hload] at hok
          obtain ⟨first, hfirst, hok⟩ := Loops.bind_ok hok
          obtain ⟨tag₁, w₁⟩ := loadSegment_work h hown hroot
            (hphdrs phdr (List.mem_cons_self ..) hload) (hcontents phdr (List.mem_cons_self ..))
            hfirst
          cases hc : first.ok with
          | false =>
              rw [if_neg (by simp [hc])] at hok
              cases hok
              exact ⟨tag₁, w₁⟩
          | true =>
              rw [if_pos hc] at hok
              obtain ⟨rest, hrest, hok⟩ := Loops.bind_ok hok
              cases hok
              obtain ⟨tag₂, w₂⟩ := loadSegments_work phdrs tag₁ first.vmm rest w₁.tagged w₁.owned
                (w₁.ext _ _ hroot) htail htail' hrest
              exact ⟨tag₂, w₁.trans w₂⟩

theorem userStackPage_index {k : Nat} (hk : k < userStackPages) :
    1 ≤ pml4Index (userStackPage k) := by
  have hlt : k < 32 := hk
  have hnat : (userStackPage k).toNat = 0x8000040000 - (32 - k) * 4096 := by
    show (userStackVirt - BitVec.ofNat 64 ((32 - k) * 4096)).toNat = _
    rw [userStackVirt, BitVec.toNat_sub, BitVec.toNat_ofNat, BitVec.toNat_ofNat]
    omega
  refine pml4Index_of_range ?_ ?_ <;> omega

/-- The constructor either has no frame for a PML4, or makes a new address space from the loaded one
    and does the rest of its work in the private part of the new one. -/
theorem createElfAddressSpace_work {elf : ElfFile} {tag : Word → Option Label} {s : Vmm}
    {r : ElfReturn} (h : Tagged privateOwner tag s)
    (hown : OwnedLeaves privateOwner InVgaWindow tag s) (hroot : tag s.cr3 = some .root)
    (hclean : ∀ i, 1 ≤ i → i < 512 → hasFlag (s.mem s.cr3 i) ptePresent = false)
    (helf : ∀ phdr ∈ elf.phdrs, phdr.loadable = true → AtIndexOne phdr)
    (hok : createElfAddressSpace s elf = .ok r) :
    (r.vmm = s ∧ r.proc = none) ∨
      ∃ n s₁ tag', Created tag s privateOwner n s₁ ∧
        OwnedLeaves privateOwner InVgaWindow
          (Function.update tag (frameAddr n) (some .root)) s₁ ∧
        s₁.pmm = reserveFrame n s.pmm ∧ n ∈ s.pmm.freeSet ∧
        PrivateWork (frameAddr n) (Function.update tag (frameAddr n) (some .root)) s₁ tag' r.vmm
          r.frames ∧
        ∀ proc, r.proc = some proc → proc.pageTable = frameAddr n := by
  have hshare : ∀ n ∈ s.pmm.freeSet, ∀ j < 512, hasFlag (s.mem s.cr3 j) ptePresent = true →
      privateOwner s.cr3 j = privateOwner (frameAddr n) j := by
    intro n _ j hj hp
    have hzero : j = 0 := by
      by_contra hne
      rw [hclean j (by omega) hj] at hp
      cases hp
    simp [privateOwner, hzero]
  unfold createElfAddressSpace at hok
  rcases vmmCreateAddressSpace_spec h hroot hshare with ⟨-, hnull⟩ | ⟨n, hn, hne, s₁, hcreate, c⟩
  · rw [hnull] at hok
    cases hok
    exact .inl ⟨rfl, rfl⟩
  right
  rw [hcreate] at hok
  simp only [hne, if_false] at hok
  obtain ⟨stack, hstack, hok⟩ := Loops.bind_ok hok
  have hroot' : Function.update tag (frameAddr n) (some .root) (frameAddr n) = some .root :=
    Function.update_self ..
  have hown₁ : OwnedLeaves privateOwner InVgaWindow
      (Function.update tag (frameAddr n) (some .root)) s₁ := by
    intro u l j hu hl hj hp
    by_cases hnew : u = frameAddr n
    · rw [hnew, hroot'] at hu
      cases hu
      cases hl
    · rw [Function.update_of_ne hnew] at hu
      rw [c.other u hnew] at hp ⊢
      exact (hown u l j hu hl hj hp).imp_left (c.ext _ _)
  obtain ⟨m, hm, -, tag₂, p⟩ :=
    mapFreshPages_spec userPage_flags _ 0 _ s₁ stack c.tagged hroot' hstack
  have stackWork := PrivateWork.of_pages hown₁ p fun k hk => by
    rw [Nat.zero_add]
    exact userStackPage_index (by omega)
  refine ⟨n, s₁, ?_⟩
  cases hc : stack.complete with
  | false =>
      rw [if_neg (by simp [hc])] at hok
      cases hok
      exact ⟨tag₂, c, hown₁, c.free, hn, stackWork,
        fun proc hproc => by cases hproc⟩
  | true =>
      rw [if_pos hc] at hok
      obtain ⟨load, hload, hok⟩ := Loops.bind_ok hok
      obtain ⟨tag₃, loadWork⟩ := loadSegments_work elf.phdrs tag₂ stack.vmm load stackWork.tagged
        stackWork.owned (stackWork.ext _ _ hroot') helf elf.contents_le hload
      cases hlc : load.ok with
      | false =>
          rw [if_neg (by simp [hlc])] at hok
          cases hok
          exact ⟨tag₃, c, hown₁, c.free, hn, stackWork.trans loadWork,
            fun proc hproc => by cases hproc⟩
      | true =>
          rw [if_pos hlc] at hok
          cases hok
          refine ⟨tag₃, c, hown₁, c.free, hn, stackWork.trans loadWork, fun proc hproc => ?_⟩
          cases hproc
          rfl

end CustomKernel.Syscall
