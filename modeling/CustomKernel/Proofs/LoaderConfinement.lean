/-
Module: CustomKernel.Proofs.LoaderConfinement
Layer: Proofs
Purpose: What `process_create_elf` leaves alone, for a file of any contents. If no page of a loadable
  segment is at PML4 index 0, the call writes to frames it has taken from the allocator alone, and no
  address of the kernel or of an earlier process is translated differently. The tables behind index 0
  are shared by all address spaces: a segment there is mapped in all of them.
Imports: CustomKernel.Proofs.LoadedPrograms, CustomKernel.Proofs.ConstructorHeap
Trusted boundary: as in SystemRuns: the kernel heap, the descriptors and the archive are beside
  physical memory
Main exports: TakenFrame, LoadConfined, FreshPage, AboveKernel, ElfConfined, createElf_confined,
  createElf_shared, loader_confined
-/
import CustomKernel.Proofs.LoadedPrograms
import CustomKernel.Proofs.ConstructorHeap

namespace CustomKernel.Memory

open CustomKernel.Syscall CustomKernel.Filesystem Loops

/-! ### Frames that were taken -/

/-- A frame that was free and is no longer. -/
def TakenFrame (s t : Vmm) (u : Word) : Prop :=
  ∃ n ∈ s.pmm.freeSet, n ∉ t.pmm.freeSet ∧ u = frameAddr n

/-- What was taken stays taken. -/
theorem TakenFrame.mono {s t t' : Vmm} {u : Word} (h : TakenFrame s t u)
    (hfree : t'.pmm.freeSet ⊆ t.pmm.freeSet) : TakenFrame s t' u := by
  obtain ⟨n, hn, hused, rfl⟩ := h
  exact ⟨n, hn, fun hn' => hused (hfree hn'), rfl⟩

theorem TakenFrame.unlabelled {tag : Word → Option Label} {s t : Vmm} {u : Word}
    (h : TakenFrame s t u) (htagged : Tagged privateOwner tag s) : tag u = none := by
  obtain ⟨n, hn, -, rfl⟩ := h
  exact htagged.free_unlabelled hn

/-- The work of a load at addresses above PML4 index 0: it is written to taken frames alone, and the
    address spaces there were are as they were. -/
structure LoadConfined (s₀ : Vmm) (tag₀ : Word → Option Label) (pml4 : Word)
    (tag : Word → Option Label) (t : Vmm) : Prop where
  ext : Extends tag₀ tag
  free : t.pmm.freeSet ⊆ s₀.pmm.freeSet
  root : TakenFrame s₀ t pml4
  owned : ∀ {u path}, tag u = some (.node (some pml4) path) → TakenFrame s₀ t u
  outside : ∀ u, ¬ TakenFrame s₀ t u → t.mem u = s₀.mem u
  roots : ∀ {other}, tag₀ other = some .root → ∀ v,
    translate t.mem other v = translate s₀.mem other v

section Confined

variable {image : BootImage} {window : Word → Prop} {tag₀ tag tag' : Word → Option Label}
  {s₀ s s' : Vmm} {pml4 virt v : Word}

/-- The label of a page above PML4 index 0. -/
theorem slot_above (hv : 1 ≤ pml4Index v) (level : Nat) :
    slot privateOwner pml4 v level = .node (some pml4) ((walkPath v).drop level) := by
  rw [slot, privateOwner, if_neg (by omega)]

/-- A run of accepted addresses that starts above PML4 index 0 and does not wrap stays there. -/
theorem index_above {n : Nat} (hv : 1 ≤ pml4Index v) (hfits : v.toNat + n < 2 ^ 64)
    (hcanon : ∀ z < n, Canonical (v + BitVec.ofNat 64 z)) {z : Nat} (hz : z < n) :
    1 ≤ pml4Index (v + BitVec.ofNat 64 z) := by
  have hat : ∀ i < n, (v + BitVec.ofNat 64 i).toNat = v.toNat + i := by
    intro i hi
    rw [BitVec.toNat_add, BitVec.toNat_ofNat]
    omega
  have hfirst := hcanon 0 (by omega)
  have hlast := hcanon z hz
  unfold Canonical at hfirst hlast
  rw [hat 0 (by omega)] at hfirst
  rw [hat z hz] at hlast
  rw [pml4Index, tableIndex_eq] at hv ⊢
  rw [hat z hz]
  -- otherwise a run from the lower half would have met an address between the halves
  by_contra hlow
  have hmiddle := hcanon (2 ^ 47 - v.toNat)
  unfold Canonical at hmiddle
  have hsum : 2 ^ 47 - v.toNat < n → v.toNat < 2 ^ 47 →
      (v + BitVec.ofNat 64 (2 ^ 47 - v.toNat)).toNat = 2 ^ 47 := by
    intro hlt hv'
    rw [hat _ hlt]
    omega
  by_cases hhalf : v.toNat < 2 ^ 47 ∧ 2 ^ 47 - v.toNat < n
  · have := hmiddle hhalf.2
    rw [hsum hhalf.2 hhalf.1] at this
    omega
  · omega

/-- A fresh page above PML4 index 0. -/
theorem LoadConfined.map {n : Nat} {flags : Word} (h : LoadConfined s₀ tag₀ pml4 tag s)
    (htree : LoadTree image window pml4 tag s) (hbase : Tagged privateOwner tag₀ s₀)
    (hvirt : 1 ≤ pml4Index virt) (hn : n ∈ s.pmm.freeSet)
    (htree' : LoadTree image window pml4 tag' s')
    (m : FreshMapped pml4 virt flags n tag s tag' s') : LoadConfined s₀ tag₀ pml4 tag' s' := by
  have hext := m.ext htree.tagged hn
  have hstep : s'.pmm.freeSet ⊆ s.pmm.freeSet := fun i hi =>
    Finset.mem_of_mem_erase (by
      have := m.mapped.free hi
      rwa [freeSet_reserveFrame] at this)
  have hused : ∀ {i}, i ∈ s.pmm.freeSet → tag' (frameAddr i) ≠ none → TakenFrame s₀ s' (frameAddr i) :=
    fun {i} hi hlabel => ⟨i, h.free hi, fun hi' => hlabel (htree'.tagged.free_unlabelled hi'), rfl⟩
  have htaken : ∀ {u}, TakenFrame s₀ s u → TakenFrame s₀ s' u := fun hu => hu.mono hstep
  refine ⟨h.ext.trans hext, hstep.trans h.free, htaken h.root, fun {u path} hu => ?_,
    fun u hu => ?_, fun {other} hother v => ?_⟩
  · -- a label of this address space: the new page, a new table, or one there was
    cases hold : Function.update tag (frameAddr n) (some (slot privateOwner pml4 virt 0)) u with
    | none =>
        obtain ⟨⟨i, hi, rfl⟩, -⟩ := m.touched.fresh hu hold
        rw [freeSet_reserveFrame] at hi
        exact hused (Finset.mem_of_mem_erase hi) (by rw [hu]; exact Option.some_ne_none _)
    | some label =>
        by_cases hnew : u = frameAddr n
        · subst hnew
          exact hused hn (by rw [hu]; exact Option.some_ne_none _)
        · rw [Function.update_of_ne hnew] at hold
          have hsame := hext _ _ hold
          rw [hu] at hsame
          cases hsame
          exact htaken (h.owned hold)
  · have hself : tag' (frameAddr n) = some (slot privateOwner pml4 virt 0) :=
      m.mapped.ext _ _ (Function.update_self ..)
    have hpage : u ≠ frameAddr n := by
      rintro rfl
      exact hu (hused hn (by rw [hself]; exact Option.some_ne_none _))
    rw [m.touched.outside (fun heq => hu (by rw [heq]; exact htaken h.root)) (fun i hi hi' heq => ?_)
      fun level _ _ hlabel => ?_]
    · exact h.outside u fun htake => hu (htaken htake)
    · rw [freeSet_reserveFrame] at hi
      exact hu ⟨i, h.free (Finset.mem_of_mem_erase hi), hi', heq⟩
    · rw [Function.update_of_ne hpage, slot_above hvirt] at hlabel
      exact hu (htaken (h.owned hlabel))
  · have hother' := h.ext _ _ hother
    have hne : other ≠ pml4 := by
      rintro rfl
      rw [h.root.unlabelled hbase] at hother
      cases hother
    have hroot := @extends_update _ _ (slot privateOwner pml4 virt 0)
      (htree.tagged.free_unlabelled hn) _ _ hother'
    rw [m.mapped.off hroot (privateOwner_ne hvirt hne)]
    exact h.roots hother v

/-- A run of stores that starts above PML4 index 0. -/
theorem LoadConfined.store {n : Nat} (h : LoadConfined s₀ tag₀ pml4 tag s)
    (hv : 1 ≤ pml4Index v) (stored : Stored image window pml4 tag v n s s') :
    LoadConfined s₀ tag₀ pml4 tag s' := by
  have htaken : ∀ {u}, TakenFrame s₀ s u → TakenFrame s₀ s' u := fun hu =>
    hu.mono (by rw [stored.pmm])
  refine ⟨h.ext, by rw [stored.pmm]; exact h.free, htaken h.root, fun hu => htaken (h.owned hu),
    fun u hu => ?_, fun {other} hother w => ?_⟩
  · rw [stored.outside u fun z hz hlabel => ?_]
    · exact h.outside u fun htake => hu (htaken htake)
    · have hbelow := stored.below (by omega)
      rw [slot_above (index_above hv (by omega) stored.canonical hz)] at hlabel
      exact hu (htaken (h.owned hlabel))
  · rw [stored.translate other w (h.ext _ _ hother)]
    exact h.roots hother w

theorem toNat_index_entryAddr (v : Word) : pml4Index (entryAddr v) = pml4Index v := by
  rw [pml4Index, pml4Index, tableIndex_eq, tableIndex_eq, toNat_entryAddr]
  omega

/-- A load above PML4 index 0 is confined throughout. -/
theorem LoadConfined.rule (hbase : Tagged privateOwner tag₀ s₀) :
    LoadRule image window pml4 (fun v => 1 ≤ pml4Index v) (LoadConfined s₀ tag₀ pml4) where
  map htree h hvirt hn htree' m := h.map htree hbase hvirt hn htree' m
  store _ h _ hv stored := h.store (by rwa [toNat_index_entryAddr] at hv) stored
  switch _ h := ⟨h.ext, h.free, h.root, h.owned, h.outside, h.roots⟩

/-- The new PML4. -/
theorem LoadConfined.created {n : Nat} (hbase : PageTree image window tag₀ s₀)
    (hn : n ∈ s₀.pmm.freeSet) (c : Created tag₀ s₀ privateOwner n s) :
    LoadConfined s₀ tag₀ (frameAddr n) (Function.update tag₀ (frameAddr n) (some .root)) s := by
  have hroot : TakenFrame s₀ s (frameAddr n) := by
    refine ⟨n, hn, ?_, rfl⟩
    rw [c.free, freeSet_reserveFrame]
    exact Finset.notMem_erase n _
  refine ⟨c.ext, ?_, hroot, fun {u path} hu => ?_, fun u hu => ?_, fun hother v => c.off v hother⟩
  · rw [c.free, freeSet_reserveFrame]
    exact Finset.erase_subset ..
  · -- no frame could have been labelled for the new PML4
    by_cases hnew : u = frameAddr n
    · rw [hnew, Function.update_self] at hu
      cases hu
    · rw [Function.update_of_ne hnew] at hu
      have howner := hbase.owners hu
      rw [c.fresh] at howner
      cases howner
  · exact c.other u fun heq => hu (heq ▸ hroot)

/-! ### Pages behind the shared entry -/

/-- What is behind PML4 index 0 is the same in all address spaces. -/
theorem PageTree.translate_shared (h : PageTree image window tag s) {other : Word}
    (hroot : tag pml4 = some .root) (hother : tag other = some .root) (hv : pml4Index v = 0) :
    (Memory.translate s.mem pml4 v).map Translation.leaf =
      (Memory.translate s.mem other v).map Translation.leaf := by
  have hwalk : ∀ {u}, tag u = some .root → (Memory.translate s.mem u v).map Translation.leaf =
      (mmuWalk s.mem v 3 image.pdptTable).map Translation.leaf := by
    intro u hu
    have hlink := h.roots hu
    obtain ⟨n, hn, -, -, hframe⟩ := h.tagged.frame h.pdpt
    have haddr : pteAddr (s.mem u 0) = image.pdptTable := by
      rw [hframe]
      exact pteAddr_of_frame hn (hlink.addr.trans hframe)
    have hindex : tableIndex (12 + 9 * 3) v = 0 := hv
    have hnext : pteAddr (s.mem u (tableIndex (12 + 9 * 3) v)) = image.pdptTable := by
      rw [hindex]
      exact haddr
    have hstep : Memory.translate s.mem u v =
        (mmuWalk s.mem v 3 image.pdptTable).map (Translation.through (s.mem u 0)) := by
      rw [Memory.translate, h.tagged.pteAddr_eq hu, mmuWalk_down (by decide)
        (by rw [hindex]; exact hlink.present) (by rw [hindex]; exact hlink.small) hnext, hindex]
    rw [hstep, Option.map_map]
    rfl
  rw [hwalk hroot, hwalk hother]

/-- Outside the identity map it leads to labelled frames. -/
theorem PageTree.shared_frame (h : PageTree image window tag s) (hroot : tag pml4 = some .root)
    (hv : Loadable v) (hindex : pml4Index v = 0) {tr : Translation}
    (htr : Memory.translate s.mem pml4 v = some tr) : tag (entryAddr tr.leaf) ≠ none := by
  obtain ⟨pt, hpt, hleaf, hpresent, -⟩ := h.tagged.translate_leaf hroot hv.index htr
  have hlevel := @level_slot privateOwner pml4 v 1 (by decide)
  rw [slot, privateOwner, if_pos hindex] at hpt hlevel
  rw [hleaf] at hpresent ⊢
  rw [h.common pt _ (ptIndex v) hpt hlevel (tableIndex_lt _ _) hpresent]
  exact Option.some_ne_none _

/-- A page that is mapped to a frame that was free. -/
def FreshPage (s₀ : Vmm) (pml4 v : Word) (t : Vmm) : Prop :=
  ∃ tr, Memory.translate t.mem pml4 v = some tr ∧
    ∃ n ∈ s₀.pmm.freeSet, entryAddr tr.leaf = frameAddr n

theorem FreshPage.widened {t t' : Vmm} (h : FreshPage s₀ pml4 v t)
    (hwide : Widened (Memory.translate t.mem pml4 v) (Memory.translate t'.mem pml4 v)) :
    FreshPage s₀ pml4 v t' := by
  obtain ⟨tr, htr, n, hn, hleaf⟩ := h
  rw [htr] at hwide
  obtain ⟨tr', htr', hsame⟩ := hwide.some_left
  exact ⟨tr', htr', n, hn, by rw [hsame.leaf]; exact hleaf⟩

/-- The page that was mapped. -/
theorem FreshMapped.freshPage {n : Nat} (hfree : s.pmm.freeSet ⊆ s₀.pmm.freeSet)
    (hn : n ∈ s.pmm.freeSet) (m : FreshMapped pml4 virt userPage n tag s tag' s')
    (hv : walkPath v = walkPath virt) : FreshPage s₀ pml4 v s' :=
  ⟨_, m.mapped.self hv, n, hfree hn, fresh_leaf hn (by decide)⟩

/-- No frame is given back. -/
def StillFree (s₀ t : Vmm) : Prop := t.pmm.freeSet ⊆ s₀.pmm.freeSet

theorem StillFree.map {n : Nat} {flags : Word} (h : StillFree s₀ s)
    (m : FreshMapped pml4 virt flags n tag s tag' s') : StillFree s₀ s' := fun i hi =>
  h (Finset.mem_of_mem_erase (by
    have := m.mapped.free hi
    rwa [freeSet_reserveFrame] at this))

/-- A fresh page stays one: mapped again, it gets another frame that was free. -/
theorem FreshPage.rule : LoadRule image window pml4 (fun _ => True)
    (fun _ t => StillFree s₀ t ∧ FreshPage s₀ pml4 v t) where
  map {tag tag' s s' virt n} htree h _ hn _ m := by
    refine ⟨h.1.map m, ?_⟩
    by_cases hsame : walkPath v = walkPath virt
    · exact m.freshPage h.1 hn hsame
    · have hroot := @extends_update _ _ (slot privateOwner pml4 virt 0)
        (htree.tagged.free_unlabelled hn) _ _ htree.root
      exact h.2.widened (m.mapped.widened hroot (.inr hsame))
  store htree h _ _ stored := by
    refine ⟨by rw [StillFree, stored.pmm]; exact h.1, h.2.widened ?_⟩
    rw [stored.translate _ _ htree.root]
    exact .refl _
  switch _ h := h

theorem StillFree.rule : LoadRule image window pml4 (fun _ => True) (fun _ t => StillFree s₀ t) where
  map _ h _ _ _ m := h.map m
  store _ h _ _ stored := by
    rw [StillFree, stored.pmm]
    exact h
  switch _ h := h

end Confined

end CustomKernel.Memory

namespace CustomKernel.Filesystem

open CustomKernel.Memory CustomKernel.Syscall Loops

section Segments

variable {image : BootImage} {window : Word → Prop} {pml4 cr3 : Word} {tag₀ : Word → Option Label}
  {s₀ : Vmm}

/-- The pages of a segment, mapped to frames that were free. -/
theorem pages_fresh {virt : Nat → Word} {count : Nat} {tag : Word → Option Label} {s : Vmm}
    {out : FreshPages} (h : LoadTree image window pml4 tag s) (hfree : StillFree s₀ s)
    (hok : mapFreshPages pml4 virt userPage count 0 s = .ok out) (hcomplete : out.complete = true) :
    ∀ k < count, FreshPage s₀ pml4 (virt k) out.vmm := by
  have hloop := mapFreshPages_each
    (fun t => (∃ tag', LoadTree image window pml4 tag' t) ∧ StillFree s₀ t)
    (fun k t => FreshPage s₀ pml4 (virt k) t)
    (fun t ht => by
      obtain ⟨⟨tag', ht⟩, -⟩ := ht
      exact ht.zero_notMem)
    count 0 s out
    (fun k _ hk t n t' ht hn hmap => by
      obtain ⟨⟨tag₁, ht⟩, hfree⟩ := ht
      obtain ⟨tag₂, htree, m⟩ := ht.map_fresh hn (by decide) hmap
      have hroot := @extends_update _ _ (slot privateOwner pml4 (virt k) 0)
        (ht.tagged.free_unlabelled hn) _ _ ht.root
      refine ⟨⟨⟨tag₂, htree⟩, hfree.map m⟩, m.freshPage hfree hn rfl, fun j hj => ?_⟩
      by_cases hsame : walkPath (virt j) = walkPath (virt k)
      · exact m.freshPage hfree hn hsame
      · exact hj.widened (m.mapped.widened hroot (.inr hsame)))
    ⟨⟨tag, h⟩, hfree⟩ hok
  exact fun k hk => hloop.2.2 hcomplete k (Nat.zero_le k) (by omega)

/-- A program-header loop that gets through has mapped every page of the segments to a frame that was
    free, and no page of the identity map. -/
theorem segments_fresh {contents : Phdr → List (BitVec 8)} :
    ∀ (phdrs : List Phdr) (tag : Word → Option Label) (s : Vmm) (load : Loading),
      LoadState image window pml4 (fun _ t => StillFree s₀ t) tag₀ cr3 tag s →
      translate s.mem pml4 topPage = none →
      loadSegments pml4 contents phdrs s = .ok load → load.ok = true →
      ∀ phdr ∈ loadables phdrs, ∀ k < phdr.pages,
        Loadable (phdr.page k) ∧ FreshPage s₀ pml4 (phdr.page k) load.vmm
  | [], tag, s, load, h, htop, hok, hdone => fun _ hphdr => nomatch hphdr
  | phdr :: phdrs, tag, s, load, h, htop, hok, hdone => by
      rw [loadSegments] at hok
      split at hok
      case isTrue hload =>
        have hcons : loadables (phdr :: phdrs) = phdr :: loadables phdrs :=
          List.filter_cons_of_pos hload
        obtain ⟨one, hone, hok⟩ := bind_ok hok
        obtain ⟨tag₁, h₁, htop₁⟩ := h.segment StillFree.rule htop hload (fun _ _ => trivial) hone
        split at hok
        case isTrue hc =>
          obtain ⟨rest, hrest, hok⟩ := bind_ok hok
          cases hok
          intro other hother
          rw [hcons] at hother
          rcases List.mem_cons.1 hother with rfl | hother
          · intro k hk
            obtain ⟨out, hmap, hone⟩ := bind_ok hone
            split at hone
            case isFalse hcomplete =>
              cases hone
              cases hc
            case isTrue hcomplete =>
              obtain ⟨s₁, hzero, hone⟩ := bind_ok hone
              obtain ⟨s₂, hfill, hone⟩ := bind_ok hone
              cases hone
              -- the page is fresh once it is mapped, and stays so
              have hfresh := pages_fresh h.tree h.prop hmap hcomplete k hk
              have hself : LoadState image window pml4 (fun _ t => StillFree s₀ t) tag cr3 tag s :=
                ⟨h.tree, h.prop, fun _ _ ht => ht, h.cr3⟩
              obtain ⟨tag₂, hpages, htop₂⟩ := hself.pages StillFree.rule (fun _ _ => trivial) hmap
              obtain ⟨hstate, htop₃, hv⟩ := LoadState.fill FreshPage.rule hload h.tree htop
                (fun _ _ => trivial) hmap hcomplete
                ⟨hpages.tree, ⟨hpages.prop, hfresh⟩, hpages.ext, hpages.cr3⟩ htop₂ hzero hfill
              rw [← h.cr3] at hstate
              obtain ⟨tag₃, hfinal, -⟩ := LoadState.segments FreshPage.rule phdrs tag₂ _ rest hstate
                htop₃ (fun _ _ _ _ _ => trivial) hrest
              have hcanon := storeBytes_canonical _ _ _ _ hzero
              rw [List.length_replicate] at hcanon
              obtain ⟨-, haddr, hcanonical, -⟩ :=
                segment_pages (Phdr.loadable_memsz hload) hcanon hk
              have hstart : other.vstart.toNat = other.pVaddr.toNat / 4096 * 4096 :=
                toNat_entryAddr _
              refine ⟨⟨?_, hcanonical⟩, hfinal.prop.2⟩
              show 2 ^ 30 ≤ (sbrkPage other.vstart k).toNat
              omega
          · exact segments_fresh phdrs tag₁ one.vmm rest h₁ (htop₁ hc) hrest hdone other hother
        case isFalse hc =>
          cases hok
          exact absurd hdone hc
      case isFalse hload =>
        have hcons : loadables (phdr :: phdrs) = loadables phdrs := List.filter_cons_of_neg hload
        rw [hcons]
        exact segments_fresh phdrs tag s load h htop hok hdone

end Segments

/-! ### Segments above the shared entry -/

/-- No page of a loadable segment, rounded outwards, is at PML4 index 0. -/
def AboveKernel (phdrs : List Phdr) : Prop :=
  ∀ phdr ∈ loadables phdrs, ∀ k < phdr.pages, 1 ≤ pml4Index (phdr.page k)

end CustomKernel.Filesystem

namespace CustomKernel

open Memory Filesystem Syscall Loops StepSystem BlockList

section Space

variable {image : BootImage} {tag : Word → Option Label} {s : Vmm} {elf : ElfFile} {r : ElfReturn}

/-- A program above PML4 index 0 is loaded into frames that were taken for it, and is in the way of
    nobody. -/
theorem createElf_confined (h : TreeInv image tag s) (hcr3 : s.cr3 = image.pml4Table)
    (habove : AboveKernel elf.phdrs) (hok : createElfAddressSpace s elf = .ok r) :
    (∀ u, ¬ TakenFrame s r.vmm u → r.vmm.mem u = s.mem u) ∧
      (∀ {other}, tag other = some .root → ∀ v,
        translate r.vmm.mem other v = translate s.mem other v) ∧
      r.vmm.cr3 = s.cr3 := by
  have hroot : tag s.cr3 = some .root := by rw [hcr3, h.tree.kernel]
  have hclean := h.clean
  unfold KernelClean at hclean
  rw [← hcr3] at hclean
  rcases createElfAddressSpace_load (A := fun v => 1 ≤ pml4Index v) (P := LoadConfined s tag)
      h.tree hroot hclean (fun n hn => LoadConfined.rule h.tree.tagged)
      (fun n hn s' c => LoadConfined.created h.tree hn c) (fun k hk => userStackPage_index hk)
      (fun phdr hphdr hload k hk => habove phdr (List.mem_filter.2 ⟨hphdr, hload⟩) k hk) hok with
    ⟨hvmm, -⟩ | ⟨n, hn, s₁, tag', c, load, -⟩
  · rw [hvmm]
    exact ⟨fun _ _ => rfl, fun _ _ => rfl, rfl⟩
  · exact ⟨load.prop.outside, fun hother => load.prop.roots hother, load.cr3⟩

/-- A page at PML4 index 0 of a program that was loaded: the kernel sees it too. -/
theorem createElf_shared (h : TreeInv image tag s) (hcr3 : s.cr3 = image.pml4Table)
    (hok : createElfAddressSpace s elf = .ok r) {proc : Process} (hproc : r.proc = some proc)
    {phdr : Phdr} (hphdr : phdr ∈ loadables elf.phdrs) {k : Nat} (hk : k < phdr.pages)
    (hlow : pml4Index (phdr.page k) = 0) :
    translate r.vmm.mem image.pml4Table (phdr.page k) ≠
      translate s.mem image.pml4Table (phdr.page k) := by
  obtain ⟨tag', htree', -, hnew⟩ := h.createElf hcr3 hok
  obtain ⟨stack, load, hnull, hstack, -, hload, hdone, hvmm, htable, -, -⟩ :=
    createElf_stages hok hproc
  have hfree := (vmmCreateAddressSpace_allocs s).free
  obtain ⟨n, tag₁, hpml4, -, -, htree, htop⟩ := h.newSpace hcr3 hnull
  rw [hpml4] at hstack hload htable
  have hstart : LoadState image (ReservedFrame image) (frameAddr n) (fun _ t => StillFree s t) tag₁
      (vmmCreateAddressSpace s).1.cr3 tag₁ (vmmCreateAddressSpace s).1 :=
    ⟨htree, hfree, fun _ _ ht => ht, rfl⟩
  obtain ⟨tag₂, h₂, htop₂⟩ := hstart.stack StillFree.rule htop (fun _ _ => trivial) hstack
  obtain ⟨hloadable, tr, htr, m, hm, hleaf⟩ :=
    segments_fresh elf.phdrs tag₂ stack.vmm load h₂ htop₂ hload hdone phdr hphdr k hk
  -- the leaf that the kernel sees is the new frame
  have hroot := (hnew proc hproc).1
  rw [htable] at hroot
  have hsame := htree'.tree.translate_shared hroot htree'.tree.kernel hlow
  rw [hvmm, htr] at hsame
  intro heq
  rw [← hvmm, heq] at hsame
  cases hkernel : translate s.mem image.pml4Table (phdr.page k) with
  | none =>
      rw [hkernel] at hsame
      cases hsame
  | some old =>
      rw [hkernel] at hsame
      injection hsame with hsame
      -- but where it led before was in use
      have hused := h.tree.shared_frame h.tree.kernel hloadable hlow hkernel
      rw [← hsame, hleaf] at hused
      exact hused (h.tree.tagged.free_unlabelled hm)

end Space

/-! ### The constructor -/

/-- What a call of `process_create_elf` should leave as it was: every frame but those it has taken, what
    the kernel's own tables and those of the earlier processes translate to, the files, and the blocks
    of the kernel heap that were in use. -/
structure ElfConfined (image : BootImage) (users : List Process) (k k' : Kernel) : Prop where
  frames : ∀ u, ¬ TakenFrame k.vmm k'.vmm u → k'.vmm.mem u = k.vmm.mem u
  kernel : ∀ v, translate k'.vmm.mem image.pml4Table v = translate k.vmm.mem image.pml4Table v
  users : ∀ proc ∈ users, ∀ v,
    translate k'.vmm.mem proc.pageTable v = translate k.vmm.mem proc.pageTable v
  allocs : Allocs k.vmm.pmm k'.vmm.pmm
  cr3 : k'.vmm.cr3 = k.vmm.cr3
  files : FilesKept k.disk k'.disk
  heap : HeapKept k.heap.blocks k.heap k'.heap

/-- A call that does not come to load anything, or loads nothing at PML4 index 0. -/
def Harmless (fuel : Nat) (stale : Stale) (k : Kernel) (path : List Byte) : Prop :=
  NotLoadable stale k path ∨ NoSpace fuel k ∨
    ∀ p size,
      findFile k.disk.image k.disk.length path (k.disk.length / 512 + 1) 0 = some (p, size) →
      AboveKernel (fileProgram stale k.disk.image (openedFile p size)).phdrs

section Constructor

variable {image : BootImage} {fuel : Nat} {stale : Stale} {fns : Trampolines} {k k' : Kernel}
  {path : List Byte} {useLinuxAbi : BitVec 32} {result : Option NewProcess} {users : List Process}

/-- Without a file or without room there is no address space. -/
theorem processCreateElf_idle (hzero : 0 ∉ k.vmm.pmm.freeSet)
    (h : processCreateElf fuel stale fns k path useLinuxAbi = .ok (k', result))
    (hidle : NotLoadable stale k path ∨ NoSpace fuel k) : k'.vmm = k.vmm ∧ result = none := by
  rcases processCreateElf_stages h with ⟨-, hnone, -, hvmm⟩ |
    ⟨hloads, ⟨k₁, -, hnone, -, hvmm⟩ | ⟨k₁, p, d, ehdr, fd, slot, halloc, -, hload, -⟩⟩
  · exact ⟨hvmm, hnone⟩
  · exact ⟨hvmm, hnone⟩
  · obtain ⟨hvmm, -⟩ := processAlloc_frame halloc
    rcases vmmCreateAddressSpace_cases k.vmm hzero with ⟨-, hcreate⟩ | ⟨-, n, hn, -⟩
    · obtain ⟨hnone, k₂, hdestroy, -, hvmm'⟩ := @loadElf_destroys _ { k₁ with disk := d } _ _ _ _ _
        _ _ _ (by rw [hvmm]; exact hcreate) hload
      obtain ⟨heap₁, -, hdestroy⟩ := bind_ok hdestroy
      obtain ⟨heap₂, -, hdestroy⟩ := bind_ok hdestroy
      cases hdestroy
      exact ⟨hvmm'.trans hvmm, hnone⟩
    · rcases hidle with hnot | hspace
      · exact absurd hnot hloads
      · exact absurd hspace (not_noSpace halloc hn)

/-- A call that is harmless is confined. -/
theorem Harmless.confined {tag : Word → Option Label} {live : List Word} {blocks : List Block}
    (harmless : Harmless fuel stale k path) (h : TreeInv image tag k.vmm)
    (hcr3 : k.vmm.cr3 = image.pml4Table) (husers : ∀ proc ∈ users, UserRoot image tag proc.pageTable)
    (inv : KernelHeapInv ⟨k.heap, live⟩ blocks)
    (hok : processCreateElf fuel stale fns k path useLinuxAbi = .ok (k', result)) :
    ElfConfined image users k k' := by
  have hheap := processCreateElf_heapKept inv hok
  rw [← show k.heap.blocks = blocks from inv.blocks_eq] at hheap
  obtain ⟨hfiles, hcases⟩ := processCreateElf_cases hok
  have hsame : k'.vmm = k.vmm → ElfConfined image users k k' := fun hvmm =>
    ⟨fun _ _ => by rw [hvmm], fun _ => by rw [hvmm], fun _ _ _ => by rw [hvmm],
      by rw [hvmm]; exact .refl _, by rw [hvmm], hfiles, hheap⟩
  rcases hcases with ⟨hvmm, -⟩ | ⟨p, size, r, hfind, hspace, hvmm, -⟩
  · exact hsame hvmm
  by_cases hidle : NotLoadable stale k path ∨ NoSpace fuel k
  · exact hsame (processCreateElf_idle h.tree.zero_notMem hok hidle).1
  · have habove : AboveKernel (fileProgram stale k.disk.image (openedFile p size)).phdrs := by
      rcases harmless with hnot | hnospace | habove
      · exact absurd (.inl hnot) hidle
      · exact absurd (.inr hnospace) hidle
      · exact habove p size hfind
    obtain ⟨hframes, hroots, hcr3'⟩ := createElf_confined h hcr3 habove hspace
    rw [← hvmm] at hframes hroots hcr3'
    exact ⟨hframes, hroots h.tree.kernel, fun proc hproc => hroots (husers proc hproc).1,
      by rw [hvmm]; exact createElfAddressSpace_allocs hspace, hcr3', hfiles, hheap⟩

/-- And a call that is confined and returns a process has loaded nothing at PML4 index 0. -/
theorem ElfConfined.above {tag : Word → Option Label} {new : NewProcess} {p : Nat} {size : Word}
    (confined : ElfConfined image users k k') (h : TreeInv image tag k.vmm)
    (hcr3 : k.vmm.cr3 = image.pml4Table)
    (hfound : findFile k.disk.image k.disk.length path (k.disk.length / 512 + 1) 0 = some (p, size))
    (hok : processCreateElf fuel stale fns k path useLinuxAbi = .ok (k', some new)) :
    AboveKernel (fileProgram stale k.disk.image (openedFile p size)).phdrs := by
  obtain ⟨-, ⟨-, hnone⟩ | ⟨p', size', r, hfind, hspace, hvmm, hnew⟩⟩ := processCreateElf_cases hok
  · cases hnone
  rw [hfound] at hfind
  cases hfind
  intro phdr hphdr i hi
  cases hproc : r.proc with
  | none =>
      rw [hproc] at hnew
      cases hnew
  | some proc =>
      by_contra hlow
      refine createElf_shared h hcr3 hspace hproc hphdr hi (by omega) ?_
      rw [← hvmm]
      exact confined.kernel _

end Constructor

/-! ### The main result -/

/-- In every run of the system, whatever bytes a file holds: a call of `process_create_elf` that returns
    writes to nothing but the frames it has taken, and leaves all earlier address spaces as they
    were, if there is nothing to load or no page of a loadable segment is at PML4 index 0. A call that
    returns a process does so only then. -/
theorem loader_confined (image : BootImage) (fns : Trampolines) (ram : PhysMem) (k₀ : Kernel)
    (boot : kernelBoot image ram = .ok k₀.vmm)
    (heap : ∃ mem calls live, Run HeapHistoryStep ⟨heapInit mem, []⟩ calls ⟨k₀.heap, live⟩)
    (calls : List SystemCall) (s : System)
    (run : Run (SystemStep image fns) { kernel := k₀, users := [] } calls s) (fuel : Nat)
    (stale : Stale) (path : List Byte) (useLinuxAbi : BitVec 32) (k' : Kernel)
    (result : Option NewProcess)
    (hok : processCreateElf fuel stale fns (s.constructing image) path useLinuxAbi =
      .ok (k', result)) :
    (Harmless fuel stale (s.constructing image) path →
      ElfConfined image s.users (s.constructing image) k') ∧
    (result.isSome = true →
      (ElfConfined image s.users (s.constructing image) k' ↔
        Harmless fuel stale (s.constructing image) path)) := by
  obtain ⟨tag, inv⟩ := SystemInv.of_run boot run
  obtain ⟨mem, history, live₀, hrun⟩ := heap
  obtain ⟨blocks₀, heap₀⟩ := KernelHeapInv.of_history hrun
  obtain ⟨live, blocks, hheap⟩ := heapInv_of_run heap₀ run
  have htree : TreeInv image tag (s.constructing image).vmm := inv.toTreeInv.switch image.pml4Table
  have hconfined : Harmless fuel stale (s.constructing image) path →
      ElfConfined image s.users (s.constructing image) k' := fun harmless =>
    harmless.confined htree rfl inv.users hheap hok
  refine ⟨hconfined, fun hsome => ⟨fun confined => ?_, hconfined⟩⟩
  obtain ⟨new, rfl⟩ := Option.isSome_iff_exists.1 hsome
  exact .inr (.inr fun p size hfound => confined.above htree rfl hfound hok)

/-- The small program is loaded above PML4 index 0. -/
theorem loader_confined_small : ∃ k k' new,
    kernelBoot bootedImage (fun _ _ => 0#64) = .ok k.vmm ∧
      processCreateElf 4 ⟨fun _ => 0, fun _ _ => 0⟩ ⟨0#64, 0#64⟩
        (System.constructing bootedImage { kernel := k, users := [] }) [97] 0#32 =
        .ok (k', some new) ∧
      ElfConfined bootedImage [] (System.constructing bootedImage { kernel := k, users := [] }) k' := by
  obtain ⟨vmm, k', new, boot, hok⟩ := smallProgram_file.created
    (fun _ => smallProgram_file.fits) smallProgram_short
    smallProgram_frames ⟨fun _ => 0, fun _ _ => 0⟩ ⟨0#64, 0#64⟩
  have stored : StoredFile (System.constructing bootedImage
      { kernel := fileKernel vmm smallProgram smallProgram_short, users := [] }).disk [97] 0
      smallProgram := fileKernel_stored vmm smallProgram smallProgram_short
  have above : AboveKernel (filePhdrs smallProgram) := by
    refine smallProgram_all ?_ ?_
    · decide
    · decide
  refine ⟨_, k', new, boot, hok, (loader_confined bootedImage ⟨0#64, 0#64⟩ (fun _ _ => 0#64)
    (fileKernel vmm smallProgram smallProgram_short) boot ⟨fun _ => 0, [], [], .nil _⟩ [] _ (.nil _) 4
    ⟨fun _ => 0, fun _ _ => 0⟩ [97] 0#32 k' (some new) hok).1 (.inr (.inr fun p size hfound => ?_))⟩
  rw [stored.found] at hfound
  cases hfound
  rw [stored.phdrs _ smallProgram_file.header smallProgram_file.phdrs]
  exact above

/-! ### A segment in the kernel heap -/

/-- A program with one segment, in the last page of the kernel heap. -/
def heapProgram : List Byte :=
  elfHeader 1 ++ loadHeader 120 0xC03FF000 4 4 ++ [1, 2, 3, 4]

theorem heapProgram_length : heapProgram.length = 124 := by
  simp [heapProgram, elfHeader, loadHeader, wordBytes]

theorem heapProgram_short : heapProgram.length < 8 ^ 11 := by
  rw [heapProgram_length]
  decide

theorem heapProgram_phdrs :
    filePhdrs heapProgram = [⟨ptLoad, 120#64, 0xC03FF000#64, 4#64, 4#64⟩] := by decide

theorem heapProgram_loadables : loadables (filePhdrs heapProgram) = filePhdrs heapProgram := by
  rw [heapProgram_phdrs]
  rfl

theorem heapProgram_all {P : Phdr → Prop} (h : P ⟨ptLoad, 120#64, 0xC03FF000#64, 4#64, 4#64⟩) :
    ∀ phdr ∈ loadables (filePhdrs heapProgram), P phdr := by
  intro phdr hphdr
  rw [heapProgram_loadables, heapProgram_phdrs, List.mem_singleton] at hphdr
  exact hphdr ▸ h

theorem heapProgram_file : SoundFile heapProgram := by
  have hlength := heapProgram_length
  refine ⟨by omega, by decide, ?_, heapProgram_all (by decide), heapProgram_all ?_⟩
  all_goals
    rw [hlength]
    decide

theorem heapProgram_fits : ∀ phdr ∈ loadables (filePhdrs heapProgram), phdr.Fits := by
  refine heapProgram_all ⟨⟨by decide, by decide, fun z hz => ?_⟩, by decide⟩
  have hz' : z < 4 := hz
  unfold Canonical
  show (0xC03FF000#64 + BitVec.ofNat 64 z).toNat < 2 ^ 47 ∨ _
  rw [BitVec.toNat_add, BitVec.toNat_ofNat, BitVec.toNat_ofNat]
  omega

/-- Its process has a page of the kernel heap: the kernel's own tables lead to another frame. -/
theorem loader_not_confined :
    ¬ ∀ (image : BootImage) (fns : Trampolines) (ram : PhysMem) (k₀ : Kernel),
      kernelBoot image ram = .ok k₀.vmm →
      (∃ mem calls live, Run HeapHistoryStep ⟨heapInit mem, []⟩ calls ⟨k₀.heap, live⟩) →
      ∀ (calls : List SystemCall) (s : System),
      Run (SystemStep image fns) { kernel := k₀, users := [] } calls s →
      ∀ (fuel : Nat) (stale : Stale) (path : List Byte) (useLinuxAbi : BitVec 32) (k' : Kernel)
        (result : Option NewProcess),
      processCreateElf fuel stale fns (s.constructing image) path useLinuxAbi = .ok (k', result) →
      ElfConfined image s.users (s.constructing image) k' := by
  intro hclaim
  obtain ⟨vmm, k', new, boot, hok⟩ := heapProgram_file.created heapProgram_fits
    heapProgram_short (by rw [heapProgram_phdrs]; decide) ⟨fun _ => 0, fun _ _ => 0⟩ ⟨0#64, 0#64⟩
  have stored : StoredFile (System.constructing bootedImage
      { kernel := fileKernel vmm heapProgram heapProgram_short, users := [] }).disk [97] 0
      heapProgram := fileKernel_stored vmm heapProgram heapProgram_short
  have confined := hclaim bootedImage ⟨0#64, 0#64⟩ (fun _ _ => 0#64)
    (fileKernel vmm heapProgram heapProgram_short) boot ⟨fun _ => 0, [], [], .nil _⟩ [] _ (.nil _) 4
    ⟨fun _ => 0, fun _ _ => 0⟩ [97] 0#32 k' (some new) hok
  obtain ⟨tag, inv⟩ := @SystemInv.of_run bootedImage ⟨0#64, 0#64⟩ _ _
    (fileKernel vmm heapProgram heapProgram_short) [] boot (.nil _)
  have above := confined.above (inv.toTreeInv.switch bootedImage.pml4Table) rfl stored.found hok
  rw [stored.phdrs _ heapProgram_file.header heapProgram_file.phdrs] at above
  have hindex := above ⟨ptLoad, 120#64, 0xC03FF000#64, 4#64, 4#64⟩
    (by rw [heapProgram_loadables, heapProgram_phdrs]; exact List.mem_singleton.2 rfl) 0 (by decide)
  exact absurd hindex (by decide)

end CustomKernel
