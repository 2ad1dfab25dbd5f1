/-
Module: CustomKernel.Proofs.VmmOperations
Layer: Proofs
Purpose: What `vmm_map`, `vmm_get_phys` and `vmm_unmap` do in every state of the page tables that the
  kernel can build from the boot tables. Below the first gigabyte the walk ends at a huge page of the
  identity map, elsewhere at a page table or at an entry that is not present; each operation is read
  off these three cases. `vmm_get_phys` forgets the page offset of a 4KB page, and `vmm_unmap` takes
  a huge page for a page table.
Imports: CustomKernel.Proofs.KernelHalf, CustomKernel.Proofs.PageTree
Trusted boundary: none (fully proved)
Main exports: KernelTree, VmmStep, KernelTree.walk, vmmMap_correct_and_local,
  vmmGetPhys_agrees_iff, vmmUnmap_local_iff
-/
import CustomKernel.Proofs.KernelHalf
import CustomKernel.Proofs.PageTree

namespace CustomKernel.Memory

open StepSystem Loops

/-! ### Histories -/

/-- The bytes of a machine word, the lowest first. -/
def wordBytes (value : Word) : List (BitVec 8) :=
  (List.range 8).map fun k => (value >>> (8 * k)).setWidth 8

/-- `heap_init`: the pages behind the heap and the header of the one block, field by field. -/
def heapInitPages (s : Vmm) : Except Halt Vmm := do
  let s ← heapInitMappings s
  let s ← storeBytes heapStart (wordBytes (BitVec.ofNat 64 (heapPages * pageSize) - 24#64)) s
  let s ← storeBytes (heapStart + 8#64) ((wordBytes 1#64).take 4) s
  storeBytes (heapStart + 16#64) (wordBytes 0#64) s

/-- A call that changes the tables, or `heap_init`. -/
inductive VmmCall where
  | heapInit
  | table (call : TableCall)
deriving DecidableEq, Repr

/-- A call that returns. -/
def VmmStep (image : BootImage) (s : Spaces) : VmmCall → Spaces → Prop
  | .heapInit, s' => ∃ vmm, heapInitPages s.vmm = .ok vmm ∧ s' = { s with vmm := vmm }
  | .table call, s' => TableStep image s call s'

/-! ### The tables of the kernel -/

/-- The first gigabyte, which `vmm_init` maps by huge pages. -/
def InIdentityMap (virt : Word) : Prop := pml4Index virt = 0 ∧ pdptIndex virt = 0

instance (virt : Word) : Decidable (InIdentityMap virt) := inferInstanceAs (Decidable (_ ∧ _))

/-- The identity map is in place under every PML4, and the entries of a page table are present or
    zero. -/
structure KernelTree (image : BootImage) (tag : Word → Option Label) (s : Vmm) : Prop where
  tagged : Tagged commonOwner tag s
  pdpt : tag image.pdptTable = some (.node none [0])
  pd : tag image.pdTable = some (.node none [0, 0])
  roots : ∀ {u}, tag u = some .root → LinksTo (s.mem u 0) image.pdptTable
  link : LinksTo (s.mem image.pdptTable 0) image.pdTable
  identity : ∀ j < 512, hasFlag (s.mem image.pdTable j) ptePresent = true ∧
    hasFlag (s.mem image.pdTable j) pteHuge = true ∧
    entryAddr (s.mem image.pdTable j) = BitVec.ofNat 64 (j * 0x200000)
  absent : ∀ {u l j}, tag u = some l → l.level = 1 → j < 512 →
    hasFlag (s.mem u j) ptePresent = false → s.mem u j = 0#64

section Tree

variable {image : BootImage} {tag tag' : Word → Option Label} {s s' : Vmm} {pml4 virt leaf : Word}

/-- What `vmm_map` installs is present. -/
theorem leaf_present (phys flags : Word) :
    hasFlag (phys ||| flags ||| ptePresent) ptePresent = true := by
  rw [hasFlag_or, show hasFlag ptePresent ptePresent = true from by decide, Bool.or_true]

/-- Mapping a page. -/
theorem KernelTree.mapped (h : KernelTree image tag s)
    (m : Mapped commonOwner pml4 virt leaf tag s tag' s') (hleaf : hasFlag leaf ptePresent = true) :
    KernelTree image tag' s' where
  tagged := m.tagged
  pdpt := m.ext _ _ h.pdpt
  pd := m.ext _ _ h.pd
  roots hu := by
    have hold := m.root_of_root hu
    exact (h.roots hold).mapped m hold (by decide)
  link := h.link.mapped m h.pdpt (by decide)
  identity j hj := by
    obtain ⟨hp, hh, haddr⟩ := h.identity j hj
    obtain ⟨haddr', hp', hh'⟩ := m.kept h.pd (by decide) hp
    exact ⟨hp', hh'.trans hh, haddr'.trans haddr⟩
  absent hu hl hj hp := by
    rcases m.leaves hu hl hj with ⟨hold, hsame⟩ | hzero | ⟨-, -, hnew⟩
    · rw [hsame] at hp ⊢
      exact h.absent hold hl hj hp
    · exact hzero
    · rw [hnew, hleaf] at hp
      cases hp

/-- A new PML4. -/
theorem KernelTree.created {n : Nat} (h : KernelTree image tag s) (hroot : tag s.cr3 = some .root)
    (c : Created tag s commonOwner n s') :
    KernelTree image (Function.update tag (frameAddr n) (some .root)) s' := by
  have hother : ∀ {u l}, tag u = some l → s'.mem u = s.mem u := fun {u l} hu =>
    c.other u (by rintro rfl; rw [c.fresh] at hu; cases hu)
  refine ⟨c.tagged, c.ext _ _ h.pdpt, c.ext _ _ h.pd, fun {u} hu => ?_, ?_, fun j hj => ?_,
    fun {u l j} hu hl hj hp => ?_⟩
  · by_cases hnew : u = frameAddr n
    · obtain ⟨hp, hh, -, -, haddr⟩ := shared_flags (s.mem s.cr3 0)
      rw [hnew, c.entries 0 (by decide)]
      have hlink := h.roots hroot
      exact ⟨hp.trans hlink.present, hh.trans hlink.small, haddr.trans hlink.addr⟩
    · rw [Function.update_of_ne hnew] at hu
      rw [hother hu]
      exact h.roots hu
  · rw [hother h.pdpt]
    exact h.link
  · rw [hother h.pd]
    exact h.identity j hj
  · by_cases hnew : u = frameAddr n
    · rw [hnew, Function.update_self] at hu
      cases hu
      cases hl
    · rw [Function.update_of_ne hnew] at hu
      rw [hother hu] at hp ⊢
      exact h.absent hu hl hj hp

/-- Taking frames and writing to frames that are no tables. -/
theorem KernelTree.of_labelled (h : KernelTree image tag s)
    (hfree : s'.pmm.freeSet ⊆ s.pmm.freeSet) (hsame : ∀ u l, tag u = some l → s'.mem u = s.mem u) :
    KernelTree image tag s' where
  tagged := by
    refine ⟨fun {u l} hu => ?_, fun {u l j} hu hl hj hp hh => ?_, fun {u l j} hu hl hj hp hh => ?_,
      fun n hn => h.tagged.free n (hfree hn)⟩
    · obtain ⟨n, hn, hused, hge, haddr⟩ := h.tagged.frame hu
      exact ⟨n, hn, fun hmem => hused (hfree hmem), hge, haddr⟩
    · rw [hsame u l hu] at hp hh ⊢
      exact h.tagged.child hu hl hj hp hh
    · rw [hsame u l hu] at hp hh
      exact h.tagged.huge hu hl hj hp hh
  pdpt := h.pdpt
  pd := h.pd
  roots {u} hu := by
    rw [hsame u _ hu]
    exact h.roots hu
  link := by
    rw [hsame _ _ h.pdpt]
    exact h.link
  identity j hj := by
    rw [hsame _ _ h.pd]
    exact h.identity j hj
  absent {u l j} hu hl hj hp := by
    rw [hsame u l hu] at hp ⊢
    exact h.absent hu hl hj hp

theorem KernelTree.reserve (h : KernelTree image tag s) (n : Nat) :
    KernelTree image tag { s with pmm := reserveFrame n s.pmm } :=
  h.of_labelled (reserveFrame_subset n s.pmm) fun _ _ _ => rfl

/-- The tables `vmm_init` leaves. -/
theorem KernelTree.init (image : BootImage) (ram : PhysMem) :
    KernelTree image (bootTag commonOwner image) (bootTables image ram).vmm := by
  have tree : PageTree image (fun _ => False) (bootTag privateOwner image)
      { pmm := pmmInit image.toKernelImage, mem := initMem image ram, cr3 := image.pml4Table } :=
    .init
  obtain ⟨hne₁, hne₂, hne₃⟩ := image.tables_ne
  unfold bootTables
  rw [vmmInit_eq]
  -- the boot tables are all at PML4 index 0, where both views of the owners agree
  refine ⟨boot_tagged, by simp [bootTag, hne₁.symm, commonOwner],
    by simp [bootTag, hne₂.symm, hne₃.symm, commonOwner], fun {u} hu => ?_, tree.link, tree.identity,
    fun {u l j} hu hl => ?_⟩
  · rcases bootTag_cases hu with ⟨rfl, -⟩ | ⟨-, h⟩ | ⟨-, h⟩
    · exact tree.roots tree.kernel
    · cases h
    · cases h
  · rcases bootTag_cases hu with ⟨-, rfl⟩ | ⟨-, rfl⟩ | ⟨-, rfl⟩ <;> cases hl

/-! ### The kernel heap -/

/-- The first page of the kernel heap is mapped to a frame that is no table. -/
structure HeaderPage (image : BootImage) (tag : Word → Option Label) (s : Vmm) (frame : Word) :
    Prop where
  tree : KernelTree image tag s
  root : tag s.cr3 = some .root
  data : tag frame = none
  leads : ∀ {v}, walkPath v = walkPath heapStart →
    ∃ tr, translate s.mem s.cr3 v = some tr ∧ entryAddr tr.phys = frame

/-- A byte of the header. -/
theorem HeaderPage.storeByte {frame v : Word} {byte : BitVec 8} (h : HeaderPage image tag s frame)
    (hv : walkPath v = walkPath heapStart) (hok : storeByte s v byte = .ok s') :
    HeaderPage image tag s' frame ∧ s'.cr3 = s.cr3 := by
  obtain ⟨tr, htr, hframe⟩ := h.leads hv
  unfold Memory.storeByte at hok
  split at hok
  · cases hok
  rw [htr] at hok
  cases hok
  have hsame : ∀ u l, tag u = some l → s.mem.storeByte tr.phys byte u = s.mem u := by
    intro u l hu
    funext j
    refine PhysMem.store_other fun hhit => ?_
    rw [hhit.1, hframe, h.data] at hu
    cases hu
  have htree := @KernelTree.of_labelled _ _ _ { s with mem := s.mem.storeByte tr.phys byte } h.tree
    (Finset.Subset.refl _) hsame
  refine ⟨⟨htree, h.root, h.data, fun {w} hw => ?_⟩, rfl⟩
  obtain ⟨tr', htr', hframe'⟩ := h.leads hw
  refine ⟨tr', ?_, hframe'⟩
  rw [translate, h.tree.tagged.pteAddr_eq h.root] at htr' ⊢
  rw [h.tree.tagged.mmuWalk_root (fun u l hu _ => hsame u l hu) h.root, htr']

theorem HeaderPage.storeBytes {frame : Word} : ∀ (bytes : List (BitVec 8)) {v : Word} {s s' : Vmm},
    HeaderPage image tag s frame →
    (∀ z < bytes.length, walkPath (v + BitVec.ofNat 64 z) = walkPath heapStart) →
    storeBytes v bytes s = .ok s' → HeaderPage image tag s' frame ∧ s'.cr3 = s.cr3
  | [], v, s, s', h, hv, hok => by
      cases hok
      exact ⟨h, rfl⟩
  | byte :: bytes, v, s, s', h, hv, hok => by
      obtain ⟨s₁, hfirst, hrest⟩ := bind_ok hok
      have hzero := hv 0 (by simp)
      rw [BitVec.add_zero] at hzero
      obtain ⟨h₁, hcr3⟩ := h.storeByte hzero hfirst
      obtain ⟨h', hcr3'⟩ := HeaderPage.storeBytes bytes h₁ (fun z hz => by
        rw [BitVec.add_assoc, ← BitVec.ofNat_add, Nat.add_comm]
        exact hv (z + 1) (by simpa using hz)) hrest
      exact ⟨h', hcr3'.trans hcr3⟩

/-- A frame that is in use and no table becomes no table by mapping a page. -/
theorem Touched.unlabelled {ownerOf : Word → Nat → Option Word} {n : Nat}
    (t : Touched ownerOf pml4 virt tag s tag' s') (hn : n < totalFrames)
    (hused : n ∉ s.pmm.freeSet) (hnone : tag (frameAddr n) = none) : tag' (frameAddr n) = none := by
  cases hlabel : tag' (frameAddr n) with
  | none => rfl
  | some l =>
      obtain ⟨⟨m, hm, heq⟩, -⟩ := t.fresh hlabel hnone
      rw [frameAddr_inj hn (mem_freeSet.1 hm).1 heq] at hused
      exact absurd hm hused

theorem walkPath_heapPage {i : Nat} (hi : i < heapPages) (hne : i ≠ 0) :
    walkPath heapStart ≠ walkPath (heapPage i) := by
  have hlt : i < 1024 := hi
  have hnat : (heapPage i).toNat = 0xC0000000 + i * 4096 := by
    show (heapStart + BitVec.ofNat 64 (i * 4096)).toNat = _
    rw [heapStart, BitVec.toNat_add, BitVec.toNat_ofNat, BitVec.toNat_ofNat]
    omega
  rw [Ne, walkPath_eq_iff, hnat, show heapStart.toNat = 0xC0000000 from rfl]
  omega

/-- One turn of the loop of `heap_init`. -/
theorem KernelTree.heap_page {n i : Nat} (h : KernelTree image tag s)
    (hroot : tag s.cr3 = some .root) (hn : n ∈ s.pmm.freeSet) (hi : i < heapPages)
    (hheader : 1 ≤ i → ∃ m < totalFrames, m ∉ s.pmm.freeSet ∧ HeaderPage image tag s (frameAddr m))
    (hok : vmmMap { s with pmm := reserveFrame n s.pmm } (heapPage i) (frameAddr n) 0x03#64 =
      .ok s') :
    ∃ tag', Extends tag tag' ∧ KernelTree image tag' s' ∧ s'.cr3 = s.cr3 ∧
      ∃ m < totalFrames, m ∉ s'.pmm.freeSet ∧ HeaderPage image tag' s' (frameAddr m) := by
  have hres := h.reserve n
  have hfree : ∀ {m}, m ∉ s.pmm.freeSet ∨ m = n → m ∉ (reserveFrame n s.pmm).freeSet := by
    intro m hm
    rw [freeSet_reserveFrame, Finset.mem_erase]
    rintro ⟨hne, hmem⟩
    exact hm.elim (· hmem) hne
  obtain ⟨tag', m, t⟩ := vmmMap_touched (s := { s with pmm := reserveFrame n s.pmm }) hres.tagged rfl
    hroot hok
  have htree := hres.mapped m (leaf_present _ _)
  have hroot' : tag' s'.cr3 = some .root := by
    rw [m.cr3]
    exact m.ext _ _ hroot
  refine ⟨tag', m.ext, htree, m.cr3, ?_⟩
  rcases Nat.eq_zero_or_pos i with rfl | hpos
  · -- the page of the header itself
    have hlt := (mem_freeSet.1 hn).1
    have hlt' : n < 65536 := hlt
    have hused := hfree (m := n) (.inr rfl)
    refine ⟨n, hlt, fun hmem => hused (m.free hmem), htree, hroot',
      t.unlabelled hlt hused (h.tagged.free_unlabelled hn), fun {v} hv => ?_⟩
    have hstart : heapPage 0 = heapStart := by decide
    rw [m.cr3]
    refine ⟨_, m.self (hv.trans (congrArg walkPath hstart.symm)), ?_⟩
    have hleaf := @fresh_leaf _ _ 0x03#64 hn (by decide)
    rw [entryAddr_leaf_phys (by rw [hleaf, toNat_frameAddr hlt]; omega), hleaf]
  · obtain ⟨k, hk, hused, hpage⟩ := hheader hpos
    have hused' := hfree (m := k) (.inl hused)
    refine ⟨k, hk, fun hmem => hused' (m.free hmem), htree, hroot',
      t.unlabelled hk hused' hpage.data, fun {v} hv => ?_⟩
    obtain ⟨tr, htr, hframe⟩ := hpage.leads hv
    have hw := m.widened (v := v) hroot (.inr (by
      rw [hv]
      exact walkPath_heapPage hi (by omega)))
    dsimp only at hw
    rw [m.cr3]
    dsimp only
    rw [htr] at hw
    cases htr' : translate s'.mem s.cr3 v with
    | none =>
        rw [htr'] at hw
        exact hw.elim
    | some tr' =>
        rw [htr'] at hw
        exact ⟨tr', rfl, by rw [hw.phys, hframe]⟩

/-- `heap_init` keeps the tables in order. -/
theorem KernelTree.heapInit (h : KernelTree image tag s) (hroot : tag s.cr3 = some .root)
    (hok : heapInitPages s = .ok s') :
    ∃ tag', Extends tag tag' ∧ KernelTree image tag' s' ∧ s'.cr3 = s.cr3 := by
  obtain ⟨s₁, hmaps, hok⟩ := bind_ok hok
  obtain ⟨s₂, hsize, hok⟩ := bind_ok hok
  obtain ⟨s₃, hfree, hnext⟩ := bind_ok hok
  have hloop : s₁.cr3 = s.cr3 ∧ ∃ tag', Extends tag tag' ∧ KernelTree image tag' s₁ ∧
      (1 ≤ heapPages → ∃ m < totalFrames, m ∉ s₁.pmm.freeSet ∧
        HeaderPage image tag' s₁ (frameAddr m)) := by
    refine forRangeE_invariant (fun i (t : Vmm) => t.cr3 = s.cr3 ∧ ∃ tag', Extends tag tag' ∧
        KernelTree image tag' t ∧ (1 ≤ i → ∃ m < totalFrames, m ∉ t.pmm.freeSet ∧
          HeaderPage image tag' t (frameAddr m)))
      (Nat.zero_le _) ⟨rfl, tag, fun _ _ => id, h, fun hpos => absurd hpos (by decide)⟩ ?_ hmaps
    rintro i t t' hi ⟨hcr3, tag', hext, htree, hheader⟩ hbody
    rcases pmmAlloc_spec t.pmm with ⟨hnull, -⟩ | ⟨n, hn, -, halloc⟩
    · simp [hnull] at hbody
    · have hne : n * pageSize ≠ 0 :=
        Nat.mul_ne_zero (by have := htree.tagged.free n hn; omega) (by decide)
      simp only [halloc, hne, if_false] at hbody
      obtain ⟨tag'', hext', htree', hcr3', hheader'⟩ := htree.heap_page
        (by rw [hcr3]; exact hext _ _ hroot) hn hi hheader hbody
      exact ⟨hcr3'.trans hcr3, tag'', hext.trans hext', htree', fun _ => hheader'⟩
  obtain ⟨hcr3₁, tag', hext, -, hheader⟩ := hloop
  obtain ⟨m, -, -, h₁⟩ := hheader (by decide)
  obtain ⟨h₂, hcr3₂⟩ := h₁.storeBytes _ (by decide) hsize
  obtain ⟨h₃, hcr3₃⟩ := h₂.storeBytes _ (by decide) hfree
  obtain ⟨h₄, hcr3₄⟩ := h₃.storeBytes _ (by decide) hnext
  exact ⟨tag', hext, h₄.tree, hcr3₄.trans (hcr3₃.trans (hcr3₂.trans hcr3₁))⟩

end Tree

/-! ### Whole histories -/

/-- Every space is a PML4 of the tables of the kernel, and one of them is loaded. -/
def KernelSpaces (image : BootImage) (s : Spaces) : Prop :=
  ∃ tag, KernelTree image tag s.vmm ∧ s.Space image s.vmm.cr3 ∧
    ∀ pml4, s.Space image pml4 → tag pml4 = some .root

theorem KernelSpaces.step {image : BootImage} {s s' : Spaces} {call : VmmCall}
    (inv : KernelSpaces image s) (step : VmmStep image s call s') : KernelSpaces image s' := by
  obtain ⟨tag, htree, hloaded, hroots⟩ := inv
  cases call with
  | heapInit =>
      obtain ⟨vmm, hok, rfl⟩ := step
      obtain ⟨tag', hext, htree', hcr3⟩ := htree.heapInit (hroots _ hloaded) hok
      refine ⟨tag', htree', ?_, fun p hp => hext _ _ (hroots p hp)⟩
      show s.Space image vmm.cr3
      rw [hcr3]
      exact hloaded
  | table call =>
      obtain ⟨tag', heffect, htables⟩ :=
        TableStep.effect step ⟨htree.tagged, hloaded, hroots⟩
      refine ⟨tag', ?_, htables.loaded, htables.roots⟩
      cases heffect with
      | same htag hmem hfree hcreated =>
          rw [htag]
          exact htree.of_labelled hfree fun u _ _ => congrFun hmem u
      | mapped hcreated m => exact htree.mapped m (leaf_present _ _)
      | created n hcreated htag c =>
          rw [htag]
          exact htree.created (hroots _ hloaded) c

theorem KernelSpaces.of_run {image : BootImage} {ram : PhysMem} {calls : List VmmCall} {s : Spaces}
    (run : Run (VmmStep image) (bootTables image ram) calls s) : KernelSpaces image s := by
  refine run.invariant (KernelSpaces image) (fun _ _ _ inv step => inv.step step) ?_
  refine ⟨_, .init image ram, .inl ?_, fun pml4 hspace => ?_⟩
  · rw [bootTables, vmmInit_eq]
  · rcases hspace with rfl | hmem
    · simp [bootTag]
    · cases hmem

/-! ### Where a walk ends -/

/-- Where the entry that maps a page is stored, and the size of the page as a shift. -/
structure LeafSlot where
  table : Word
  index : Nat
  shift : Nat
deriving DecidableEq, Repr

/-- The entry that the walk of the MMU ends at if it succeeds. -/
def leafSlot (mem : PhysMem) (virt : Word) : (level : Nat) → (table : Word) → Option LeafSlot
  | 0, _ => none
  | level + 1, table =>
      let shift := 12 + 9 * level
      let entry := mem table (tableIndex shift virt)
      if !hasFlag entry ptePresent then none
      else if level = 0 then some ⟨table, tableIndex shift virt, shift⟩
      else if hasFlag entry pteHuge then
        if level = 3 then none else some ⟨table, tableIndex shift virt, shift⟩
      else leafSlot mem virt level (pteAddr entry)

/-- The leaf entry of an address in the loaded address space. -/
def leafEntry (s : Vmm) (virt : Word) : Option Word :=
  (translate s.mem s.cr3 virt).map Translation.leaf

/-- The three ways a walk from CR3 can go, with what the operations of `vmm.c` make of them: to a
    huge page of the identity map, to an entry above the page tables that is not present, or to a
    page table. -/
inductive Walk (image : BootImage) (tag : Word → Option Label) (s : Vmm) (v : Word) : Prop where
  | huge (entry : Word) (hin : InIdentityMap v)
      (hentry : entry = s.mem image.pdTable (pdIndex v))
      (hplace : place s.mem s.cr3 v = some ((leafTranslation v entry 21).phys, entry))
      (hslot : leafSlot s.mem v 4 s.cr3 = some ⟨image.pdTable, pdIndex v, 21⟩)
      (hphys : vmmGetPhys s v = entryAddr entry + (v &&& 0x1FFFFF#64))
      (hunmap : vmmUnmap s v = { s with mem := s.mem.store (entryAddr entry) (ptIndex v) 0#64 })
  | broken (hout : ¬ InIdentityMap v) (hplace : place s.mem s.cr3 v = none)
      (hslot : leafSlot s.mem v 4 s.cr3 = none) (hphys : vmmGetPhys s v = 0#64)
      (hunmap : vmmUnmap s v = s)
  | table (pt : Word) (hout : ¬ InIdentityMap v) (hpt : tag pt = some (slot commonOwner s.cr3 v 1))
      (hplace : place s.mem s.cr3 v =
        if hasFlag (s.mem pt (ptIndex v)) ptePresent then
          some ((leafTranslation v (s.mem pt (ptIndex v)) 12).phys, s.mem pt (ptIndex v))
        else none)
      (hslot : leafSlot s.mem v 4 s.cr3 =
        if hasFlag (s.mem pt (ptIndex v)) ptePresent then some ⟨pt, ptIndex v, 12⟩ else none)
      (hphys : ∀ mem, (∀ u l, tag u = some l → 2 ≤ l.level → mem u = s.mem u) →
        vmmGetPhys { s with mem := mem } v =
          if hasFlag (mem pt (ptIndex v)) ptePresent then entryAddr (mem pt (ptIndex v)) else 0#64)
      (hunmap : vmmUnmap s v = { s with mem := s.mem.store pt (ptIndex v) 0#64 })

section Walks

variable {image : BootImage} {tag : Word → Option Label} {s : Vmm} {v : Word}

/-- The place of an address, found below an entry that leads on. -/
theorem map_place_down {mem : PhysMem} {table next : Word} {level : Nat} (hlevel : level ≠ 0)
    (hp : hasFlag (mem table (tableIndex (12 + 9 * level) v)) ptePresent = true)
    (hh : hasFlag (mem table (tableIndex (12 + 9 * level) v)) pteHuge = false)
    (haddr : pteAddr (mem table (tableIndex (12 + 9 * level) v)) = next) :
    (mmuWalk mem v (level + 1) table).map (fun tr => (tr.phys, tr.leaf)) =
      (mmuWalk mem v level next).map fun tr => (tr.phys, tr.leaf) := by
  rw [mmuWalk_down hlevel hp hh haddr, Option.map_map]
  rfl

theorem leafSlot_down {mem : PhysMem} {table next : Word} {level : Nat} (hlevel : level ≠ 0)
    (hp : hasFlag (mem table (tableIndex (12 + 9 * level) v)) ptePresent = true)
    (hh : hasFlag (mem table (tableIndex (12 + 9 * level) v)) pteHuge = false)
    (haddr : pteAddr (mem table (tableIndex (12 + 9 * level) v)) = next) :
    leafSlot mem v (level + 1) table = leafSlot mem v level next := by
  rw [leafSlot]
  simp [hp, hh, hlevel, haddr]

theorem leafSlot_absent {mem : PhysMem} {table : Word} {level : Nat}
    (hp : hasFlag (mem table (tableIndex (12 + 9 * level) v)) ptePresent = false) :
    leafSlot mem v (level + 1) table = none := by
  rw [leafSlot]
  simp [hp]

theorem LinksTo.leafSlot {mem : PhysMem} {table : Word} (level frame : Nat)
    (h : LinksTo (mem table 0) (frameAddr frame)) (hframe : frame < totalFrames)
    (hindex : tableIndex (12 + 9 * level) v = 0) (hlevel : level ≠ 0) :
    leafSlot mem v (level + 1) table = Memory.leafSlot mem v level (frameAddr frame) := by
  refine leafSlot_down hlevel ?_ ?_ ?_
  · rw [hindex, h.present]
  · rw [hindex, h.small]
  · rw [hindex, pteAddr_of_frame hframe h.addr]

theorem LinksTo.map_place {mem : PhysMem} {table : Word} (level frame : Nat)
    (h : LinksTo (mem table 0) (frameAddr frame)) (hframe : frame < totalFrames)
    (hindex : tableIndex (12 + 9 * level) v = 0) (hlevel : level ≠ 0) :
    (mmuWalk mem v (level + 1) table).map (fun tr => (tr.phys, tr.leaf)) =
      (mmuWalk mem v level (frameAddr frame)).map fun tr => (tr.phys, tr.leaf) := by
  refine map_place_down hlevel ?_ ?_ ?_
  · rw [hindex, h.present]
  · rw [hindex, h.small]
  · rw [hindex, pteAddr_of_frame hframe h.addr]

/-- One level of a walk that does not end at a huge page: the entry is not present, or it leads to a
    table with the extended label, for the code and for the MMU. -/
theorem Tagged.descend {ownerOf : Word → Nat → Option Word} {table : Word} {label : Label} {i : Nat}
    (h : Tagged ownerOf tag s) (ht : tag table = some label) (hl : 2 ≤ label.level) (hi : i < 512)
    (hlabel : ∀ owner, label ≠ .node owner [0, 0]) :
    hasFlag (s.mem table i) ptePresent = false ∨
      (hasFlag (s.mem table i) ptePresent = true ∧ hasFlag (s.mem table i) pteHuge = false ∧
        pteAddr (s.mem table i) = entryAddr (s.mem table i) ∧
        tag (entryAddr (s.mem table i)) = some (label.child ownerOf table i)) := by
  cases hp : hasFlag (s.mem table i) ptePresent with
  | false => exact .inl rfl
  | true =>
      have hh : hasFlag (s.mem table i) pteHuge = false := by
        by_contra hhuge
        rw [Bool.not_eq_false] at hhuge
        obtain ⟨owner, hbad⟩ := h.huge ht hl hi hp hhuge
        exact hlabel owner hbad
      have hchild := h.child ht hl hi hp hh
      obtain ⟨n, hn, -, -, haddr⟩ := h.frame hchild
      exact .inr ⟨rfl, hh, (pteAddr_of_frame hn haddr).trans haddr.symm, hchild⟩

/-- The walk of an address in the identity map. -/
theorem KernelTree.walk_huge (h : KernelTree image tag s) (hroot : tag s.cr3 = some .root)
    (hin : InIdentityMap v) : Walk image tag s v := by
  obtain ⟨hpml4, hpdpt⟩ := hin
  obtain ⟨-, hlt, -⟩ := image.pml4Frame_bounds
  have hlink := h.roots hroot
  obtain ⟨hp, hh, haddr⟩ := h.identity (pdIndex v) (tableIndex_lt _ _)
  have hcr3 := h.tagged.entryAddr_eq hroot
  refine .huge _ ⟨hpml4, hpdpt⟩ rfl ?_ ?_ ?_ ?_
  · have hleaf : mmuWalk s.mem v 2 image.pdTable =
        some (leafTranslation v (s.mem image.pdTable (pdIndex v)) 21) := by
      rw [mmuWalk]
      simp only [show tableIndex (12 + 9 * 1) v = pdIndex v from rfl, hp, hh]
      rfl
    have hdown₃ := hlink.map_place 3 (image.pml4Frame + 1) (by omega) hpml4
      (by decide)
    have hdown₂ := h.link.map_place 2 (image.pml4Frame + 2) (by omega) hpdpt
      (by decide)
    rw [place, translate, h.tagged.pteAddr_eq hroot]
    exact hdown₃.trans (hdown₂.trans (congrArg (Option.map _) hleaf))
  · have hleaf : leafSlot s.mem v 2 image.pdTable = some ⟨image.pdTable, pdIndex v, 21⟩ := by
      rw [leafSlot]
      simp only [show tableIndex (12 + 9 * 1) v = pdIndex v from rfl, hp, hh]
      rfl
    have hdown₃ := hlink.leafSlot 3 (image.pml4Frame + 1) (by omega) hpml4
      (by decide)
    have hdown₂ := h.link.leafSlot 2 (image.pml4Frame + 2) (by omega) hpdpt
      (by decide)
    exact hdown₃.trans (hdown₂.trans hleaf)
  · simp only [vmmGetPhys, hcr3, hpml4, hpdpt, hlink.present, hlink.addr, h.link.present,
      h.link.small, h.link.addr, hp, hh]
    rfl
  · simp only [vmmUnmap, hcr3, hpml4, hpdpt, hlink.present, hlink.addr, h.link.present,
      h.link.addr, hp]
    rfl

/-- The walk of any other address. -/
theorem KernelTree.walk_small (h : KernelTree image tag s) (hroot : tag s.cr3 = some .root)
    (hout : ¬ InIdentityMap v) : Walk image tag s v := by
  have hcr3 := h.tagged.entryAddr_eq hroot
  have hstart : place s.mem s.cr3 v = (mmuWalk s.mem v 4 s.cr3).map fun tr => (tr.phys, tr.leaf) := by
    rw [place, translate, h.tagged.pteAddr_eq hroot]
  -- the PML4
  rcases h.tagged.descend hroot (by decide) (tableIndex_lt 39 v) (by simp) with
    hp₄ | ⟨hp₄, hh₄, hnext₄, hchild₄⟩
  · refine .broken hout ?_ ?_ ?_ ?_
    · rw [hstart, @mmuWalk_absent _ _ _ 3 hp₄]
      rfl
    · exact @leafSlot_absent _ _ _ 3 hp₄
    · simp [vmmGetPhys, hcr3, pml4Index, hp₄]
    · simp [vmmUnmap, hcr3, pml4Index, hp₄]
  -- the PDPT
  rcases h.tagged.descend hchild₄ (by simp [Label.child, Label.level]) (tableIndex_lt 30 v)
      (by simp [Label.child]) with hp₃ | ⟨hp₃, hh₃, hnext₃, hchild₃⟩
  · refine .broken hout ?_ ?_ ?_ ?_
    · rw [hstart, @map_place_down _ _ _ _ 3 (by decide) hp₄ hh₄ hnext₄,
        @mmuWalk_absent _ _ _ 2 hp₃]
      rfl
    · rw [@leafSlot_down _ _ _ _ 3 (by decide) hp₄ hh₄ hnext₄, @leafSlot_absent _ _ _ 2 hp₃]
    · simp [vmmGetPhys, hcr3, pml4Index, pdptIndex, hp₄, hp₃]
    · simp [vmmUnmap, hcr3, pml4Index, pdptIndex, hp₄, hp₃]
  -- the page directory, which is not that of the identity map
  have hlabel : ∀ owner, ((Label.root.child commonOwner s.cr3 (tableIndex 39 v)).child commonOwner
      (entryAddr (s.mem s.cr3 (tableIndex 39 v))) (tableIndex 30 v)) ≠ .node owner [0, 0] := by
    intro owner heq
    simp only [Label.child, Label.node.injEq, List.cons.injEq, and_true] at heq
    exact hout ⟨heq.2.2, heq.2.1⟩
  rcases h.tagged.descend hchild₃ (by simp [Label.child, Label.level]) (tableIndex_lt 21 v) hlabel with
    hp₂ | ⟨hp₂, hh₂, hnext₂, hchild₂⟩
  · refine .broken hout ?_ ?_ ?_ ?_
    · rw [hstart, @map_place_down _ _ _ _ 3 (by decide) hp₄ hh₄ hnext₄,
        @map_place_down _ _ _ _ 2 (by decide) hp₃ hh₃ hnext₃, @mmuWalk_absent _ _ _ 1 hp₂]
      rfl
    · rw [@leafSlot_down _ _ _ _ 3 (by decide) hp₄ hh₄ hnext₄,
        @leafSlot_down _ _ _ _ 2 (by decide) hp₃ hh₃ hnext₃, @leafSlot_absent _ _ _ 1 hp₂]
    · simp [vmmGetPhys, hcr3, pml4Index, pdptIndex, pdIndex, hp₄, hp₃, hh₃, hp₂]
    · simp [vmmUnmap, hcr3, pml4Index, pdptIndex, pdIndex, hp₄, hp₃, hp₂]
  refine .table _ hout hchild₂ ?_ ?_ ?_ ?_
  · rw [hstart, @map_place_down _ _ _ _ 3 (by decide) hp₄ hh₄ hnext₄,
      @map_place_down _ _ _ _ 2 (by decide) hp₃ hh₃ hnext₃,
      @map_place_down _ _ _ _ 1 (by decide) hp₂ hh₂ hnext₂, mmuWalk]
    simp only [show tableIndex (12 + 9 * 0) v = ptIndex v from rfl]
    cases hasFlag (s.mem _ (ptIndex v)) ptePresent <;> rfl
  · rw [@leafSlot_down _ _ _ _ 3 (by decide) hp₄ hh₄ hnext₄,
      @leafSlot_down _ _ _ _ 2 (by decide) hp₃ hh₃ hnext₃,
      @leafSlot_down _ _ _ _ 1 (by decide) hp₂ hh₂ hnext₂, leafSlot]
    simp only [show tableIndex (12 + 9 * 0) v = ptIndex v from rfl]
    cases hasFlag (s.mem _ (ptIndex v)) ptePresent <;> rfl
  · intro mem hmem
    have h₄ := hmem _ _ hroot (by decide)
    have h₃ := hmem _ _ hchild₄ (by simp [Label.child, Label.level])
    have h₂ := hmem _ _ hchild₃ (by simp [Label.child, Label.level])
    simp only [vmmGetPhys, hcr3, pml4Index, pdptIndex, pdIndex, h₄, hp₄, h₃, hp₃, hh₃, h₂, hp₂, hh₂]
    cases hasFlag (mem _ (ptIndex v)) ptePresent <;> rfl
  · simp only [vmmUnmap, hcr3, pml4Index, pdptIndex, pdIndex, hp₄, hp₃, hp₂]
    rfl

theorem KernelTree.walk (h : KernelTree image tag s) (hroot : tag s.cr3 = some .root) (v : Word) :
    Walk image tag s v := by
  by_cases hin : InIdentityMap v
  · exact h.walk_huge hroot hin
  · exact h.walk_small hroot hin

end Walks

/-! ### `vmm_get_phys` -/

/-- `vmm_get_phys` and the physical address the MMU accesses; 0 stands for no translation. -/
def AgreesWithMmu (s : Vmm) (virt : Word) : Prop :=
  match translate s.mem s.cr3 virt with
  | some tr => vmmGetPhys s virt = tr.phys
  | none => vmmGetPhys s virt = 0#64

/-- The physical address that a leaf entry translates an address to. -/
theorem toNat_leafTranslation_phys {shift : Nat} (v leaf : Word) (hge : 12 ≤ shift) (hle : shift ≤ 52)
    (hmask : offsetMask shift = BitVec.ofNat 64 (2 ^ shift - 1)) :
    (leafTranslation v leaf shift).phys.toNat =
      leaf.toNat % 2 ^ 52 / 2 ^ shift * 2 ^ shift + v.toNat % 2 ^ shift := by
  have hpte : pteAddr leaf = (leaf &&& BitVec.ofNat 64 (2 ^ 52 - 1)) &&& ~~~0xFFF#64 := by
    rw [pteAddr, BitVec.and_assoc]
    rfl
  have hframe : (pteAddr leaf &&& ~~~offsetMask shift).toNat =
      leaf.toNat % 2 ^ 52 / 2 ^ shift * 2 ^ shift := by
    rw [hmask, Bits.toNat_and_not_lowMask _ (by omega), hpte,
      show (0xFFF#64 : Word) = BitVec.ofNat 64 (2 ^ 12 - 1) from rfl,
      Bits.toNat_and_not_lowMask _ (by decide), Bits.toNat_and_lowMask _ (by decide)]
    have hpow : 2 ^ shift = 2 ^ 12 * 2 ^ (shift - 12) := by
      rw [← Nat.pow_add]
      congr 1
      omega
    rw [hpow, ← Nat.div_div_eq_div_mul, Nat.mul_div_cancel _ (by decide), Nat.div_div_eq_div_mul]
  show ((pteAddr leaf &&& ~~~offsetMask shift) ||| (v &&& offsetMask shift)).toNat = _
  rw [BitVec.toNat_or, hframe, hmask, Bits.toNat_and_lowMask _ (by omega), Nat.mul_comm,
    ← Nat.two_pow_add_eq_or_of_lt (Nat.mod_lt _ (Nat.two_pow_pos _))]

section Walks

variable {image : BootImage} {tag : Word → Option Label} {s : Vmm} {v : Word}

theorem leafEntry_eq : leafEntry s v = (place s.mem s.cr3 v).map Prod.snd := by
  rw [leafEntry, place, Option.map_map]
  rfl

/-- What `vmm_get_phys` returns is a matter of the leaf entry. -/
theorem KernelTree.getPhys (h : KernelTree image tag s) (hroot : tag s.cr3 = some .root) (v : Word) :
    vmmGetPhys s v = match leafEntry s v with
      | none => 0#64
      | some leaf => if InIdentityMap v then entryAddr leaf + (v &&& 0x1FFFFF#64)
          else entryAddr leaf := by
  rw [leafEntry_eq]
  rcases h.walk hroot v with ⟨entry, hin, -, hplace, -, hphys, -⟩ | ⟨hout, hplace, -, hphys, -⟩ |
    ⟨pt, hout, -, hplace, -, hphys, -⟩
  · rw [hplace, hphys]
    exact (if_pos hin).symm
  · rw [hplace, hphys]
    rfl
  · rw [hplace, hphys s.mem fun _ _ _ _ => rfl]
    simp only [if_neg hout]
    cases hasFlag (s.mem pt (ptIndex v)) ptePresent <;> rfl

/-- `vmm_get_phys` agrees with the MMU exactly in the identity map, where nothing is mapped, and at
    the first byte of a 4KB page whose entry has no bit above the physical address. -/
theorem KernelTree.agrees_iff (h : KernelTree image tag s) (hroot : tag s.cr3 = some .root)
    (v : Word) : AgreesWithMmu s v ↔ InIdentityMap v ∨
      ∀ leaf, leafEntry s v = some leaf → v.toNat % 4096 = 0 ∧ leaf.toNat < 2 ^ 52 := by
  have hplaced : AgreesWithMmu s v ↔ vmmGetPhys s v = ((place s.mem s.cr3 v).map Prod.fst).getD 0#64 := by
    unfold AgreesWithMmu place
    cases translate s.mem s.cr3 v with
    | none => exact Iff.rfl
    | some tr => exact Iff.rfl
  rw [hplaced, leafEntry_eq]
  rcases h.walk hroot v with ⟨entry, hin, hentry, hplace, -, hphys, -⟩ |
    ⟨hout, hplace, -, hphys, -⟩ | ⟨pt, hout, -, hplace, -, hphys, -⟩
  · -- a huge page of the identity map
    refine iff_of_true ?_ (.inl hin)
    have hidx : pdIndex v < 512 := tableIndex_lt _ _
    have haddr := (h.identity (pdIndex v) hidx).2.2
    rw [← hentry] at haddr
    have hnat := congrArg BitVec.toNat haddr
    rw [toNat_entryAddr, BitVec.toNat_ofNat] at hnat
    rw [hplace, hphys, haddr]
    apply BitVec.eq_of_toNat_eq
    show _ = (leafTranslation v entry 21).phys.toNat
    have hoffset : (v &&& 0x1FFFFF#64).toNat = v.toNat % 2 ^ 21 :=
      Bits.toNat_and_lowMask v (n := 21) (by decide)
    rw [toNat_leafTranslation_phys v entry (by decide) (by decide) (by decide), BitVec.toNat_add,
      BitVec.toNat_ofNat, hoffset]
    omega
  · exact iff_of_true (by rw [hplace, hphys]; rfl) (.inr fun leaf hleaf => by
      rw [hplace] at hleaf
      cases hleaf)
  · rw [hplace, hphys s.mem fun _ _ _ _ => rfl]
    split
    · -- a 4KB page: the page offset is missing
      simp only [Option.map_some, Option.getD_some, Option.some.injEq, forall_eq']
      rw [← BitVec.toNat_inj, toNat_leafTranslation_phys v _ (by decide) (by decide) (by decide),
        toNat_entryAddr]
      have hlt := (s.mem pt (ptIndex v)).isLt
      constructor
      · intro heq
        right
        omega
      · intro hcond
        have := hcond.resolve_left hout
        omega
    · exact iff_of_true rfl (.inr fun leaf hleaf => by cases hleaf)

end Walks

/-- In every state the kernel can build, `vmm_get_phys` agrees with the walk of the hardware exactly
    for addresses in the identity map, addresses that are not mapped, and the first byte of a 4KB
    page whose entry has no bit above the physical address. -/
theorem vmmGetPhys_agrees_iff (image : BootImage) (ram : PhysMem) (calls : List VmmCall) (s : Spaces)
    (run : Run (VmmStep image) (bootTables image ram) calls s) (v : Word) :
    AgreesWithMmu s.vmm v ↔ InIdentityMap v ∨
      ∀ leaf, leafEntry s.vmm v = some leaf → v.toNat % 4096 = 0 ∧ leaf.toNat < 2 ^ 52 := by
  obtain ⟨tag, htree, hloaded, hroots⟩ := KernelSpaces.of_run run
  exact htree.agrees_iff (hroots _ hloaded) v

theorem boot_root {image : BootImage} {ram : PhysMem} :
    bootTag commonOwner image (bootTables image ram).vmm.cr3 = some .root := by
  rw [bootTables, vmmInit_eq]
  simp [bootTag]

/-- A history with one `vmm_map` of the first page above PML4 index 0. -/
theorem one_page_mapped : ∃ vmm, Run (VmmStep bootedImage) (bootTables bootedImage fun _ _ => 0#64)
      [.table (.map firstUserPage 0x5000#64 0x03#64)] ⟨vmm, []⟩ ∧
    vmmMap (bootTables bootedImage fun _ _ => 0#64).vmm firstUserPage 0x5000#64 0x03#64 = .ok vmm ∧
    (∀ v, walkPath v = walkPath firstUserPage → leafEntry vmm v = some 0x5003#64) ∧
    3 ≤ vmm.pmm.freeSet.card := by
  have htree := KernelTree.init bootedImage fun _ _ => 0#64
  have hfree : 65024 ≤ (bootTables bootedImage fun _ _ => 0#64).vmm.pmm.freeSet.card := by
    have hcard := bootedImage_free
    rw [bootTables, vmmInit_eq]
    dsimp only
    omega
  obtain ⟨vmm, hok, hleft⟩ := @vmmMap_ok _ _ _ firstUserPage 0x5000#64 0x03#64 htree.tagged
    boot_root (by omega) (by decide)
  obtain ⟨tag', m⟩ := vmmMap_spec htree.tagged rfl boot_root hok
  refine ⟨vmm, .single ⟨vmm, hok, rfl⟩, hok, fun v hv => ?_, by omega⟩
  rw [leafEntry, m.cr3, m.self hv]
  show some (0x5000#64 ||| 0x03#64 ||| ptePresent) = some 0x5003#64
  decide

theorem vmmGetPhys_agrees_iff_one_page :
    ∃ vmm, Run (VmmStep bootedImage) (bootTables bootedImage fun _ _ => 0#64)
        [.table (.map firstUserPage 0x5000#64 0x03#64)] ⟨vmm, []⟩ ∧
      AgreesWithMmu vmm firstUserPage ∧ vmmGetPhys vmm firstUserPage = 0x5000#64 := by
  obtain ⟨vmm, run, -, hleaf, -⟩ := one_page_mapped
  refine ⟨vmm, run, (vmmGetPhys_agrees_iff bootedImage _ _ _ run firstUserPage).2 (.inr ?_), ?_⟩
  · intro leaf heq
    rw [show (Spaces.mk vmm []).vmm = vmm from rfl, hleaf firstUserPage rfl] at heq
    cases heq
    decide
  · obtain ⟨tag, htree, hloaded, hroots⟩ := KernelSpaces.of_run run
    have hphys := htree.getPhys (hroots _ hloaded) firstUserPage
    rw [show (Spaces.mk vmm []).vmm = vmm from rfl, hleaf firstUserPage rfl] at hphys
    rw [hphys]
    decide

/-- The second byte of a mapped page: `vmm_get_phys` returns the address of the first. -/
theorem vmmGetPhys_loses_offset :
    ¬ ∀ (image : BootImage) (ram : PhysMem) (calls : List VmmCall) (s : Spaces),
      Run (VmmStep image) (bootTables image ram) calls s → ∀ v, Canonical v →
        AgreesWithMmu s.vmm v := by
  intro hclaim
  obtain ⟨vmm, run, -, hleaf, -⟩ := one_page_mapped
  obtain ⟨tag, htree, hloaded, hroots⟩ := KernelSpaces.of_run run
  have hagrees := hclaim _ _ _ _ run (firstUserPage + 1#64) (by decide)
  rcases (htree.agrees_iff (hroots _ hloaded) _).1 hagrees with hin | hcond
  · exact absurd hin (by decide)
  · have := (hcond _ (hleaf _ (by decide))).1
    exact absurd this (by decide)

/-! ### `vmm_map` -/

/-- The leaf entry that `vmm_map` builds from an aligned address and flags. -/
theorem leaf_fields {phys flags : Word} (hphys : entryAddr phys = phys) (hflags : flags.toNat < 2 ^ 12) :
    entryAddr (phys ||| flags ||| ptePresent) = phys ∧
      (phys ||| flags ||| ptePresent) &&& 0xFFF#64 = flags ||| ptePresent := by
  have hlow : entryAddr flags = 0#64 := by
    apply BitVec.eq_of_toNat_eq
    rw [toNat_entryAddr, Nat.div_eq_of_lt (show flags.toNat < 4096 from hflags)]
    rfl
  have hphys_low : phys &&& 0xFFF#64 = 0#64 := by
    rw [← hphys, entryAddr, BitVec.and_assoc, show ~~~0xFFF#64 &&& 0xFFF#64 = 0#64 from by decide,
      BitVec.and_zero]
  have hflags_low : flags &&& 0xFFF#64 = flags := by
    apply BitVec.eq_of_toNat_eq
    rw [show (0xFFF#64 : Word) = BitVec.ofNat 64 (2 ^ 12 - 1) from rfl,
      Bits.toNat_and_lowMask _ (by decide), Nat.mod_eq_of_lt hflags]
  refine ⟨by simp [hphys, hlow], ?_⟩
  rw [BitVec.and_or_distrib_right, BitVec.and_or_distrib_right, hphys_low, hflags_low,
    BitVec.zero_or, show ptePresent &&& 0xFFF#64 = ptePresent from by decide]

/-- No page of the identity map can be mapped. -/
theorem KernelTree.map_identity {image : BootImage} {tag : Word → Option Label} {s s' : Vmm}
    {v phys flags : Word} (h : KernelTree image tag s) (hroot : tag s.cr3 = some .root)
    (hin : InIdentityMap v) : vmmMap s v phys flags ≠ .ok s' := by
  obtain ⟨hpresent, hhuge, -⟩ := h.identity (pdIndex v) (tableIndex_lt _ _)
  have hne : ∀ {u l}, tag u = some l → l ≠ .root → s.cr3 ≠ u := by
    rintro u l hu hl rfl
    rw [hroot] at hu
    exact hl (Option.some.inj hu).symm
  exact vmmMap_huge (h.tagged.entryAddr_eq hroot)
    ⟨hne h.pdpt (by simp), hne h.pd (by simp), image.tables_ne.2.2⟩ hin.1 hin.2 (h.roots hroot) h.link
    hpresent hhuge

/-- In every state the kernel can build, a `vmm_map` that returns makes `vmm_get_phys` return the
    mapped frame, installs an entry with exactly the given flags, and changes neither the leaf entry
    nor the result of `vmm_get_phys` for any other page of the loaded address space. -/
theorem vmmMap_correct_and_local (image : BootImage) (ram : PhysMem) (calls : List VmmCall)
    (s : Spaces) (run : Run (VmmStep image) (bootTables image ram) calls s) (v p flags : Word)
    (halign : entryAddr p = p) (_hpos : 0 < p.toNat) (_hlt : p.toNat < 2 ^ 48)
    (hflags : flags.toNat < 2 ^ 12) (vmm : Vmm) (hok : vmmMap s.vmm v p flags = .ok vmm) :
    vmm.cr3 = s.vmm.cr3 ∧ vmmGetPhys vmm v = p ∧
      (∃ leaf, leafEntry vmm v = some leaf ∧ entryAddr leaf = p ∧
        leaf &&& 0xFFF#64 = flags ||| ptePresent) ∧
      ∀ v', v'.toNat / 4096 % 2 ^ 36 ≠ v.toNat / 4096 % 2 ^ 36 →
        vmmGetPhys vmm v' = vmmGetPhys s.vmm v' ∧ leafEntry vmm v' = leafEntry s.vmm v' := by
  obtain ⟨tag, htree, hloaded, hroots⟩ := KernelSpaces.of_run run
  have hroot := hroots _ hloaded
  obtain ⟨tag', m⟩ := vmmMap_spec htree.tagged rfl hroot hok
  have htree' := htree.mapped m (leaf_present p flags)
  have hroot' : tag' vmm.cr3 = some .root := by
    rw [m.cr3]
    exact m.ext _ _ hroot
  obtain ⟨haddr, hlow⟩ := leaf_fields halign hflags
  have hleaf : leafEntry vmm v = some (p ||| flags ||| ptePresent) := by
    rw [leafEntry, m.cr3, m.self rfl]
    rfl
  refine ⟨m.cr3, ?_, ⟨_, hleaf, haddr, hlow⟩, fun v' hne => ?_⟩
  · -- the page is in no huge page, since the mapping came back
    rw [htree'.getPhys hroot' v, hleaf]
    have hout : ¬ InIdentityMap v := fun hin => htree.map_identity hroot hin hok
    simp only [if_neg hout, haddr]
  · have hsame : leafEntry vmm v' = leafEntry s.vmm v' := by
      have hw := m.widened (v := v') hroot (.inr fun hpath => hne ((walkPath_eq_iff v' v).1 hpath))
      rw [leafEntry, leafEntry, m.cr3]
      exact hw.leaf_eq
    rw [htree'.getPhys hroot' v', htree.getPhys hroot v', hsame]
    exact ⟨rfl, rfl⟩

/-- The page after the first one of PML4 index 1, mapped while that one is. -/
theorem vmmMap_correct_and_local_second_page :
    ∃ s vmm, Run (VmmStep bootedImage) (bootTables bootedImage fun _ _ => 0#64)
        [.table (.map firstUserPage 0x5000#64 0x03#64)] s ∧
      vmmMap s.vmm (firstUserPage + 0x1000#64) 0x7000#64 0x05#64 = .ok vmm ∧
      vmmGetPhys vmm (firstUserPage + 0x1000#64) = 0x7000#64 ∧
      leafEntry vmm firstUserPage = some 0x5003#64 := by
  obtain ⟨vmm₀, run, -, hleaf, hfree⟩ := one_page_mapped
  obtain ⟨tag, htree, hloaded, hroots⟩ := KernelSpaces.of_run run
  obtain ⟨vmm, hmap, -⟩ := @vmmMap_ok _ _ _ (firstUserPage + 0x1000#64) 0x7000#64 0x05#64
    htree.tagged (hroots _ hloaded) hfree (by decide)
  obtain ⟨-, hphys, -, hothers⟩ := vmmMap_correct_and_local bootedImage _ _ _ run
    (firstUserPage + 0x1000#64) 0x7000#64 0x05#64 (by decide) (by decide) (by decide) (by decide) vmm
    hmap
  refine ⟨_, vmm, run, hmap, hphys, ?_⟩
  rw [(hothers firstUserPage (by decide)).2]
  exact hleaf _ rfl

/-! ### `vmm_unmap` -/

/-- `vmm_unmap` does what its name says and no more: it writes at most to the entry that translates
    the address, every other page is translated as before, and a 4KB page is unmapped. -/
structure UnmapLocal (s : Vmm) (v : Word) : Prop where
  writes : ∀ table i, (vmmUnmap s v).mem table i ≠ s.mem table i →
    ∃ shift, leafSlot s.mem v 4 (pteAddr s.cr3) = some ⟨table, i, shift⟩
  others : ∀ w, w.toNat / 4096 % 2 ^ 36 ≠ v.toNat / 4096 % 2 ^ 36 →
    translate (vmmUnmap s v).mem s.cr3 w = translate s.mem s.cr3 w
  unmapped : ∀ table i, leafSlot s.mem v 4 (pteAddr s.cr3) = some ⟨table, i, 12⟩ →
    vmmGetPhys (vmmUnmap s v) v = 0#64

/-- The word `vmm_unmap` clears when it is called for an address in the identity map: a word of the
    huge page itself, as if the page were a page table. -/
def mistakenWord (s : Vmm) (v : Word) : Word :=
  s.mem (BitVec.ofNat 64 (pdIndex v * 0x200000)) (ptIndex v)

section Walks

variable {image : BootImage} {tag : Word → Option Label} {s : Vmm} {v : Word}

theorem PhysMem.store_eq_self {mem : PhysMem} {table value : Word} {i : Nat}
    (h : mem table i = value) : mem.store table i value = mem := by
  funext u j
  rw [PhysMem.store_apply]
  split
  · rename_i hhit
    rw [hhit.1, hhit.2, h]
  · rfl

/-- Where nothing is written the property holds if no 4KB page is mapped. -/
theorem UnmapLocal.of_same (hmem : vmmUnmap s v = s)
    (hslot : ∀ table i, leafSlot s.mem v 4 (pteAddr s.cr3) ≠ some ⟨table, i, 12⟩) :
    UnmapLocal s v := by
  refine ⟨fun table i hne => ?_, fun w _ => ?_, fun table i heq => absurd heq (hslot table i)⟩
  · rw [hmem] at hne
    exact absurd rfl hne
  · rw [hmem]

/-- Clearing the entry of a page table. -/
theorem KernelTree.unmap_small (h : KernelTree image tag s) (hroot : tag s.cr3 = some .root)
    (hout : ¬ InIdentityMap v) : UnmapLocal s v := by
  have hpte := h.tagged.pteAddr_eq hroot
  rcases h.walk hroot v with ⟨-, hin, -⟩ | ⟨-, -, hslot, -, hunmap⟩ |
    ⟨pt, -, hpt, -, hslot, hphys, hunmap⟩
  · exact absurd hin hout
  · refine .of_same hunmap fun table i heq => ?_
    rw [hpte, hslot] at heq
    cases heq
  have hlevel : (slot commonOwner s.cr3 v 1).level = 1 := level_slot _ _ (by decide)
  refine ⟨fun table i hne => ?_, fun w hw => ?_, fun table i _ => ?_⟩
  · rw [hunmap] at hne
    have hhit : table = pt ∧ i = ptIndex v := by
      by_contra hmiss
      exact hne (PhysMem.store_other hmiss)
    obtain ⟨rfl, rfl⟩ := hhit
    -- an entry that is not present is zero already
    have hpresent : hasFlag (s.mem table (ptIndex v)) ptePresent = true := by
      by_contra habsent
      rw [Bool.not_eq_true] at habsent
      have hzero := h.absent hpt hlevel (tableIndex_lt _ _) habsent
      exact hne ((PhysMem.store_same ..).trans hzero.symm)
    refine ⟨12, ?_⟩
    rw [hpte, hslot, if_pos hpresent]
  · rw [hunmap, translate, translate, hpte]
    refine mmuWalk_congr 4 s.cr3 fun read hread => ?_
    refine PhysMem.store_other fun hhit => hw ((walkPath_eq_iff w v).1 ?_)
    refine (h.tagged.walkPath_eq_of_visited hroot hpt ?_).2
    rw [← hhit.1, ← hhit.2]
    exact hread
  · rw [hunmap, hphys _ fun u l hu hl => ?_, PhysMem.store_same, hasFlag_zero]
    · rfl
    · funext j
      refine PhysMem.store_other fun hhit => ?_
      rw [hhit.1, hpt] at hu
      cases hu
      omega

/-- Another 4KB page of the same huge page. -/
theorem other_page (hin : InIdentityMap v) : ∃ w : Word,
    w.toNat / 4096 % 2 ^ 36 ≠ v.toNat / 4096 % 2 ^ 36 ∧ InIdentityMap w ∧ pdIndex w = pdIndex v := by
  unfold InIdentityMap at hin ⊢
  simp only [pml4Index, pdptIndex, pdIndex, tableIndex_eq] at hin ⊢
  by_cases heven : v.toNat / 4096 % 2 = 0
  · refine ⟨BitVec.ofNat 64 (v.toNat % 2 ^ 48 + 4096), ?_⟩
    rw [BitVec.toNat_ofNat]
    omega
  · refine ⟨BitVec.ofNat 64 (v.toNat % 2 ^ 48 - 4096), ?_⟩
    rw [BitVec.toNat_ofNat]
    omega

/-- Without its entry a huge page is gone. -/
theorem KernelTree.place_cleared (h : KernelTree image tag s) (hroot : tag s.cr3 = some .root)
    (hin : InIdentityMap v) : place (s.mem.store image.pdTable (pdIndex v) 0#64) s.cr3 v = none := by
  obtain ⟨-, hlt, -⟩ := image.pml4Frame_bounds
  have hkept : ∀ {u l}, tag u = some l → l ≠ .node none [0, 0] →
      s.mem.store image.pdTable (pdIndex v) 0#64 u = s.mem u := by
    intro u l hu hl
    funext j
    refine PhysMem.store_other fun hhit => ?_
    rw [hhit.1, h.pd] at hu
    exact hl (Option.some.inj hu).symm
  have hlink₄ : LinksTo (s.mem.store image.pdTable (pdIndex v) 0#64 s.cr3 0) image.pdptTable := by
    rw [hkept hroot (by simp)]
    exact h.roots hroot
  have hlink₃ : LinksTo (s.mem.store image.pdTable (pdIndex v) 0#64 image.pdptTable 0)
      image.pdTable := by
    rw [hkept h.pdpt (by simp)]
    exact h.link
  have hdown₃ := hlink₄.map_place 3 (image.pml4Frame + 1) (by omega) hin.1
    (by decide)
  have hdown₂ := hlink₃.map_place 2 (image.pml4Frame + 2) (by omega) hin.2
    (by decide)
  have habsent : mmuWalk (s.mem.store image.pdTable (pdIndex v) 0#64) v 2 image.pdTable = none := by
    refine @mmuWalk_absent _ _ _ 1 ?_
    rw [show tableIndex (12 + 9 * 1) v = pdIndex v from rfl, PhysMem.store_same, hasFlag_zero]
  rw [place, translate, h.tagged.pteAddr_eq hroot]
  exact hdown₃.trans (hdown₂.trans (congrArg (Option.map _) habsent))

/-- Clearing a word of a huge page. If the word is the entry of the huge page itself, all its other
    pages are lost. -/
theorem KernelTree.unmap_huge (h : KernelTree image tag s) (hroot : tag s.cr3 = some .root)
    (hin : InIdentityMap v) : UnmapLocal s v ↔ mistakenWord s v = 0#64 := by
  have hpte := h.tagged.pteAddr_eq hroot
  rcases h.walk hroot v with ⟨entry, -, hentry, -, hslot, -, hunmap⟩ | ⟨hout, -⟩ | ⟨-, hout, -⟩
  rotate_left
  · exact absurd hin hout
  · exact absurd hin hout
  rw [hentry, (h.identity (pdIndex v) (tableIndex_lt _ _)).2.2] at hunmap
  constructor
  · intro hlocal
    by_contra hword
    have hchanged : (vmmUnmap s v).mem (BitVec.ofNat 64 (pdIndex v * 0x200000)) (ptIndex v) = 0#64 := by
      rw [hunmap]
      exact PhysMem.store_same ..
    obtain ⟨shift, hwrite⟩ := hlocal.writes _ _ fun heq => hword (heq.symm.trans hchanged)
    rw [hpte, hslot] at hwrite
    simp only [Option.some.injEq, LeafSlot.mk.injEq] at hwrite
    obtain ⟨htable, hindex, -⟩ := hwrite
    rw [← htable, ← hindex] at hunmap
    obtain ⟨w, hpage, hw, hpd⟩ := other_page hin
    have hsame := hlocal.others w hpage
    have hbefore : (translate s.mem s.cr3 w).isSome := by
      rcases h.walk hroot w with ⟨e, -, -, hplace, -⟩ | ⟨hout, -⟩ | ⟨-, hout, -⟩
      · have := congrArg Option.isSome hplace
        rwa [place, Option.isSome_map] at this
      · exact absurd hw hout
      · exact absurd hw hout
    have hafter := h.place_cleared hroot hw
    rw [hpd, show s.mem.store image.pdTable (pdIndex v) 0#64 = (vmmUnmap s v).mem from by rw [hunmap],
      place, hsame] at hafter
    rw [Option.map_eq_none_iff.1 hafter] at hbefore
    cases hbefore
  · intro hword
    refine .of_same ?_ fun table i heq => ?_
    · rw [hunmap, PhysMem.store_eq_self hword]
    · rw [hpte, hslot] at heq
      cases heq

end Walks

/-- In every state the kernel can build, `vmm_unmap` is local exactly for addresses outside the
    identity map and for those where the word it mistakes for an entry is zero already. -/
theorem vmmUnmap_local_iff (image : BootImage) (ram : PhysMem) (calls : List VmmCall) (s : Spaces)
    (run : Run (VmmStep image) (bootTables image ram) calls s) (v : Word) :
    UnmapLocal s.vmm v ↔ ¬ InIdentityMap v ∨ mistakenWord s.vmm v = 0#64 := by
  obtain ⟨tag, htree, hloaded, hroots⟩ := KernelSpaces.of_run run
  by_cases hin : InIdentityMap v
  · rw [htree.unmap_huge (hroots _ hloaded) hin, or_iff_right (not_not.2 hin)]
  · exact iff_of_true (htree.unmap_small (hroots _ hloaded) hin) (.inl hin)

theorem vmmUnmap_local_iff_one_page :
    ∃ vmm, Run (VmmStep bootedImage) (bootTables bootedImage fun _ _ => 0#64)
        [.table (.map firstUserPage 0x5000#64 0x03#64)] ⟨vmm, []⟩ ∧
      leafEntry vmm firstUserPage = some 0x5003#64 ∧ UnmapLocal vmm firstUserPage := by
  obtain ⟨vmm, run, -, hleaf, -⟩ := one_page_mapped
  exact ⟨vmm, run, hleaf _ rfl,
    (vmmUnmap_local_iff bootedImage _ _ _ run firstUserPage).2 (.inl (by decide))⟩

/-- The second page of RAM, right after boot: `vmm_unmap` clears a word of the first page. -/
theorem vmmUnmap_clears_data :
    ¬ ∀ (image : BootImage) (ram : PhysMem) (calls : List VmmCall) (s : Spaces),
      Run (VmmStep image) (bootTables image ram) calls s → ∀ v, UnmapLocal s.vmm v := by
  intro hclaim
  have htree := KernelTree.init bootedImage fun _ _ => 1#64
  have hlocal := hclaim bootedImage (fun _ _ => 1#64) [] _ (.nil _) 0x1000#64
  have hword := (htree.unmap_huge boot_root (by decide)).1 hlocal
  have hone : mistakenWord (bootTables bootedImage fun _ _ => 1#64).vmm 0x1000#64 = 1#64 := by
    rw [bootTables, vmmInit_eq]
    decide
  rw [hone] at hword
  exact absurd hword (by decide)

end CustomKernel.Memory
