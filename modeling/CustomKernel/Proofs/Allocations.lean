/-
Module: CustomKernel.Proofs.Allocations
Layer: Proofs
Purpose: Which frames `pmm_alloc` has handed out. The functions that change an address space use the
  frame allocator through `pmm_alloc` alone, so the allocator they leave is the one that some number
  of calls of `pmm_alloc` leaves, and the frames these calls return are the ones that were free
  before and are in use behind them.
Imports: CustomKernel.Filesystem.Elf, CustomKernel.Proofs.Pmm
Trusted boundary: none (fully proved)
Main exports: pmmAllocs, Allocs, mem_pmmAllocs, mapFreshPages_allocs, createElfAddressSpace_allocs
-/
import CustomKernel.Filesystem.Elf
import CustomKernel.Proofs.Pmm

namespace CustomKernel.Memory

open Loops

/-! ### Calls in a row -/

/-- `count` calls of `pmm_alloc`: the allocator behind them, and the addresses they have returned. -/
def pmmAllocs : (count : Nat) → Pmm → Pmm × List Nat
  | 0, pmm => (pmm, [])
  | count + 1, pmm =>
      let (pmm, address) := pmmAlloc pmm
      let (pmm, rest) := pmmAllocs count pmm
      (pmm, if address = 0 then rest else address :: rest)

/-- From one state of the allocator to another by calls of `pmm_alloc`. -/
def Allocs (before after : Pmm) : Prop := ∃ count, after = (pmmAllocs count before).1

variable {pmm pmm' pmm'' : Pmm}

theorem Allocs.refl (pmm : Pmm) : Allocs pmm pmm := ⟨0, rfl⟩

theorem pmmAllocs_add (m n : Nat) (pmm : Pmm) :
    (pmmAllocs (m + n) pmm).1 = (pmmAllocs n (pmmAllocs m pmm).1).1 := by
  induction m generalizing pmm with
  | zero => rw [Nat.zero_add, pmmAllocs]
  | succ m ih =>
      rw [Nat.succ_add]
      exact ih (pmmAlloc pmm).1

theorem Allocs.trans (h : Allocs pmm pmm') (h' : Allocs pmm' pmm'') : Allocs pmm pmm'' := by
  obtain ⟨m, rfl⟩ := h
  obtain ⟨n, rfl⟩ := h'
  exact ⟨m + n, (pmmAllocs_add m n pmm).symm⟩

theorem Allocs.alloc (pmm : Pmm) : Allocs pmm (pmmAlloc pmm).1 := ⟨1, rfl⟩

/-- Frames only go out. -/
theorem freeSet_pmmAllocs_subset (count : Nat) (pmm : Pmm) :
    (pmmAllocs count pmm).1.freeSet ⊆ pmm.freeSet := by
  induction count generalizing pmm with
  | zero => exact Finset.Subset.refl _
  | succ count ih =>
      refine (ih (pmmAlloc pmm).1).trans ?_
      rcases pmmAlloc_spec pmm with ⟨hnull, -⟩ | ⟨n, -, -, halloc⟩
      · rw [hnull]
      · rw [halloc, freeSet_reserveFrame]
        exact Finset.erase_subset n pmm.freeSet

theorem Allocs.counted (h : Allocs pmm pmm') (hcounted : pmm.Counted) : pmm'.Counted := by
  obtain ⟨count, rfl⟩ := h
  induction count generalizing pmm with
  | zero => exact hcounted
  | succ count ih =>
      rw [show count + 1 = 1 + count by omega, pmmAllocs_add]
      apply ih
      rcases pmmAlloc_spec pmm with ⟨hnull, -⟩ | ⟨n, hn, -, halloc⟩
      · show (pmmAlloc pmm).1.Counted
        rw [hnull]
        exact hcounted
      · show (pmmAlloc pmm).1.Counted
        rw [halloc]
        exact Counted.reserveFrame hcounted hn

theorem Allocs.free (h : Allocs pmm pmm') : pmm'.freeSet ⊆ pmm.freeSet := by
  obtain ⟨count, rfl⟩ := h
  exact freeSet_pmmAllocs_subset count pmm

/-- What the calls return: the frames that were free before and are not free behind them. Frame 0,
    whose address is `NULL`, is not free. -/
theorem mem_pmmAllocs (hzero : 0 ∉ pmm.freeSet) (count n : Nat) :
    n * pageSize ∈ (pmmAllocs count pmm).2 ↔
      n ∈ pmm.freeSet ∧ n ∉ (pmmAllocs count pmm).1.freeSet := by
  induction count generalizing pmm with
  | zero => simp [pmmAllocs]
  | succ count ih =>
      rcases pmmAlloc_spec pmm with ⟨hnull, hempty⟩ | ⟨m, hm, -, halloc⟩
      · have hrest : pmmAllocs (count + 1) pmm = pmmAllocs count pmm := by
          rw [pmmAllocs, hnull]
          rfl
        rw [hrest]
        exact ih hzero
      · have hm0 : m * pageSize ≠ 0 := by
          refine Nat.mul_ne_zero ?_ (by decide)
          rintro rfl
          exact hzero hm
        have hrest : pmmAllocs (count + 1) pmm =
            ((pmmAllocs count (reserveFrame m pmm)).1,
              m * pageSize :: (pmmAllocs count (reserveFrame m pmm)).2) := by
          rw [pmmAllocs, halloc]
          simp only [if_neg hm0]
        have hzero' : 0 ∉ (reserveFrame m pmm).freeSet := by
          rw [freeSet_reserveFrame]
          exact fun h => hzero (Finset.mem_of_mem_erase h)
        rw [hrest, List.mem_cons, ih hzero', freeSet_reserveFrame, Finset.mem_erase]
        by_cases hnm : n = m
        · subst hnm
          have hgone : n ∉ (pmmAllocs count (reserveFrame n pmm)).1.freeSet := fun h => by
            have := freeSet_pmmAllocs_subset count _ h
            rw [freeSet_reserveFrame] at this
            exact Finset.notMem_erase n _ this
          exact ⟨fun _ => ⟨hm, hgone⟩, fun _ => .inl rfl⟩
        · have hne : ¬ n * pageSize = m * pageSize := fun h =>
            hnm (Nat.eq_of_mul_eq_mul_right (by decide : 0 < pageSize) h)
          simp [hne, hnm]

/-- Every address the calls return is that of a frame. -/
theorem exists_of_mem_pmmAllocs {address : Nat} (count : Nat)
    (h : address ∈ (pmmAllocs count pmm).2) : ∃ n ∈ pmm.freeSet, address = n * pageSize := by
  induction count generalizing pmm with
  | zero => cases h
  | succ count ih =>
      rcases pmmAlloc_spec pmm with ⟨hnull, -⟩ | ⟨m, hm, -, halloc⟩
      · rw [pmmAllocs, hnull] at h
        exact ih h
      · rw [pmmAllocs, halloc] at h
        have hrest : address ∈ (pmmAllocs count (reserveFrame m pmm)).2 →
            ∃ n ∈ pmm.freeSet, address = n * pageSize := fun ha => by
          obtain ⟨n, hn, heq⟩ := ih ha
          rw [freeSet_reserveFrame] at hn
          exact ⟨n, Finset.mem_of_mem_erase hn, heq⟩
        dsimp only at h
        split at h
        · exact hrest h
        · rcases List.mem_cons.1 h with rfl | h
          · exact ⟨m, hm, rfl⟩
          · exact hrest h

/-! ### The functions that use the allocator -/

variable {s s' : Vmm}

theorem getOrCreateTable_allocs {table next flags : Word} {i : Nat}
    (h : getOrCreateTable s table i flags = .ok (s', next)) : Allocs s.pmm s'.pmm := by
  unfold getOrCreateTable at h
  dsimp only at h
  split at h
  · split at h
    · cases h
    · cases h
      exact .alloc s.pmm
  · split at h
    · cases h
    · cases h
      exact .refl _

theorem vmmMap_allocs {virt phys flags : Word} (h : vmmMap s virt phys flags = .ok s') :
    Allocs s.pmm s'.pmm := by
  unfold vmmMap at h
  obtain ⟨⟨s₁, pdpt⟩, h₁, h⟩ := bind_ok h
  obtain ⟨⟨s₂, pd⟩, h₂, h⟩ := bind_ok h
  obtain ⟨⟨s₃, pt⟩, h₃, h⟩ := bind_ok h
  have hallocs := ((getOrCreateTable_allocs h₁).trans (getOrCreateTable_allocs h₂)).trans
    (getOrCreateTable_allocs h₃)
  cases h
  exact hallocs

theorem vmmMapIn_allocs {pml4 virt phys flags : Word}
    (h : vmmMapIn s pml4 virt phys flags = .ok s') : Allocs s.pmm s'.pmm := by
  obtain ⟨s₁, hmap, hs'⟩ := bind_ok h
  have hallocs := vmmMap_allocs hmap
  cases hs'
  exact hallocs

theorem mapFreshPages_allocs {pml4 flags : Word} {virt : Nat → Word} :
    ∀ (count i : Nat) (s : Vmm) (out : FreshPages),
      mapFreshPages pml4 virt flags count i s = .ok out → Allocs s.pmm out.vmm.pmm
  | 0, i, s, out, h => by
      cases h
      exact .refl _
  | count + 1, i, s, out, h => by
      unfold mapFreshPages at h
      dsimp only at h
      split at h
      · cases h
        exact .alloc s.pmm
      · obtain ⟨s₁, hmap, h⟩ := bind_ok h
        obtain ⟨rest, hrest, h⟩ := bind_ok h
        have hfirst := (Allocs.alloc s.pmm).trans (vmmMapIn_allocs hmap)
        have hallocs := hfirst.trans (mapFreshPages_allocs count (i + 1) s₁ rest hrest)
        cases h
        exact hallocs

theorem vmmCreateAddressSpace_allocs (s : Vmm) :
    Allocs s.pmm (vmmCreateAddressSpace s).1.pmm := by
  unfold vmmCreateAddressSpace
  dsimp only
  split <;> exact .alloc s.pmm

/-- A store takes no frame. -/
theorem storeByte_pmm {virt : Word} {byte : BitVec 8} (h : storeByte s virt byte = .ok s') :
    s'.pmm = s.pmm ∧ s'.cr3 = s.cr3 := by
  unfold storeByte at h
  split at h
  · cases h
  · split at h
    · cases h
    · cases h
      exact ⟨rfl, rfl⟩

theorem storeBytes_pmm : ∀ (bytes : List (BitVec 8)) (virt : Word) (s s' : Vmm),
    storeBytes virt bytes s = .ok s' → s'.pmm = s.pmm ∧ s'.cr3 = s.cr3
  | [], virt, s, s', h => by
      cases h
      exact ⟨rfl, rfl⟩
  | byte :: bytes, virt, s, s', h => by
      obtain ⟨s₁, hfirst, hrest⟩ := bind_ok h
      obtain ⟨hpmm, hcr3⟩ := storeBytes_pmm bytes (virt + 1#64) s₁ s' hrest
      obtain ⟨hpmm₁, hcr3₁⟩ := storeByte_pmm hfirst
      exact ⟨hpmm.trans hpmm₁, hcr3.trans hcr3₁⟩

theorem kernelBoot_allocs {image : BootImage} {ram : PhysMem}
    (h : kernelBoot image ram = .ok s) : Allocs (pmmInit image.toKernelImage) s.pmm := by
  unfold kernelBoot heapInitMappings at h
  refine forRangeE_invariant (fun _ (t : Vmm) => Allocs (pmmInit image.toKernelImage) t.pmm)
    (Nat.zero_le heapPages) (.refl _) ?_ h
  intro i t t' _ ht hbody
  dsimp only at hbody
  split at hbody
  · cases hbody
  · exact (ht.trans (.alloc t.pmm)).trans (vmmMap_allocs hbody)

end CustomKernel.Memory

namespace CustomKernel.Filesystem

open CustomKernel.Memory CustomKernel.Syscall Loops

theorem loadSegment_allocs {pml4 : Word} {phdr : Phdr} {contents : List (BitVec 8)} {s : Vmm}
    {load : Loading} (h : loadSegment pml4 phdr contents s = .ok load) :
    Allocs s.pmm load.vmm.pmm := by
  obtain ⟨out, hmap, h⟩ := bind_ok h
  have hpages := mapFreshPages_allocs _ _ _ _ hmap
  split at h
  · obtain ⟨s₁, hzero, h⟩ := bind_ok h
    obtain ⟨s₂, hfill, h⟩ := bind_ok h
    cases h
    have hpmm₁ := (storeBytes_pmm _ _ _ _ hzero).1
    have hpmm₂ := (storeBytes_pmm _ _ _ _ hfill).1
    rw [hpmm₁] at hpmm₂
    show Allocs s.pmm s₂.pmm
    rw [hpmm₂]
    exact hpages
  · cases h
    exact hpages

theorem loadSegments_allocs {pml4 : Word} {contents : Phdr → List (BitVec 8)} :
    ∀ (phdrs : List Phdr) (s : Vmm) (load : Loading),
      loadSegments pml4 contents phdrs s = .ok load → Allocs s.pmm load.vmm.pmm
  | [], s, load, h => by
      cases h
      exact .refl _
  | phdr :: phdrs, s, load, h => by
      rw [loadSegments] at h
      split at h
      · obtain ⟨first, hfirst, h⟩ := bind_ok h
        have hfirst := loadSegment_allocs hfirst
        split at h
        · obtain ⟨rest, hrest, h⟩ := bind_ok h
          cases h
          exact hfirst.trans (loadSegments_allocs phdrs first.vmm rest hrest)
        · cases h
          exact hfirst
      · exact loadSegments_allocs phdrs s load h

/-- The frames taken behind `vmm_create_address_space`. -/
theorem createElfAddressSpace_created {elf : ElfFile} {s : Vmm} {r : ElfReturn}
    (h : createElfAddressSpace s elf = .ok r) :
    Allocs (vmmCreateAddressSpace s).1.pmm r.vmm.pmm := by
  unfold createElfAddressSpace at h
  dsimp only at h
  split at h
  · cases h
    exact .refl _
  · obtain ⟨stack, hstack, h⟩ := bind_ok h
    have hstack := mapFreshPages_allocs _ _ _ _ hstack
    split at h
    · obtain ⟨load, hload, h⟩ := bind_ok h
      have hload := hstack.trans (loadSegments_allocs _ _ _ hload)
      split at h <;> cases h <;> exact hload
    · cases h
      exact hstack

theorem createElfAddressSpace_allocs {elf : ElfFile} {s : Vmm} {r : ElfReturn}
    (h : createElfAddressSpace s elf = .ok r) : Allocs s.pmm r.vmm.pmm :=
  (vmmCreateAddressSpace_allocs s).trans (createElfAddressSpace_created h)

end CustomKernel.Filesystem
