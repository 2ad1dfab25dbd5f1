/-
Module: CustomKernel.Proofs.TwinRuns
Layer: Proofs
Purpose: Two machines that differ in what their free frames hold. The kernel takes its decisions from
  the allocator and the page tables, and a frame that becomes a table is zeroed first; so both
  machines do the same stores to the same places. What they do is kept as one list of stores, and a
  byte is then either the same in both or in each what it was at the start.
Imports: CustomKernel.Proofs.SegmentContents, CustomKernel.Proofs.LoaderRuns
Trusted boundary: as in SystemRuns: the kernel heap, the descriptors and the archive are beside
  physical memory
Main exports: Store, PhysMem.stores, Twins, Twins.mapFreshPages, Twins.storeBytes, twins_create,
  twins_processCreateElf
-/
import CustomKernel.Proofs.SegmentContents
import CustomKernel.Proofs.LoaderRuns

namespace CustomKernel.Memory

open Loops

/-! ### Stores -/

/-- A store of the kernel to physical memory: an entry of a table, or a byte. -/
inductive Store where
  | entry (table : Word) (i : Nat) (value : Word)
  | byte (phys : Word) (value : BitVec 8)

def Store.apply : Store → PhysMem → PhysMem
  | .entry table i value, mem => mem.store table i value
  | .byte phys value, mem => mem.storeByte phys value

/-- Memory after some stores, the first one first. -/
def PhysMem.stores (mem : PhysMem) : List Store → PhysMem
  | [] => mem
  | store :: rest => (store.apply mem).stores rest

theorem PhysMem.stores_append (rest : List Store) :
    ∀ (first : List Store) (mem : PhysMem), mem.stores (first ++ rest) = (mem.stores first).stores rest
  | [], _ => rfl
  | _ :: first, _ => PhysMem.stores_append rest first _

/-- Where two memories agree, they agree after the same stores. -/
theorem stores_agree {u : Word} {i : Nat} :
    ∀ (list : List Store) {mem mem' : PhysMem}, mem' u i = mem u i →
      mem'.stores list u i = mem.stores list u i
  | [], _, _, h => h
  | .entry table j value :: rest, mem, mem', h => by
      refine stores_agree rest ?_
      show mem'.store table j value u i = mem.store table j value u i
      rw [PhysMem.store_apply, PhysMem.store_apply, h]
  | .byte phys value :: rest, mem, mem', h => by
      refine stores_agree rest ?_
      show mem'.storeByte phys value u i = mem.storeByte phys value u i
      unfold PhysMem.storeByte
      rw [PhysMem.store_apply, PhysMem.store_apply, h]
      split
      · rename_i hhit
        rw [← hhit.1, ← hhit.2, h]
      · rfl

/-- A byte behind some stores comes from one of them or was there before. -/
theorem stores_loadByte (phys : Word) :
    ∀ list : List Store,
      (∀ mem mem' : PhysMem, (mem'.stores list).loadByte phys = (mem.stores list).loadByte phys) ∨
        ∀ mem : PhysMem, (mem.stores list).loadByte phys = mem.loadByte phys
  | [] => .inr fun _ => rfl
  | store :: rest => by
      rcases stores_loadByte phys rest with hfixed | hkept
      · exact .inl fun mem mem' => hfixed _ _
      · cases store with
        | entry table j value =>
            by_cases hhit : entryAddr phys = table ∧ (phys &&& 0xFFF#64).toNat / 8 = j
            · refine .inl fun mem mem' => (hkept _).trans (Eq.trans ?_ (hkept _).symm)
              unfold Store.apply PhysMem.loadByte
              dsimp only
              rw [PhysMem.store_apply, PhysMem.store_apply, if_pos hhit, if_pos hhit]
            · refine .inr fun mem => (hkept _).trans ?_
              unfold Store.apply PhysMem.loadByte
              dsimp only
              rw [PhysMem.store_apply, if_neg hhit]
        | byte other value =>
            by_cases hhit : phys = other
            · subst hhit
              exact .inl fun mem mem' => (hkept _).trans
                ((loadByte_storeByte mem' phys value).trans
                  ((hkept _).trans (loadByte_storeByte mem phys value)).symm)
            · exact .inr fun mem => (hkept _).trans (loadByte_storeByte_ne mem hhit value)

/-- The stores that fill a frame. -/
@[irreducible] def frameStores (frame : Word) (value : Nat → Word) : List Store :=
  (List.range 512).map fun i => .entry frame i (value i)

theorem stores_frameStores (frame : Word) (value : Nat → Word) (mem : PhysMem) :
    mem.stores (frameStores frame value) =
      fun table j => if table = frame ∧ j < 512 then value j else mem table j := by
  have hloop : ∀ count, mem.stores ((List.range count).map fun i => .entry frame i (value i)) =
      fun table j => if table = frame ∧ j < count then value j else mem table j := by
    intro count
    induction count with
    | zero =>
        funext table j
        simp [PhysMem.stores]
    | succ count ih =>
        rw [List.range_succ, List.map_append, PhysMem.stores_append, ih]
        funext table j
        rw [List.map_singleton]
        simp only [PhysMem.stores, Store.apply, PhysMem.store_apply]
        grind
  unfold frameStores
  exact hloop 512

/-! ### Two machines -/

/-- The same allocator, the same CR3 and the same tables. -/
structure SameTables (tag : Word → Option Label) (s t : Vmm) : Prop where
  pmm : t.pmm = s.pmm
  cr3 : t.cr3 = s.cr3
  tables : ∀ {u l}, tag u = some l → 1 ≤ l.level → ∀ i < 512, t.mem u i = s.mem u i

/-- Both machines have gone on by the same stores, which fill the frames that were taken. -/
structure Replayed (s t s' t' : Vmm) : Prop where
  stores : ∃ list, s'.mem = s.mem.stores list ∧ t'.mem = t.mem.stores list ∧
    ∀ n ∈ s.pmm.freeSet, n ∉ s'.pmm.freeSet → ∀ i < 512, ∀ mem mem' : PhysMem,
      mem'.stores list (frameAddr n) i = mem.stores list (frameAddr n) i
  pmm : t'.pmm = s'.pmm
  cr3 : t'.cr3 = s'.cr3
  free : s'.pmm.freeSet ⊆ s.pmm.freeSet

section Replay

variable {tag tag' : Word → Option Label} {s t s' t' s'' t'' : Vmm} {table next : Word}
  {label : Label} {i : Nat}

theorem Replayed.trans (h : Replayed s t s' t') (h' : Replayed s' t' s'' t'') :
    Replayed s t s'' t'' := by
  obtain ⟨first, hs, ht, htaken⟩ := h.stores
  obtain ⟨rest, hs', ht', htaken'⟩ := h'.stores
  refine ⟨⟨first ++ rest, ?_, ?_, fun n hn hused i hi mem mem' => ?_⟩, h'.pmm, h'.cr3,
    h'.free.trans h.free⟩
  · rw [PhysMem.stores_append, ← hs, hs']
  · rw [PhysMem.stores_append, ← ht, ht']
  · rw [PhysMem.stores_append, PhysMem.stores_append]
    by_cases hmid : n ∈ s'.pmm.freeSet
    · exact htaken' n hmid hused i hi _ _
    · exact stores_agree rest (htaken n hn hmid i hi mem mem')

/-- The tables stay the same if the new ones are among the frames taken. -/
theorem SameTables.replay (h : SameTables tag s t) (r : Replayed s t s' t')
    (hnew : ∀ u l, tag' u = some l → 1 ≤ l.level → (∃ l', tag u = some l' ∧ 1 ≤ l'.level) ∨
      ∃ n ∈ s.pmm.freeSet, n ∉ s'.pmm.freeSet ∧ u = frameAddr n) : SameTables tag' s' t' := by
  obtain ⟨list, hs, ht, htaken⟩ := r.stores
  refine ⟨r.pmm, r.cr3, fun {u l} hu hl i hi => ?_⟩
  rw [hs, ht]
  rcases hnew u l hu hl with ⟨l', hold, hl'⟩ | ⟨n, hn, hused, rfl⟩
  · exact stores_agree list (h.tables hold hl' i hi)
  · exact htaken n hn hused i hi _ _

/-- One level of a descent. -/
theorem SameTables.getOrCreateTable (h : SameTables tag s t) (ht : tag table = some label)
    (hl : 1 ≤ label.level)
    (hok : Memory.getOrCreateTable s table i (pteWritable ||| pteUser) = .ok (s', next))
    (hi : i < 512) :
    ∃ t', Memory.getOrCreateTable t table i (pteWritable ||| pteUser) = .ok (t', next) ∧
      Replayed s t s' t' := by
  have hentry := h.tables ht hl i hi
  unfold Memory.getOrCreateTable at hok ⊢
  dsimp only at hok ⊢
  rw [hentry, h.pmm]
  split at hok
  · rename_i habsent
    rw [if_pos habsent]
    rcases pmmAlloc_spec s.pmm with ⟨hnull, -⟩ | ⟨n, hn, -, halloc⟩
    · rw [hnull] at hok
      cases hok
    · rw [halloc] at hok ⊢
      dsimp only at hok ⊢
      split at hok
      · cases hok
      · rename_i hne
        rw [if_neg hne]
        cases hok
        refine ⟨_, rfl, ⟨frameStores (frameAddr n) (fun _ => 0#64) ++ [.entry table i
          (frameAddr n ||| (pteWritable ||| pteUser) ||| ptePresent)], ?_, ?_, ?_⟩, rfl, h.cr3, ?_⟩
        · rw [PhysMem.stores_append, stores_frameStores, zero_loop]
          rfl
        · rw [PhysMem.stores_append, stores_frameStores, zero_loop]
          rfl
        · intro m hm hused j hj mem mem'
          obtain rfl : m = n := by
            by_contra hother
            exact hused (by simp [hother, hm])
          rw [PhysMem.stores_append, PhysMem.stores_append, stores_frameStores, stores_frameStores]
          refine stores_agree _ ?_
          simp [hj]
        · exact fun m hm => Finset.mem_of_mem_erase (by simpa using hm)
  · rename_i hpresent
    rw [if_neg hpresent]
    split at hok
    · cases hok
    · rename_i hsmall
      rw [if_neg hsmall]
      cases hok
      exact ⟨_, rfl, ⟨[.entry table i _], rfl, rfl, fun n hn hused => absurd hn hused⟩, rfl, h.cr3,
        fun _ hm => hm⟩

theorem SameTables.switch (h : SameTables tag s t) (cr3 : Word) :
    SameTables tag (vmmSwitchAddressSpace s cr3) (vmmSwitchAddressSpace t cr3) :=
  ⟨h.pmm, rfl, h.tables⟩

/-- The tables that a descent has added are frames that it has taken. -/
theorem SameTables.grown {pml4 virt : Word} (h : SameTables tag s t)
    (grow : Grow privateOwner pml4 virt tag s tag' s')
    (touched : Touched privateOwner pml4 virt tag s tag' s') (r : Replayed s t s' t') :
    SameTables tag' s' t' := by
  refine h.replay r fun u l hu hl => ?_
  cases hold : tag u with
  | some l' =>
      have hsame := grow.ext _ _ hold
      rw [hu] at hsame
      cases hsame
      exact .inl ⟨l, rfl, hl⟩
  | none =>
      obtain ⟨⟨n, hn, rfl⟩, -⟩ := touched.fresh hu hold
      obtain ⟨m, hm, hused, -, heq⟩ := grow.tagged.frame hu
      obtain rfl := frameAddr_inj (mem_freeSet.1 hn).1 hm heq
      exact .inr ⟨n, hn, hused, rfl⟩

/-- `vmm_map`. -/
theorem SameTables.vmmMap {pml4 virt phys flags : Word} (h : SameTables tag s t)
    (htagged : Tagged privateOwner tag s) (hcr3 : s.cr3 = pml4) (hroot : tag pml4 = some .root)
    (hok : Memory.vmmMap s virt phys flags = .ok s') :
    ∃ t', Memory.vmmMap t virt phys flags = .ok t' ∧ Replayed s t s' t' := by
  unfold Memory.vmmMap at hok ⊢
  obtain ⟨⟨s₁, pdpt⟩, hok₁, hok⟩ := bind_ok hok
  obtain ⟨⟨s₂, pd⟩, hok₂, hok⟩ := bind_ok hok
  obtain ⟨⟨s₃, pt⟩, hok₃, hok⟩ := bind_ok hok
  cases hok
  have haddr : entryAddr s.cr3 = pml4 := by rw [hcr3, htagged.entryAddr_eq hroot]
  dsimp only at hok₁ hok₂ hok₃ ⊢
  rw [h.cr3, haddr]
  rw [haddr] at hok₁
  -- the three levels
  obtain ⟨tag₁, grow₁, touched₁, hpdpt⟩ := htagged.grow pml4 virt hroot (by decide) .root hok₁
  obtain ⟨t₁, ht₁, r₁⟩ := h.getOrCreateTable hroot (by decide) hok₁ (tableIndex_lt _ _)
  have h₁ := h.grown grow₁ touched₁ r₁
  replace hpdpt : tag₁ pdpt = some (slot privateOwner pml4 virt 3) := hpdpt
  have hlevel₃ : (slot privateOwner pml4 virt 3).level = 3 := level_slot _ _ (by decide)
  obtain ⟨tag₂, grow₂, touched₂, hpd⟩ := grow₁.tagged.grow pml4 virt hpdpt (by omega)
    (.slot pdpt 2 (by decide)) hok₂
  obtain ⟨t₂, ht₂, r₂⟩ := h₁.getOrCreateTable hpdpt (by omega) hok₂ (tableIndex_lt _ _)
  have h₂ := h₁.grown grow₂ touched₂ r₂
  replace hpd : tag₂ pd = some (slot privateOwner pml4 virt 2) :=
    hpd.trans (congrArg some (child_slot _ _ _ (by decide)))
  have hlevel₂ : (slot privateOwner pml4 virt 2).level = 2 := level_slot _ _ (by decide)
  obtain ⟨t₃, ht₃, r₃⟩ := h₂.getOrCreateTable hpd (by omega) hok₃ (tableIndex_lt _ _)
  -- and the entry of the page
  have hlast : Replayed s₃ t₃
      { s₃ with mem := s₃.mem.store pt (ptIndex virt) (phys ||| flags ||| ptePresent) }
      { t₃ with mem := t₃.mem.store pt (ptIndex virt) (phys ||| flags ||| ptePresent) } :=
    ⟨⟨[.entry pt (ptIndex virt) (phys ||| flags ||| ptePresent)], rfl, rfl,
      fun n hn hused => absurd hn hused⟩, r₃.pmm, r₃.cr3, fun _ hm => hm⟩
  refine ⟨{ t₃ with mem := t₃.mem.store pt (ptIndex virt) (phys ||| flags ||| ptePresent) }, ?_,
    r₁.trans (r₂.trans (r₃.trans hlast))⟩
  rw [ht₁]
  show (Memory.getOrCreateTable t₁ pdpt (pdptIndex virt) (pteWritable ||| pteUser) >>= _) = _
  rw [ht₂]
  show (Memory.getOrCreateTable t₂ pd (pdIndex virt) (pteWritable ||| pteUser) >>= _) = _
  rw [ht₃]
  rfl

/-- `vmm_map_in`. -/
theorem SameTables.vmmMapIn {pml4 virt phys flags : Word} (h : SameTables tag s t)
    (htagged : Tagged privateOwner tag s) (hroot : tag pml4 = some .root)
    (hok : Memory.vmmMapIn s pml4 virt phys flags = .ok s') :
    ∃ t', Memory.vmmMapIn t pml4 virt phys flags = .ok t' ∧ Replayed s t s' t' := by
  obtain ⟨s₁, hmap, hs'⟩ := bind_ok hok
  cases hs'
  obtain ⟨t₁, ht₁, r⟩ := (h.switch pml4).vmmMap (htagged.switch pml4) rfl hroot hmap
  refine ⟨vmmSwitchAddressSpace t₁ t.cr3, ?_, ⟨r.stores, r.pmm, h.cr3, r.free⟩⟩
  show (Memory.vmmMap (vmmSwitchAddressSpace t pml4) virt phys flags >>= _) = _
  rw [ht₁]
  rfl

end Replay

/-! ### Twins -/

/-- Two machines that started from the memories `mem` and `mem'`: the first one has well-formed tables
    for the address space of `pml4`, the second one has the same, and both have done the same
    stores. -/
structure Twins (image : BootImage) (window : Word → Prop) (pml4 : Word) (mem mem' : PhysMem)
    (tag : Word → Option Label) (s t : Vmm) : Prop where
  tree : LoadTree image window pml4 tag s
  same : SameTables tag s t
  stores : ∃ list, s.mem = mem.stores list ∧ t.mem = mem'.stores list

section Twin

variable {image : BootImage} {window : Word → Prop} {pml4 : Word} {mem mem' : PhysMem}
  {tag : Word → Option Label} {s t s' : Vmm}

/-- Memories after the stores there were and some more. -/
theorem Twins.stores_more (h : Twins image window pml4 mem mem' tag s t) {m m' : PhysMem}
    (hmore : ∃ list, m = s.mem.stores list ∧ m' = t.mem.stores list) :
    ∃ list, m = mem.stores list ∧ m' = mem'.stores list := by
  obtain ⟨first, hs, ht⟩ := h.stores
  obtain ⟨rest, rfl, rfl⟩ := hmore
  exact ⟨first ++ rest, by rw [PhysMem.stores_append, ← hs], by rw [PhysMem.stores_append, ← ht]⟩

theorem Twins.switch (h : Twins image window pml4 mem mem' tag s t) (cr3 : Word) :
    Twins image window pml4 mem mem' tag (vmmSwitchAddressSpace s cr3)
      (vmmSwitchAddressSpace t cr3) :=
  ⟨⟨h.tree.toPageTree.switch cr3, h.tree.root, h.tree.leaves⟩, h.same.switch cr3, h.stores⟩

/-- Both machines translate every address alike. -/
theorem SameTables.translate {v : Word} (h : SameTables tag s t) (htagged : Tagged privateOwner tag s)
    (hroot : tag pml4 = some .root) :
    Memory.translate t.mem pml4 v = Memory.translate s.mem pml4 v := by
  unfold Memory.translate
  rw [htagged.pteAddr_eq hroot]
  apply mmuWalk_congr
  intro read hread
  rcases htagged.visited_root hroot read hread with rfl | ⟨k, hk, hlabel, hindex⟩
  · exact h.tables hroot (by decide) _ (tableIndex_lt _ _)
  · rw [hindex]
    exact h.tables hlabel (by rw [level_slot _ _ (by omega)]; omega) _ (tableIndex_lt _ _)

/-- A page mapped to a fresh frame, which is the same in both. -/
theorem Twins.map_fresh {virt flags : Word} {n : Nat}
    (h : Twins image window pml4 mem mem' tag s t) (hn : n ∈ s.pmm.freeSet)
    (hflags : entryAddr flags = 0#64)
    (hok : vmmMapIn { s with pmm := reserveFrame n s.pmm } pml4 virt (frameAddr n) flags = .ok s') :
    ∃ t' tag', vmmMapIn { t with pmm := reserveFrame n t.pmm } pml4 virt (frameAddr n) flags = .ok t' ∧
      Twins image window pml4 mem mem' tag' s' t' ∧ Extends tag tag' := by
  obtain ⟨tag', htree, m⟩ := h.tree.map_fresh hn hflags hok
  have hlevel : (slot privateOwner pml4 virt 0).level = 0 := level_slot _ _ (by decide)
  have hnone := h.tree.tagged.free_unlabelled hn
  have hext := @extends_update _ _ (slot privateOwner pml4 virt 0) hnone
  have htagged := @Tagged.label_page _ _ _ (slot privateOwner pml4 virt 0) h.tree.tagged n hn
    (by omega)
  have hsame : SameTables (Function.update tag (frameAddr n) (some (slot privateOwner pml4 virt 0)))
      { s with pmm := reserveFrame n s.pmm } { t with pmm := reserveFrame n t.pmm } := by
    refine ⟨by rw [h.same.pmm], h.same.cr3, fun {u l} hu hl => ?_⟩
    by_cases hnew : u = frameAddr n
    · rw [hnew, Function.update_self] at hu
      cases hu
      omega
    · rw [Function.update_of_ne hnew] at hu
      exact h.same.tables hu hl
  obtain ⟨t', ht', r⟩ := hsame.vmmMapIn htagged (hext _ _ h.tree.root) hok
  obtain ⟨list, hs, ht, -⟩ := r.stores
  refine ⟨t', tag', ht', ⟨htree, ?_, h.stores_more ⟨list, hs, ht⟩⟩, hext.trans m.mapped.ext⟩
  refine hsame.replay r fun u l hu hl => ?_
  cases hold : Function.update tag (frameAddr n) (some (slot privateOwner pml4 virt 0)) u with
  | some l' =>
      have hkept := m.mapped.ext _ _ hold
      rw [hu] at hkept
      cases hkept
      exact .inl ⟨l, rfl, hl⟩
  | none =>
      obtain ⟨⟨k, hk, rfl⟩, -⟩ := m.touched.fresh hu hold
      obtain ⟨k', hk', hused, -, heq⟩ := htree.tagged.frame hu
      obtain rfl := frameAddr_inj (mem_freeSet.1 hk).1 hk' heq
      exact .inr ⟨k, hk, hused, rfl⟩

/-- The loop over fresh pages. -/
theorem Twins.mapFreshPages {flags : Word} {virt : Nat → Word} {count i : Nat} {out : FreshPages}
    (h : Twins image window pml4 mem mem' tag s t) (hflags : entryAddr flags = 0#64)
    (hok : Memory.mapFreshPages pml4 virt flags count i s = .ok out) :
    ∃ vmm tag', Memory.mapFreshPages pml4 virt flags count i t = .ok { out with vmm := vmm } ∧
      Twins image window pml4 mem mem' tag' out.vmm vmm ∧ Extends tag tag' := by
  induction count generalizing i tag s t out with
  | zero =>
      cases hok
      exact ⟨t, tag, rfl, h, fun _ _ hu => hu⟩
  | succ count ih =>
      unfold Memory.mapFreshPages at hok ⊢
      rw [h.same.pmm]
      rcases pmmAlloc_spec s.pmm with ⟨hnull, -⟩ | ⟨n, hn, -, halloc⟩
      · simp only [hnull, if_true] at hok ⊢
        cases hok
        refine ⟨{ t with pmm := s.pmm }, tag, rfl, ⟨h.tree, ⟨rfl, h.same.cr3, h.same.tables⟩,
          h.stores⟩, fun _ _ hu => hu⟩
      · have hne : n * pageSize ≠ 0 :=
          Nat.mul_ne_zero (fun hzero => h.tree.zero_notMem (hzero ▸ hn)) (by decide)
        simp only [halloc, hne, if_false, frameAddr_eq_pointer] at hok ⊢
        obtain ⟨s₁, hmap, hok⟩ := bind_ok hok
        obtain ⟨rest, hrest, hout⟩ := bind_ok hok
        cases hout
        obtain ⟨t₁, tag₁, ht₁, h₁, hext₁⟩ := h.map_fresh hn hflags hmap
        obtain ⟨vmm, tag₂, hvmm, h₂, hext₂⟩ := ih h₁ hrest
        refine ⟨vmm, tag₂, ?_, h₂, hext₁.trans hext₂⟩
        rw [h.same.pmm] at ht₁
        rw [ht₁]
        show (Memory.mapFreshPages pml4 virt flags count (i + 1) t₁ >>= _) = _
        rw [hvmm]
        rfl

/-- A byte stored by the loader. -/
theorem Twins.storeByte {v : Word} {byte : BitVec 8}
    (h : Twins image window pml4 mem mem' tag s t) (hcr3 : s.cr3 = pml4)
    (htop : Memory.translate s.mem pml4 topPage = none) (hv : 2 ^ 30 ≤ v.toNat)
    (hok : Memory.storeByte s v byte = .ok s') :
    ∃ t', Memory.storeByte t v byte = .ok t' ∧ Twins image window pml4 mem mem' tag s' t' := by
  have stored := h.tree.storeByte hcr3 htop hv hok
  have htranslate : Memory.translate t.mem t.cr3 v = Memory.translate s.mem s.cr3 v := by
    rw [h.same.cr3, hcr3]
    exact h.same.translate h.tree.tagged h.tree.root
  unfold Memory.storeByte at hok ⊢
  rw [htranslate]
  split at hok
  · cases hok
  · rename_i hcanon
    rw [if_neg hcanon]
    cases htr : Memory.translate s.mem s.cr3 v with
    | none =>
        rw [htr] at hok
        cases hok
    | some tr =>
        rw [htr] at hok
        cases hok
        refine ⟨_, rfl, stored.tree, ⟨h.same.pmm, h.same.cr3, fun {u l} hu hl i hi => ?_⟩,
          h.stores_more ⟨[.byte tr.phys byte], rfl, rfl⟩⟩
        exact stores_agree [.byte tr.phys byte] (h.same.tables hu hl i hi)

/-- A run of bytes. -/
theorem Twins.storeBytes : ∀ (bytes : List (BitVec 8)) (v : Word) (s t s' : Vmm),
    Twins image window pml4 mem mem' tag s t → s.cr3 = pml4 →
    Memory.translate s.mem pml4 topPage = none → 2 ^ 30 ≤ v.toNat →
    Memory.storeBytes v bytes s = .ok s' →
    ∃ t', Memory.storeBytes v bytes t = .ok t' ∧ Twins image window pml4 mem mem' tag s' t'
  | [], v, s, t, s', h, hcr3, htop, hv, hok => by
      cases hok
      exact ⟨t, rfl, h⟩
  | byte :: bytes, v, s, t, s', h, hcr3, htop, hv, hok => by
      obtain ⟨s₁, hfirst, hrest⟩ := bind_ok hok
      have first := h.tree.storeByte hcr3 htop hv hfirst
      have hbelow := first.below (by decide)
      have hnext : (v + 1#64).toNat = v.toNat + 1 := by
        rw [BitVec.toNat_add, BitVec.toNat_ofNat]
        omega
      obtain ⟨t₁, ht₁, h₁⟩ := h.storeByte hcr3 htop hv hfirst
      obtain ⟨t', ht', h'⟩ := Twins.storeBytes bytes (v + 1#64) s₁ t₁ s' h₁ (first.cr3.trans hcr3)
        (by rw [first.translate _ _ h.tree.root, htop]) (by omega) hrest
      refine ⟨t', ?_, h'⟩
      show (Memory.storeByte t v byte >>= _) = _
      rw [ht₁]
      exact ht'

end Twin

end CustomKernel.Memory

namespace CustomKernel.Filesystem

open CustomKernel.Memory CustomKernel.Syscall Loops

/-! ### The constructor -/

section Constructor

variable {image : BootImage} {window : Word → Prop} {pml4 : Word} {mem mem' : PhysMem}
  {tag : Word → Option Label} {s t s' : Vmm}

/-- `vmm_create_address_space` as stores. -/
theorem vmmCreateAddressSpace_stores {n : Nat}
    (halloc : pmmAlloc s.pmm = (reserveFrame n s.pmm, n * pageSize)) (hne : n * pageSize ≠ 0) :
    vmmCreateAddressSpace s =
      ({ s with
         pmm := reserveFrame n s.pmm
         mem := s.mem.stores
           (frameStores (frameAddr n) fun j => shared (s.mem (entryAddr s.cr3) j)) },
        frameAddr n) := by
  unfold vmmCreateAddressSpace
  rw [halloc]
  dsimp only
  rw [if_neg hne, copy_loop, stores_frameStores]
  rfl

/-- When a frame is free, both machines start as twins. -/
theorem twins_create (h : SameTables tag s t) (htree : PageTree image window tag s)
    (hroot : tag s.cr3 = some .root)
    (hclean : ∀ i, 1 ≤ i → i < 512 → hasFlag (s.mem s.cr3 i) ptePresent = false)
    (hcreated : vmmCreateAddressSpace s = (s', pml4)) (hne : pml4 ≠ 0#64) :
    ∃ t' tag', vmmCreateAddressSpace t = (t', pml4) ∧
      Twins image window pml4 s.mem t.mem tag' s' t' ∧ s'.cr3 = s.cr3 ∧
      translate s'.mem pml4 topPage = none := by
  rcases vmmCreateAddressSpace_spec htree.tagged hroot (privateOwner_shared hclean) with
    ⟨-, hnull⟩ | ⟨n, hn, -, s₁, hcreate, c⟩
  · rw [hcreated] at hnull
    exact absurd (congrArg Prod.snd hnull) hne
  rw [hcreated] at hcreate
  obtain ⟨rfl, rfl⟩ := Prod.mk.inj hcreate
  obtain ⟨hload, htop⟩ := LoadTree.created htree hroot hclean hn c
  rcases pmmAlloc_spec s.pmm with ⟨-, hempty⟩ | ⟨m, hm, -, halloc⟩
  · rw [hempty] at hn
    cases hn
  have hpos : m * pageSize ≠ 0 :=
    Nat.mul_ne_zero (fun hzero => htree.zero_notMem (hzero ▸ hm)) (by decide)
  have hs := vmmCreateAddressSpace_stores halloc hpos
  have ht := @vmmCreateAddressSpace_stores t m (by rw [h.pmm]; exact halloc) hpos
  rw [hcreated] at hs
  obtain ⟨hs', hsame⟩ := Prod.mk.inj hs
  rw [← hsame, h.cr3, htree.tagged.entryAddr_eq hroot, h.pmm] at ht
  rw [← hsame, htree.tagged.entryAddr_eq hroot] at hs'
  -- the entries copied are the same
  have hlist : frameStores (frameAddr n) (fun j => shared (t.mem s.cr3 j)) =
      frameStores (frameAddr n) fun j => shared (s.mem s.cr3 j) := by
    unfold frameStores
    refine List.map_congr_left fun j hj => ?_
    dsimp only
    rw [h.tables hroot (by decide) j (List.mem_range.1 hj)]
  rw [hlist] at ht
  have hstores : ∃ list, s'.mem = s.mem.stores list ∧
      t.mem.stores (frameStores (frameAddr n) fun j => shared (s.mem s.cr3 j)) =
        t.mem.stores list :=
    ⟨frameStores (frameAddr n) fun j => shared (s.mem s.cr3 j), congrArg Vmm.mem hs', rfl⟩
  refine ⟨_, _, ht, ⟨hload, ⟨by rw [hs'], ?_, fun {u l} hu hl i hi => ?_⟩, hstores⟩, c.cr3, htop⟩
  · rw [hs']
  · rw [hs']
    by_cases hnew : u = frameAddr n
    · dsimp only
      rw [stores_frameStores, stores_frameStores]
      dsimp only
      rw [if_pos ⟨hnew, hi⟩, if_pos ⟨hnew, hi⟩]
    · rw [Function.update_of_ne hnew] at hu
      exact stores_agree _ (h.tables hu hl i hi)

/-- What the first machine has behind the pages of a segment: nothing at the top of the address
    space, and a segment beyond the identity map. -/
theorem segment_stores {phdr : Phdr} {out : FreshPages} {s₁ s₂ : Vmm} {contents : List (BitVec 8)}
    (h : LoadTree image window pml4 tag s) (htop : translate s.mem pml4 topPage = none)
    (hload : phdr.loadable = true)
    (hmap : mapFreshPages pml4 (sbrkPage phdr.vstart) userPage
      (brkPages phdr.vstart phdr.vend) 0 s = .ok out) (hcomplete : out.complete = true)
    (hzero : storeBytes phdr.pVaddr (List.replicate phdr.pMemsz.toNat 0#8)
      (vmmSwitchAddressSpace out.vmm pml4) = .ok s₁)
    (hfill : storeBytes phdr.pVaddr contents s₁ = .ok s₂) :
    2 ^ 30 ≤ phdr.pVaddr.toNat ∧ s₁.cr3 = pml4 ∧ translate out.vmm.mem pml4 topPage = none ∧
      translate s₁.mem pml4 topPage = none ∧ translate s₂.mem pml4 topPage = none := by
  have hmem := Phdr.loadable_memsz hload
  have hcanon := storeBytes_canonical _ _ _ _ hzero
  rw [List.length_replicate] at hcanon
  obtain ⟨-, hv⟩ := segment_start h htop hmem hcanon hmap hcomplete (List.length_replicate ..) hzero
  have hstart : LoadState image window pml4 (fun _ _ => True) tag s.cr3 tag s :=
    ⟨h, trivial, fun _ _ ht => ht, rfl⟩
  obtain ⟨tag', hpages, htop'⟩ := hstart.pages LoadRule.trivial (fun _ _ => trivial) hmap
  have htop₀ := htop' (fun k hk => (segment_pages hmem hcanon hk).2.2.2) htop
  obtain ⟨hzeroed, htop₁, stored⟩ :=
    (hpages.switch LoadRule.trivial pml4).store LoadRule.trivial htop₀ hv trivial hzero
  obtain ⟨-, htop₂, -⟩ := hzeroed.store LoadRule.trivial htop₁ hv trivial hfill
  exact ⟨hv, stored.cr3, htop₀, htop₁, htop₂⟩

/-- The program-header loop, when it gets through. -/
theorem twins_elfLoop {stale : Stale} {ehdr : Ehdr} {fd : Int} {cr3 : Word} :
    ∀ (count i : Nat) (st out : ElfLoop) (tag : Word → Option Label) (t : Vmm),
      Twins image window pml4 mem mem' tag st.vmm t → st.vmm.cr3 = cr3 →
      translate st.vmm.mem pml4 topPage = none →
      elfLoop stale ehdr fd pml4 cr3 count i st = .ok out → out.ok = true →
      ∃ vmm tag', elfLoop stale ehdr fd pml4 cr3 count i { st with vmm := t } =
          .ok { out with vmm := vmm } ∧
        Twins image window pml4 mem mem' tag' out.vmm vmm
  | 0, i, st, out, tag, t, h, hcr3, htop, hok, hthrough => by
      cases hok
      exact ⟨t, tag, rfl, h⟩
  | count + 1, i, st, out, tag, t, h, hcr3, htop, hok, hthrough => by
      unfold elfLoop at hok ⊢
      obtain ⟨read, hread, hok⟩ := bind_ok hok
      rw [hread]
      dsimp only at hok
      split at hok
      · rename_i hload
        obtain ⟨pages, hmap, hok⟩ := bind_ok hok
        obtain ⟨vmm, tag₁, hvmm, h₁, -⟩ := h.mapFreshPages (by decide) hmap
        split at hok
        · rename_i hcomplete
          obtain ⟨s₁, hzero, hok⟩ := bind_ok hok
          obtain ⟨contents, hcontents, hok⟩ := bind_ok hok
          obtain ⟨s₂, hfill, hok⟩ := bind_ok hok
          obtain ⟨hv, hcr3₁, htop₀, htop₁, htop₂⟩ := segment_stores h.tree htop hload hmap hcomplete
            hzero hfill
          obtain ⟨t₁, ht₁, h₂⟩ := Twins.storeBytes _ _ _ _ _ (h₁.switch pml4) rfl htop₀ hv hzero
          obtain ⟨t₂, ht₂, h₃⟩ := Twins.storeBytes _ _ _ _ _ h₂ hcr3₁ htop₁ hv hfill
          obtain ⟨vmm', tag', hloop, h'⟩ := twins_elfLoop count (i + 1)
            { vmm := vmmSwitchAddressSpace s₂ cr3, disk := contents.disk, lastVend := _, ok := true }
            out tag₁ (vmmSwitchAddressSpace t₂ cr3) (h₃.switch cr3) rfl htop₂ hok hthrough
          refine ⟨vmm', tag', ?_, h'⟩
          show (if Phdr.loadable _ = true then _ else _) = _
          rw [if_pos hload]
          show (mapFreshPages pml4 _ userPage _ 0 t >>= _) = _
          rw [hvmm]
          show (if pages.complete = true then _ else _) = _
          rw [if_pos hcomplete]
          show (storeBytes _ _ (vmmSwitchAddressSpace vmm pml4) >>= _) = _
          rw [ht₁]
          show (seekRead read.disk fd _ _ >>= _) = _
          rw [hcontents]
          show (storeBytes _ contents.bytes t₁ >>= _) = _
          rw [ht₂]
          exact hloop
        · cases hok
          cases hthrough
      · rename_i hskip
        obtain ⟨vmm', tag', hloop, h'⟩ := twins_elfLoop count (i + 1) { st with disk := read.disk }
          out tag t h hcr3 htop hok hthrough
        refine ⟨vmm', tag', ?_, h'⟩
        show (if Phdr.loadable _ = true then _ else _) = _
        rw [if_neg hskip]
        exact hloop

/-- `process_create_elf` behind `process_alloc`, when it returns a process. -/
theorem twins_loadElf {fuel : Nat} {stale : Stale} {fns : Trampolines} {ehdr : Ehdr} {fd : Int}
    {useLinuxAbi : BitVec 32} {k k' : Kernel} {p new : NewProcess}
    (h : SameTables tag k.vmm t) (htree : PageTree image window tag k.vmm)
    (hroot : tag k.vmm.cr3 = some .root)
    (hclean : ∀ i, 1 ≤ i → i < 512 → hasFlag (k.vmm.mem k.vmm.cr3 i) ptePresent = false)
    (hok : loadElf fuel stale fns ehdr fd useLinuxAbi k p = .ok (k', some new)) :
    ∃ vmm tag', loadElf fuel stale fns ehdr fd useLinuxAbi { k with vmm := t } p =
        .ok ({ k' with vmm := vmm }, some new) ∧
      Twins image window new.proc.pageTable k.vmm.mem t.mem tag' k'.vmm vmm := by
  unfold loadElf at hok ⊢
  cases hcreated : vmmCreateAddressSpace k.vmm with
  | mk s₁ pml4 =>
      rw [hcreated] at hok
      dsimp only at hok ⊢
      split at hok
      · obtain ⟨k₁, -, hok⟩ := bind_ok hok
        cases hok
      · rename_i hne
        obtain ⟨t₁, tag₁, ht₁, h₁, hcr3₁, htop₁⟩ := twins_create h htree hroot hclean hcreated hne
        rw [ht₁]
        dsimp only
        rw [if_neg hne]
        obtain ⟨stack, hstack, hok⟩ := bind_ok hok
        obtain ⟨t₂, tag₂, ht₂, h₂, -⟩ := h₁.mapFreshPages (by decide) hstack
        rw [ht₂]
        split at hok
        · rename_i hcomplete
          obtain ⟨st, hloop, hok⟩ := bind_ok hok
          split at hok
          · rename_i hthrough
            have hstart : LoadState image window pml4 (fun _ _ => True) tag₁ s₁.cr3 tag₁ s₁ :=
              ⟨h₁.tree, trivial, fun _ _ ht => ht, rfl⟩
            obtain ⟨-, -, htop₂⟩ := hstart.stack LoadRule.trivial htop₁ (fun _ _ => trivial) hstack
            obtain ⟨vmm, tag', hvmm, h'⟩ := twins_elfLoop _ _
              { vmm := stack.vmm, disk := k.disk, lastVend := 0#64, ok := true } st tag₂ t₂ h₂ rfl
              htop₂ hloop hthrough
            cases hok
            refine ⟨vmm, tag', ?_, h'⟩
            show (if stack.complete = true then _ else _) = _
            rw [if_pos hcomplete]
            show (elfLoop stale ehdr fd pml4 t₂.cr3 ehdr.ePhnum.toNat 0 _ >>= _) = _
            rw [h₂.same.cr3, hvmm]
            show (if st.ok = true then _ else _) = _
            rw [if_pos hthrough]
            rfl
          · cases hok
        · cases hok

/-- `process_create_elf`, when it returns a process: the second machine returns the same one. -/
theorem twins_processCreateElf {fuel : Nat} {stale : Stale} {fns : Trampolines} {path : List Byte}
    {useLinuxAbi : BitVec 32} {k k' : Kernel} {new : NewProcess}
    (h : SameTables tag k.vmm t) (htree : PageTree image window tag k.vmm)
    (hroot : tag k.vmm.cr3 = some .root)
    (hclean : ∀ i, 1 ≤ i → i < 512 → hasFlag (k.vmm.mem k.vmm.cr3 i) ptePresent = false)
    (hok : processCreateElf fuel stale fns k path useLinuxAbi = .ok (k', some new)) :
    ∃ vmm tag', processCreateElf fuel stale fns { k with vmm := t } path useLinuxAbi =
        .ok ({ k' with vmm := vmm }, some new) ∧
      Twins image window new.proc.pageTable k.vmm.mem t.mem tag' k'.vmm vmm := by
  unfold processCreateElf at hok ⊢
  cases hopen : ramdiskOpen k.disk path with
  | mk fd disk =>
      rw [hopen] at hok
      dsimp only at hok ⊢
      split at hok
      · cases hok
      · rename_i hfd
        rw [if_neg hfd]
        obtain ⟨read, hread, hok⟩ := bind_ok hok
        rw [hread]
        split at hok
        · rename_i hsupported
          obtain ⟨⟨k₁, proc⟩, halloc, hok⟩ := bind_ok hok
          obtain ⟨hvmm, hdisk⟩ := processAlloc_frame halloc
          have halloc' := processAlloc_heap halloc t read.disk
          cases proc with
          | none => cases hok
          | some p =>
              dsimp only at hok hvmm hdisk
              obtain ⟨vmm, tag', hload, h'⟩ := @twins_loadElf image window tag t fuel stale fns _ fd
                useLinuxAbi k₁ k' p new (hvmm ▸ h) (hvmm ▸ htree) (hvmm ▸ hroot) (hvmm ▸ hclean) hok
              rw [hvmm] at h'
              refine ⟨vmm, tag', ?_, h'⟩
              show (if Ehdr.Supported _ then _ else _) = _
              rw [if_pos hsupported]
              show (processAlloc fuel { k with vmm := t, disk := read.disk } >>= _) = _
              rw [halloc', ← hdisk]
              exact hload
        · cases hok

end Constructor

end CustomKernel.Filesystem
