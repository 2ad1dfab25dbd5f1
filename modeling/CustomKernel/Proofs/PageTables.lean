/-
Module: CustomKernel.Proofs.PageTables
Layer: Proofs
Purpose: What `vmm_map` and `vmm_create_address_space` do to the translations of all address spaces
  at once. A labelling gives every page-table frame its place (an owner and the indices that lead to
  it); the tables are well formed when each entry leads to the frame with the extended label. One
  step of the code keeps the labelling and adds at most one fresh frame to it, so two walks that
  differ in owner or in an index never read the same entry. How entries of different PML4 tables
  share their owner is a parameter: the same lemmas serve private and shared sub-tables.
Imports: CustomKernel.Proofs.PageEntry, CustomKernel.Proofs.Pmm
Trusted boundary: none (fully proved)
Main exports: Label, Tagged, getOrCreateTable_cases, vmmMap_spec, vmmCreateAddressSpace_spec
-/
import CustomKernel.Proofs.PageEntry
import CustomKernel.Proofs.Pmm

namespace CustomKernel.Memory

open Loops

/-! ### Stores -/

theorem PhysMem.store_apply (mem : PhysMem) (table : Word) (i : Nat) (value : Word)
    (other : Word) (j : Nat) :
    mem.store table i value other j = if other = table ∧ j = i then value else mem other j := by
  by_cases ht : other = table
  · subst ht
    by_cases hj : j = i
    · simp [store, hj]
    · simp [store, hj]
  · simp [store, ht]

theorem PhysMem.store_same (mem : PhysMem) (table : Word) (i : Nat) (value : Word) :
    mem.store table i value table i = value := by
  simp [PhysMem.store_apply]

theorem PhysMem.store_other {mem : PhysMem} {table other : Word} {i j : Nat} {value : Word}
    (h : ¬ (other = table ∧ j = i)) : mem.store table i value other j = mem other j := by
  rw [PhysMem.store_apply, if_neg h]

/-- Memory with a frame zeroed. -/
def zeroFrame (frame : Word) (mem : PhysMem) : PhysMem := fun table j =>
  if table = frame ∧ j < 512 then 0#64 else mem table j

theorem zero_loop (frame : Word) (mem : PhysMem) :
    forRange 0 numPageLevelEntries (fun j (mem : PhysMem) => mem.store frame j 0#64) mem =
      zeroFrame frame mem := by
  have hloop := @forRange_invariant _ (fun j (mem : PhysMem) => mem.store frame j 0#64)
    (fun i mem' => mem' = fun table j => if table = frame ∧ j < i then 0#64 else mem table j)
    0 numPageLevelEntries mem (Nat.zero_le _) (by simp)
    (by
      rintro i mem' - - rfl
      funext table j
      rw [PhysMem.store_apply]
      by_cases ht : table = frame
      · by_cases hj : j = i
        · simp [ht, hj]
        · by_cases hlt : j < i
          · simp [ht, hj, hlt, Nat.lt_succ_of_lt hlt]
          · have : ¬ j < i + 1 := by omega
            simp [ht, hj, hlt, this]
      · simp [ht])
  exact hloop

/-! ### One level of the descent -/

/-- The two ways `get_or_create_table` returns, for the flags `vmm_map` passes: the entry was
    present and is widened, or it was not and a zeroed frame is linked in. -/
theorem getOrCreateTable_cases {s s' : Vmm} {table next : Word} {i : Nat}
    (h : getOrCreateTable s table i (pteWritable ||| pteUser) = .ok (s', next)) :
    (hasFlag (s.mem table i) ptePresent = true ∧ hasFlag (s.mem table i) pteHuge = false ∧
      next = entryAddr (s.mem table i) ∧
      s' = { s with mem := s.mem.store table i (s.mem table i ||| pteUser ||| pteWritable) }) ∨
    (hasFlag (s.mem table i) ptePresent = false ∧ ∃ n ∈ s.pmm.freeSet, next = frameAddr n ∧
      s' = { s with
        pmm := reserveFrame n s.pmm
        mem := (zeroFrame next s.mem).store table i
          (next ||| (pteWritable ||| pteUser) ||| ptePresent) }) := by
  have hwritable : hasFlag (pteWritable ||| pteUser) pteWritable = true := by decide
  have huser : hasFlag (pteWritable ||| pteUser) pteUser = true := by decide
  have hpresent : hasFlag (pteWritable ||| pteUser) ptePresent = false := by decide
  unfold getOrCreateTable at h
  cases hp : hasFlag (s.mem table i) ptePresent with
  | false =>
      rcases pmmAlloc_spec s.pmm with ⟨hnull, -⟩ | ⟨n, hmem, -, halloc⟩
      · simp [hp, hnull] at h
      · by_cases hzero : n * pageSize = 0
        · simp [hp, halloc, hzero] at h
        · have hlt : n < totalFrames := (mem_freeSet.1 hmem).1
          simp only [hp, halloc, hzero, frameAddr_eq_pointer, zero_loop, Bool.not_false, if_true,
            if_false, entryAddr_or, entryAddr_frameAddr hlt, entryAddr_ptePresent,
            entryAddr_pteUser, entryAddr_pteWritable, BitVec.or_zero, Except.ok.injEq,
            Prod.mk.injEq] at h
          obtain ⟨rfl, rfl⟩ := h
          exact .inr ⟨rfl, n, hmem, rfl, rfl⟩
  | true =>
      cases hh : hasFlag (s.mem table i) pteHuge with
      | true => simp [hp, hh] at h
      | false =>
          simp only [hp, hh, hwritable, huser, hpresent, Bool.not_true, Bool.false_eq_true, if_true,
            if_false, entryAddr_or, entryAddr_pteUser, entryAddr_pteWritable, BitVec.or_zero,
            Except.ok.injEq, Prod.mk.injEq] at h
          obtain ⟨rfl, rfl⟩ := h
          exact .inl ⟨rfl, rfl, rfl, rfl⟩

/-- It returns when a frame is free and the entry is no huge page. -/
theorem getOrCreateTable_ok {s : Vmm} {table : Word} {i : Nat} (flags : Word)
    (hfree : s.pmm.freeSet.Nonempty) (hpos : ∀ n ∈ s.pmm.freeSet, 0 < n)
    (hhuge : hasFlag (s.mem table i) ptePresent = true → hasFlag (s.mem table i) pteHuge = false) :
    ∃ s' next, getOrCreateTable s table i flags = .ok (s', next) := by
  unfold getOrCreateTable
  cases hp : hasFlag (s.mem table i) ptePresent with
  | false =>
      rcases pmmAlloc_spec s.pmm with ⟨-, hempty⟩ | ⟨n, hmem, -, halloc⟩
      · simp [hempty] at hfree
      · have hne : n * pageSize ≠ 0 := Nat.mul_ne_zero (Nat.ne_of_gt (hpos n hmem)) (by decide)
        simp [hp, halloc, hne]
  | true =>
      simp [hp, hhuge hp]

/-! ### Labels -/

/-- The place of a frame in the tables: a PML4, or the frame that a path of indices (the last one
    first) leads to from the PML4 tables of an owner. -/
inductive Label where
  | root
  | node (owner : Option Word) (path : List Nat)
deriving DecidableEq

/-- The paging level: 4 for a PML4 down to 1 for a page table and 0 for a mapped page. -/
def Label.level : Label → Nat
  | .root => 4
  | .node _ path => 4 - path.length

section Labelled

variable (ownerOf : Word → Nat → Option Word)

/-- The place that entry `i` of `table` leads to. -/
def Label.child (table : Word) : Label → Nat → Label
  | .root, i => .node (ownerOf table i) [i]
  | .node owner path, i => .node owner (i :: path)

@[simp] theorem Label.level_child (table : Word) (label : Label) (i : Nat) :
    (label.child ownerOf table i).level = label.level - 1 := by
  cases label with
  | root => rfl
  | node owner path =>
      simp only [Label.child, Label.level, List.length_cons]
      omega

/-- The tables are well formed under a labelling: labelled frames are in use, every table entry
    leads to the frame with the extended label, and the only huge pages are those of the identity
    map. -/
structure Tagged (tag : Word → Option Label) (s : Vmm) : Prop where
  frame : ∀ {table label}, tag table = some label →
    ∃ n < totalFrames, n ∉ s.pmm.freeSet ∧ 256 ≤ n ∧ table = frameAddr n
  child : ∀ {table label i}, tag table = some label → 2 ≤ label.level → i < 512 →
    hasFlag (s.mem table i) ptePresent = true → hasFlag (s.mem table i) pteHuge = false →
    tag (entryAddr (s.mem table i)) = some (label.child ownerOf table i)
  huge : ∀ {table label i}, tag table = some label → 2 ≤ label.level → i < 512 →
    hasFlag (s.mem table i) ptePresent = true → hasFlag (s.mem table i) pteHuge = true →
    ∃ owner, label = .node owner [0, 0]
  free : ∀ n ∈ s.pmm.freeSet, 256 ≤ n

/-- A labelling that keeps all labels of another. -/
def Extends (tag tag' : Word → Option Label) : Prop :=
  ∀ table label, tag table = some label → tag' table = some label

theorem Extends.trans {tag tag' tag'' : Word → Option Label} (h : Extends tag tag')
    (h' : Extends tag' tag'') : Extends tag tag'' :=
  fun table label ht => h' table label (h table label ht)

variable {ownerOf} {tag : Word → Option Label} {s s' : Vmm} {table next : Word} {label : Label}
  {i : Nat}

theorem Tagged.pteAddr_eq (h : Tagged ownerOf tag s) (ht : tag table = some label) :
    pteAddr table = table := by
  obtain ⟨n, hn, -, -, rfl⟩ := h.frame ht
  exact pteAddr_frameAddr hn

theorem Tagged.entryAddr_eq (h : Tagged ownerOf tag s) (ht : tag table = some label) :
    entryAddr table = table := by
  obtain ⟨n, hn, -, -, rfl⟩ := h.frame ht
  exact entryAddr_frameAddr hn

/-- A free frame has no label. -/
theorem Tagged.free_unlabelled (h : Tagged ownerOf tag s) {n : Nat} (hn : n ∈ s.pmm.freeSet) :
    tag (frameAddr n) = none := by
  cases ht : tag (frameAddr n) with
  | none => rfl
  | some label =>
      obtain ⟨m, hm, hused, -, heq⟩ := h.frame ht
      have := frameAddr_inj (mem_freeSet.1 hn).1 hm heq
      exact absurd (this ▸ hn) hused

theorem extends_update (hnone : tag table = none) :
    Extends tag (Function.update tag table (some label)) := by
  intro other label' hother
  have hne : other ≠ table := by
    rintro rfl
    rw [hnone] at hother
    cases hother
  rw [Function.update_of_ne hne, hother]

/-- Taking a free frame out of the allocator and giving it a label that is no table. -/
theorem Tagged.label_page (h : Tagged ownerOf tag s) {n : Nat} (hn : n ∈ s.pmm.freeSet)
    (hlevel : label.level < 2) :
    Tagged ownerOf (Function.update tag (frameAddr n) (some label))
      { s with pmm := reserveFrame n s.pmm } := by
  have hext := @extends_update _ _ label (h.free_unlabelled hn)
  refine ⟨fun {table l} ht => ?_, fun {table l i} ht hl hi hp hh => ?_,
    fun {table l i} ht hl hi hp hh => ?_, fun m hm => ?_⟩
  · by_cases hnew : table = frameAddr n
    · exact ⟨n, (mem_freeSet.1 hn).1, by simp, h.free n hn, hnew⟩
    · rw [Function.update_of_ne hnew] at ht
      obtain ⟨m, hm, hused, hge, rfl⟩ := h.frame ht
      exact ⟨m, hm, by simp [hused], hge, rfl⟩
  · by_cases hnew : table = frameAddr n
    · rw [hnew, Function.update_self] at ht
      cases ht
      omega
    · rw [Function.update_of_ne hnew] at ht
      exact hext _ _ (h.child ht hl hi hp hh)
  · by_cases hnew : table = frameAddr n
    · rw [hnew, Function.update_self] at ht
      cases ht
      omega
    · rw [Function.update_of_ne hnew] at ht
      exact h.huge ht hl hi hp hh
  · exact h.free m (Finset.mem_of_mem_erase (by simpa using hm))

/-- Taking a frame out of the allocator for any other purpose. -/
theorem Tagged.reserve (h : Tagged ownerOf tag s) (n : Nat) :
    Tagged ownerOf tag { s with pmm := reserveFrame n s.pmm } := by
  refine ⟨fun ht => ?_, h.child, h.huge, fun m hm => ?_⟩
  · obtain ⟨m, hm, hused, hge, rfl⟩ := h.frame ht
    exact ⟨m, hm, by simp [hused], hge, rfl⟩
  · exact h.free m (Finset.mem_of_mem_erase (by simpa using hm))

/-- Widening the rights of a present entry keeps the tables well formed. -/
theorem Tagged.widen (h : Tagged ownerOf tag s) :
    Tagged ownerOf tag
      { s with mem := s.mem.store table i (s.mem table i ||| pteUser ||| pteWritable) } := by
  have huser : hasFlag pteUser ptePresent = false ∧ hasFlag pteWritable ptePresent = false ∧
      hasFlag pteUser pteHuge = false ∧ hasFlag pteWritable pteHuge = false := by decide
  -- the entry keeps its address and the flags the tables depend on
  have hsame : ∀ (u : Word) (j : Nat),
      let e := s.mem.store table i (s.mem table i ||| pteUser ||| pteWritable) u j
      hasFlag e ptePresent = hasFlag (s.mem u j) ptePresent ∧
        hasFlag e pteHuge = hasFlag (s.mem u j) pteHuge ∧ entryAddr e = entryAddr (s.mem u j) := by
    intro u j
    rw [PhysMem.store_apply]
    by_cases hhit : u = table ∧ j = i
    · obtain ⟨rfl, rfl⟩ := hhit
      simp [huser]
    · rw [if_neg hhit]
      exact ⟨rfl, rfl, rfl⟩
  refine ⟨h.frame, fun {u l j} hu hl hj hp hh => ?_, fun {u l j} hu hl hj hp hh => ?_, h.free⟩
  · obtain ⟨hp', hh', ha'⟩ := hsame u j
    rw [ha']
    exact h.child hu hl hj (hp' ▸ hp) (hh' ▸ hh)
  · obtain ⟨hp', hh', -⟩ := hsame u j
    exact h.huge hu hl hj (hp' ▸ hp) (hh' ▸ hh)

/-- The labelling after a table was linked in at entry `i` of `table`. -/
def linked (ownerOf : Word → Nat → Option Word) (tag : Word → Option Label) (table : Word)
    (label : Label) (i : Nat) (next : Word) : Word → Option Label :=
  Function.update tag next (some (label.child ownerOf table i))

theorem linked_self : linked ownerOf tag table label i next next =
    some (label.child ownerOf table i) :=
  Function.update_self ..

/-- `get_or_create_table` keeps the tables well formed, and the table it returns has the label of
    the entry it was reached through. -/
theorem Tagged.getOrCreateTable (h : Tagged ownerOf tag s) (ht : tag table = some label)
    (hl : 2 ≤ label.level) (hi : i < 512)
    (hok : getOrCreateTable s table i (pteWritable ||| pteUser) = .ok (s', next)) :
    Tagged ownerOf (linked ownerOf tag table label i next) s' ∧
      Extends tag (linked ownerOf tag table label i next) := by
  rcases getOrCreateTable_cases hok with ⟨hp, hh, rfl, rfl⟩ | ⟨hp, n, hn, rfl, rfl⟩
  · have hchild := h.child ht hl hi hp hh
    have hsame : linked ownerOf tag table label i (entryAddr (s.mem table i)) = tag := by
      rw [linked, ← hchild]
      exact Function.update_eq_self ..
    rw [hsame]
    exact ⟨h.widen, fun _ _ h => h⟩
  · have hnone := h.free_unlabelled hn
    have hext : Extends tag (linked ownerOf tag table label i (frameAddr n)) := extends_update hnone
    have hlt := (mem_freeSet.1 hn).1
    have hne : table ≠ frameAddr n := by
      rintro rfl
      rw [hnone] at ht
      cases ht
    have haddr := entryAddr_frameAddr hlt
    refine ⟨⟨fun {u l} hu => ?_, fun {u l j} hu hl' hj hp' hh' => ?_,
      fun {u l j} hu hl' hj hp' hh' => ?_, fun m hm => ?_⟩, hext⟩
    · by_cases hnew : u = frameAddr n
      · exact ⟨n, hlt, by simp, h.free n hn, hnew⟩
      · rw [linked, Function.update_of_ne hnew] at hu
        obtain ⟨m, hm, hused, hge, rfl⟩ := h.frame hu
        exact ⟨m, hm, by simp [hused], hge, rfl⟩
    · simp only [PhysMem.store_apply, zeroFrame] at hp' hh' ⊢
      by_cases hhit : u = table ∧ j = i
      · obtain ⟨rfl, rfl⟩ := hhit
        rw [linked, Function.update_of_ne hne, ht] at hu
        cases hu
        simp [haddr, linked_self]
      · by_cases hnew : u = frameAddr n
        · simp [hnew, hj, Ne.symm hne] at hp'
        · rw [linked, Function.update_of_ne hnew] at hu
          simp only [hhit, hnew, false_and, if_false] at hp' hh' ⊢
          exact hext _ _ (h.child hu hl' hj hp' hh')
    · simp only [PhysMem.store_apply, zeroFrame] at hp' hh'
      by_cases hhit : u = table ∧ j = i
      · have hflag := hasFlag_of_aligned haddr entryAddr_pteHuge
        have hconst : hasFlag pteWritable pteHuge = false ∧ hasFlag pteUser pteHuge = false ∧
            hasFlag ptePresent pteHuge = false := by decide
        simp [hhit, hflag, hconst] at hh'
      · by_cases hnew : u = frameAddr n
        · simp [hnew, hj, Ne.symm hne] at hp'
        · rw [linked, Function.update_of_ne hnew] at hu
          simp only [hhit, hnew, false_and, if_false] at hp' hh'
          exact h.huge hu hl' hj hp' hh'
    · exact h.free m (Finset.mem_of_mem_erase (by simpa using hm))

/-! ### What one level of the descent changes -/

/-- The entry the descent went through leads on to the returned table and grants all rights. -/
theorem getOrCreateTable_entry
    (hok : getOrCreateTable s table i (pteWritable ||| pteUser) = .ok (s', next)) :
    hasFlag (s'.mem table i) ptePresent = true ∧ hasFlag (s'.mem table i) pteHuge = false ∧
      hasFlag (s'.mem table i) pteWritable = true ∧ hasFlag (s'.mem table i) pteUser = true ∧
      entryAddr (s'.mem table i) = next := by
  have hconst : hasFlag pteUser pteHuge = false ∧ hasFlag pteWritable pteHuge = false ∧
      hasFlag ptePresent pteHuge = false ∧ hasFlag pteWritable pteWritable = true ∧
      hasFlag pteUser pteUser = true ∧ hasFlag ptePresent ptePresent = true := by decide
  rcases getOrCreateTable_cases hok with ⟨hp, hh, rfl, rfl⟩ | ⟨-, n, hn, rfl, rfl⟩
  · simp [PhysMem.store_same, hp, hh, hconst]
  · have haddr := entryAddr_frameAddr (mem_freeSet.1 hn).1
    simp [PhysMem.store_same, haddr, hasFlag_of_aligned haddr entryAddr_pteHuge, hconst]

/-- Every other entry of a labelled table is as before. -/
theorem Tagged.getOrCreateTable_other (h : Tagged ownerOf tag s)
    (hok : Memory.getOrCreateTable s table i (pteWritable ||| pteUser) = .ok (s', next))
    {other : Word} {j : Nat} (hother : tag other ≠ none) (hne : ¬ (other = table ∧ j = i)) :
    s'.mem other j = s.mem other j := by
  rcases getOrCreateTable_cases hok with ⟨-, -, -, rfl⟩ | ⟨-, n, hn, rfl, rfl⟩
  · exact PhysMem.store_other hne
  · have hfresh : other ≠ frameAddr n := by
      rintro rfl
      exact hother (h.free_unlabelled hn)
    show PhysMem.store _ _ _ _ other j = _
    rw [PhysMem.store_other hne]
    simp [zeroFrame, hfresh]

theorem getOrCreateTable_cr3
    (hok : getOrCreateTable s table i (pteWritable ||| pteUser) = .ok (s', next)) :
    s'.cr3 = s.cr3 := by
  rcases getOrCreateTable_cases hok with ⟨-, -, -, rfl⟩ | ⟨-, n, -, -, rfl⟩
  · rfl
  · rfl

/-- `vmm_map_in` puts CR3 back. -/
theorem vmmMapIn_cr3 {pml4 virt phys flags : Word} (h : vmmMapIn s pml4 virt phys flags = .ok s') :
    s'.cr3 = s.cr3 := by
  obtain ⟨s₁, -, h⟩ := Loops.bind_ok h
  cases h
  rfl

/-! ### Walks -/

/-- The entries a walk reads, as pairs of table and index. -/
def visited (mem : PhysMem) (virt : Word) : (level : Nat) → (table : Word) → List (Word × Nat)
  | 0, _ => []
  | level + 1, table =>
      let entry := mem table (tableIndex (12 + 9 * level) virt)
      (table, tableIndex (12 + 9 * level) virt) ::
        if hasFlag entry ptePresent && !hasFlag entry pteHuge then
          if level = 0 then [] else visited mem virt level (pteAddr entry)
        else []

/-- A walk depends on the entries it reads and on nothing else. -/
theorem mmuWalk_congr {mem mem' : PhysMem} {virt : Word} :
    ∀ (level : Nat) (table : Word),
      (∀ read ∈ visited mem virt level table, mem' read.1 read.2 = mem read.1 read.2) →
      mmuWalk mem' virt level table = mmuWalk mem virt level table
  | 0, _, _ => rfl
  | level + 1, table, hsame => by
      have hentry : mem' table (tableIndex (12 + 9 * level) virt) =
          mem table (tableIndex (12 + 9 * level) virt) :=
        hsame (table, _) (List.mem_cons_self ..)
      unfold mmuWalk
      simp only [hentry]
      cases hp : hasFlag (mem table (tableIndex (12 + 9 * level) virt)) ptePresent with
      | false => rfl
      | true =>
          cases hh : hasFlag (mem table (tableIndex (12 + 9 * level) virt)) pteHuge with
          | true => rfl
          | false =>
              by_cases hzero : level = 0
              · simp [hzero]
              · have hrec := mmuWalk_congr level
                  (pteAddr (mem table (tableIndex (12 + 9 * level) virt))) fun read hread => by
                    apply hsame read
                    rw [visited]
                    exact List.mem_cons_of_mem _ (by simpa [hp, hh, hzero] using hread)
                simp [hzero, hrec]

/-- The label of the table (for `level = 0`: of the page) that the walk of `virt` reaches in the
    address space of `pml4`. -/
def slot (ownerOf : Word → Nat → Option Word) (pml4 virt : Word) (level : Nat) : Label :=
  .node (ownerOf pml4 (pml4Index virt)) ((walkPath virt).drop level)

theorem level_slot (pml4 virt : Word) {level : Nat} (h : level ≤ 4) :
    (slot ownerOf pml4 virt level).level = level := by
  simp only [slot, Label.level, List.length_drop, walkPath, List.length_cons, List.length_nil]
  omega

/-- Entering the table of the next level extends the label by the index used. -/
theorem child_slot (pml4 virt table : Word) {level : Nat} (h : level < 4) :
    (slot ownerOf pml4 virt (level + 1)).child ownerOf table (tableIndex (12 + 9 * level) virt) =
      slot ownerOf pml4 virt level := by
  have hcases : level = 0 ∨ level = 1 ∨ level = 2 ∨ level = 3 := by omega
  rcases hcases with rfl | rfl | rfl | rfl <;> rfl

theorem Tagged.visited_slot (h : Tagged ownerOf tag s) {pml4 virt : Word} :
    ∀ (level : Nat) (table : Word), level ≤ 3 → tag table = some (slot ownerOf pml4 virt level) →
      ∀ read ∈ visited s.mem virt level table, ∃ k < level,
        tag read.1 = some (slot ownerOf pml4 virt (k + 1)) ∧
          read.2 = tableIndex (12 + 9 * k) virt
  | 0, _, _, _ => by simp [visited]
  | level + 1, table, hle, htag => by
      intro read hread
      rw [visited] at hread
      rcases List.mem_cons.1 hread with rfl | hread
      · exact ⟨level, Nat.lt_succ_self _, htag, rfl⟩
      · by_cases hdown : (hasFlag (s.mem table (tableIndex (12 + 9 * level) virt)) ptePresent &&
            !hasFlag (s.mem table (tableIndex (12 + 9 * level) virt)) pteHuge) = true
        · rw [if_pos hdown] at hread
          by_cases hzero : level = 0
          · simp [hzero] at hread
          · rw [if_neg hzero] at hread
            obtain ⟨hp, hh⟩ := Bool.and_eq_true_iff.1 hdown
            have hchild := h.child htag (by rw [level_slot _ _ (by omega)]; omega)
              (tableIndex_lt (12 + 9 * level) virt) hp (by simpa using hh)
            rw [child_slot _ _ _ (by omega)] at hchild
            obtain ⟨n, hn, -, -, haddr⟩ := h.frame hchild
            rw [pteAddr_of_frame hn haddr, ← haddr] at hread
            obtain ⟨k, hk, hread⟩ := Tagged.visited_slot h level _ (by omega) hchild read hread
            exact ⟨k, Nat.lt_succ_of_lt hk, hread⟩
        · rw [if_neg hdown] at hread
          cases hread

/-- All entries the walk of an address can read, in terms of labels. -/
theorem Tagged.visited_root (h : Tagged ownerOf tag s) {pml4 virt : Word}
    (hroot : tag pml4 = some .root) :
    ∀ read ∈ visited s.mem virt 4 pml4, read = (pml4, pml4Index virt) ∨
      ∃ k < 3, tag read.1 = some (slot ownerOf pml4 virt (k + 1)) ∧
        read.2 = tableIndex (12 + 9 * k) virt := by
  intro read hread
  rw [visited] at hread
  rcases List.mem_cons.1 hread with rfl | hread
  · exact .inl rfl
  · by_cases hdown : (hasFlag (s.mem pml4 (tableIndex (12 + 9 * 3) virt)) ptePresent &&
        !hasFlag (s.mem pml4 (tableIndex (12 + 9 * 3) virt)) pteHuge) = true
    · rw [if_pos hdown, if_neg (by decide)] at hread
      obtain ⟨hp, hh⟩ := Bool.and_eq_true_iff.1 hdown
      have hchild : tag (entryAddr (s.mem pml4 (tableIndex (12 + 9 * 3) virt))) =
          some (slot ownerOf pml4 virt 3) :=
        h.child hroot (by decide) (tableIndex_lt (12 + 9 * 3) virt) hp (by simpa using hh)
      obtain ⟨n, hn, -, -, haddr⟩ := h.frame hchild
      rw [pteAddr_of_frame hn haddr, ← haddr] at hread
      exact .inr (h.visited_slot 3 _ (Nat.le_refl _) hchild read hread)
    · rw [if_neg hdown] at hread
      cases hread

/-- A walk from a table below the PML4 depends on the labelled tables only. -/
theorem Tagged.mmuWalk_slot (h : Tagged ownerOf tag s) {mem : PhysMem} {pml4 virt : Word}
    {level : Nat} (hsame : ∀ u l, tag u = some l → 1 ≤ l.level → mem u = s.mem u)
    (hle : level ≤ 3) (htable : tag table = some (slot ownerOf pml4 virt level)) :
    mmuWalk mem virt level table = mmuWalk s.mem virt level table := by
  apply mmuWalk_congr
  intro read hread
  obtain ⟨k, hk, htag, -⟩ := h.visited_slot level table hle htable read hread
  rw [hsame _ _ htag (by rw [level_slot _ _ (by omega)]; omega)]

/-- A walk from a PML4 depends on the labelled tables only. -/
theorem Tagged.mmuWalk_root (h : Tagged ownerOf tag s) {mem : PhysMem} {pml4 : Word}
    (hsame : ∀ u l, tag u = some l → 1 ≤ l.level → mem u = s.mem u)
    (hroot : tag pml4 = some .root) (virt : Word) :
    mmuWalk mem virt 4 pml4 = mmuWalk s.mem virt 4 pml4 := by
  apply mmuWalk_congr
  intro read hread
  rcases h.visited_root hroot read hread with rfl | ⟨k, hk, htag, -⟩
  · rw [hsame _ _ hroot (by decide)]
  · rw [hsame _ _ htag (by rw [level_slot _ _ (by omega)]; omega)]

/-- Entry `i` of a table with this label is one that the walk of `virt` from `pml4` goes through
    above the last level. -/
inductive OnPath (ownerOf : Word → Nat → Option Word) (pml4 virt : Word) :
    Word → Label → Nat → Prop where
  | root : OnPath ownerOf pml4 virt pml4 .root (pml4Index virt)
  | slot (table : Word) (k : Nat) (h : k < 3) :
      OnPath ownerOf pml4 virt table (slot ownerOf pml4 virt (k + 1)) (tableIndex (12 + 9 * k) virt)

/-- Two walks that read a common entry have the same owner there. -/
theorem Tagged.owner_eq_of_visited (h : Tagged ownerOf tag s) {pml4 virt other v : Word}
    (hother : tag other = some .root) (htable : tag table = some label)
    (hon : OnPath ownerOf pml4 virt table label i)
    (hread : (table, i) ∈ visited s.mem v 4 other) :
    ownerOf pml4 (pml4Index virt) = ownerOf other (pml4Index v) := by
  rcases h.visited_root hother _ hread with hpair | ⟨k, hk, htag, -⟩
  · obtain ⟨htable', hindex⟩ := Prod.mk.inj hpair
    cases hon with
    | root => rw [htable', hindex]
    | slot _ k hk =>
        rw [htable', hother] at htable
        cases htable
  · rw [htable] at htag
    cases hon with
    | root => cases htag
    | slot _ k' hk' =>
        simp only [slot, Option.some.injEq, Label.node.injEq] at htag
        exact htag.1

/-- Two walks that end in a common page-table entry translate the same page. -/
theorem Tagged.walkPath_eq_of_visited (h : Tagged ownerOf tag s) {pml4 virt other v : Word}
    (hother : tag other = some .root) (htable : tag table = some (slot ownerOf pml4 virt 1))
    (hread : (table, ptIndex virt) ∈ visited s.mem v 4 other) :
    ownerOf pml4 (pml4Index virt) = ownerOf other (pml4Index v) ∧ walkPath v = walkPath virt := by
  rcases h.visited_root hother _ hread with hpair | ⟨k, hk, htag, hindex⟩
  · rw [(Prod.mk.inj hpair).1, hother] at htable
    cases htable
  · rw [htable] at htag
    simp only [slot, Option.some.injEq, Label.node.injEq] at htag
    obtain ⟨howner, hpath⟩ := htag
    have hlen := congrArg List.length hpath
    simp only [walkPath, List.length_drop, List.length_cons, List.length_nil] at hlen
    have hzero : k = 0 := by omega
    subst hzero
    refine ⟨howner, ?_⟩
    show ptIndex v :: (walkPath v).drop 1 = ptIndex virt :: (walkPath virt).drop 1
    rw [hpath, show ptIndex virt = ptIndex v from hindex]

/-! ### Rights -/

/-- A translation to the same place under the same leaf entry, with no right withdrawn. -/
structure Translation.Widened (before after : Translation) : Prop where
  phys : after.phys = before.phys
  leaf : after.leaf = before.leaf
  writable : before.writable = true → after.writable = true
  user : before.user = true → after.user = true

/-- The same for walks that can fail: both fail, or both succeed. -/
def Widened : (before after : Option Translation) → Prop
  | none, none => True
  | some before, some after => before.Widened after
  | _, _ => False

theorem Widened.refl : ∀ before : Option Translation, Widened before before
  | none => trivial
  | some _ => ⟨rfl, rfl, id, id⟩

theorem Widened.eq_none : ∀ {after : Option Translation}, Widened none after → after = none
  | none, _ => rfl

theorem Widened.trans : ∀ {a b c : Option Translation}, Widened a b → Widened b c → Widened a c
  | none, none, none, _, _ => trivial
  | some _, some _, some _, h, h' =>
      ⟨h'.phys.trans h.phys, h'.leaf.trans h.leaf, fun hw => h'.writable (h.writable hw),
        fun hu => h'.user (h.user hu)⟩

theorem Widened.leaf_eq : ∀ {before after : Option Translation}, Widened before after →
    after.map Translation.leaf = before.map Translation.leaf
  | none, none, _ => rfl
  | some _, some _, h => congrArg some h.leaf

/-- Widened rights below an entry that is itself widened. -/
theorem Widened.through : ∀ {a b : Option Translation} {entry entry' : Word}, Widened a b →
    (hasFlag entry pteWritable = true → hasFlag entry' pteWritable = true) →
    (hasFlag entry pteUser = true → hasFlag entry' pteUser = true) →
    Widened (a.map (Translation.through entry)) (b.map (Translation.through entry'))
  | none, none, _, _, _, _, _ => trivial
  | some _, some _, _, _, h, hw, hu => by
      refine ⟨h.phys, h.leaf, fun hb => ?_, fun hb => ?_⟩
      · obtain ⟨h1, h2⟩ := Bool.and_eq_true_iff.1 hb
        exact Bool.and_eq_true_iff.2 ⟨hw h1, h.writable h2⟩
      · obtain ⟨h1, h2⟩ := Bool.and_eq_true_iff.1 hb
        exact Bool.and_eq_true_iff.2 ⟨hu h1, h.user h2⟩

/-- A walk that goes on below an entry. -/
theorem mmuWalk_down {mem : PhysMem} {virt next : Word} {level : Nat} (hlevel : level ≠ 0)
    (hp : hasFlag (mem table (tableIndex (12 + 9 * level) virt)) ptePresent = true)
    (hh : hasFlag (mem table (tableIndex (12 + 9 * level) virt)) pteHuge = false)
    (haddr : pteAddr (mem table (tableIndex (12 + 9 * level) virt)) = next) :
    mmuWalk mem virt (level + 1) table = (mmuWalk mem virt level next).map
      (Translation.through (mem table (tableIndex (12 + 9 * level) virt))) := by
  rw [mmuWalk]
  simp [hp, hh, hlevel, haddr]

/-- A walk that ends at an entry which is not present. -/
theorem mmuWalk_absent {mem : PhysMem} {virt : Word} {level : Nat}
    (hp : hasFlag (mem table (tableIndex (12 + 9 * level) virt)) ptePresent = false) :
    mmuWalk mem virt (level + 1) table = none := by
  rw [mmuWalk]
  simp [hp]

/-- One level of the descent withdraws no translation, adds none and narrows no right, in any
    address space. -/
theorem Tagged.mmuWalk_widened (h : Tagged ownerOf tag s) (ht : tag table = some label)
    (hl : 2 ≤ label.level) (hi : i < 512)
    (hok : Memory.getOrCreateTable s table i (pteWritable ||| pteUser) = .ok (s', next))
    (v : Word) {level : Nat} {start : Word} {m : Label} (hm : tag start = some m)
    (hlevel : m.level = level) :
    Widened (mmuWalk s.mem v level start) (mmuWalk s'.mem v level start) := by
  induction level generalizing start m with
  | zero => trivial
  | succ level ih =>
      by_cases hhit : start = table ∧ tableIndex (12 + 9 * level) v = i
      · -- the walk goes through the entry that was touched
        obtain ⟨rfl, rfl⟩ := hhit
        rw [ht] at hm
        cases hm
        have hpos : level ≠ 0 := by omega
        obtain ⟨hp', hh', hw', hu', haddr'⟩ := getOrCreateTable_entry hok
        obtain ⟨htagged', -⟩ := h.getOrCreateTable ht hl hi hok
        obtain ⟨n, hn, -, -, hnext⟩ := htagged'.frame
          (@linked_self ownerOf tag start next label (tableIndex (12 + 9 * level) v))
        have hpte' := pteAddr_of_frame hn (haddr'.trans hnext)
        rw [← hnext] at hpte'
        rw [mmuWalk_down hpos hp' hh' hpte']
        rcases getOrCreateTable_cases hok with ⟨hp, hh, hold, -⟩ | ⟨hp, f, hf, hfresh, hs'⟩
        · have hpte := pteAddr_of_frame hn (hold.symm.trans hnext)
          rw [← hnext] at hpte
          rw [mmuWalk_down hpos hp hh hpte]
          have hchild := h.child ht hl hi hp hh
          rw [← hold] at hchild
          exact (ih hchild (by simp [hlevel])).through (fun _ => hw') (fun _ => hu')
        · -- the linked table is empty
          obtain ⟨below, rfl⟩ := Nat.exists_eq_succ_of_ne_zero hpos
          have hne : next ≠ start := by
            rintro rfl
            rw [hfresh, h.free_unlabelled hf] at ht
            cases ht
          have hzero : s'.mem next (tableIndex (12 + 9 * below) v) = 0#64 := by
            rw [hs']
            simp [PhysMem.store_apply, zeroFrame, hne, tableIndex_lt]
          rw [mmuWalk_absent hp, @mmuWalk_absent next _ _ _ (by rw [hzero]; exact hasFlag_zero _)]
          trivial
      · have hsame := @Tagged.getOrCreateTable_other _ _ _ _ _ _ _ h hok start
          (tableIndex (12 + 9 * level) v) (by simp [hm]) hhit
        cases hp : hasFlag (s.mem start (tableIndex (12 + 9 * level) v)) ptePresent with
        | false =>
            rw [mmuWalk_absent hp, mmuWalk_absent (by rw [hsame]; exact hp)]
            trivial
        | true =>
            by_cases hleaf : level = 0 ∨
                hasFlag (s.mem start (tableIndex (12 + 9 * level) v)) pteHuge = true
            · -- the walk ends here, at an entry that did not change
              have heq : mmuWalk s'.mem v (level + 1) start = mmuWalk s.mem v (level + 1) start := by
                rw [mmuWalk, mmuWalk, hsame]
                rcases hleaf with hzero | hhuge
                · simp [hzero]
                · simp [hhuge]
              rw [heq]
              exact .refl _
            · obtain ⟨hpos, hh⟩ := not_or.1 hleaf
              rw [Bool.not_eq_true] at hh
              have hchild := h.child hm (by omega) (tableIndex_lt (12 + 9 * level) v) hp hh
              obtain ⟨n, hn, -, -, haddr⟩ := h.frame hchild
              have hpte := pteAddr_of_frame hn haddr
              rw [← haddr] at hpte
              have hdown := @mmuWalk_down start s'.mem v _ _ hpos
                (hsame ▸ hp) (hsame ▸ hh) (hsame.symm ▸ hpte)
              rw [mmuWalk_down hpos hp hh hpte, hdown, hsame]
              exact (ih hchild (by simp [hlevel])).through id id

/-! ### The descent of `vmm_map` -/

theorem Label.level_le (label : Label) : label.level ≤ 4 := by
  cases label with
  | root => exact Nat.le_refl 4
  | node owner path => exact Nat.sub_le 4 _

/-- What a descent towards `virt` from `pml4` does: it keeps the tables well formed and adds empty
    ones, touches no page table and no page that was there, leaves the walks of other owners alone
    and withdraws nothing from the others. -/
structure Grow (ownerOf : Word → Nat → Option Word) (pml4 virt : Word)
    (tag : Word → Option Label) (s : Vmm) (tag' : Word → Option Label) (s' : Vmm) : Prop where
  tagged : Tagged ownerOf tag' s'
  ext : Extends tag tag'
  cr3 : s'.cr3 = s.cr3
  free : s'.pmm.freeSet ⊆ s.pmm.freeSet
  counted : s.pmm.Counted → s'.pmm.Counted
  low : ∀ {u l}, tag u = some l → l.level ≤ 1 → s'.mem u = s.mem u
  kept : ∀ {u l j}, tag u = some l → hasFlag (s.mem u j) ptePresent = true →
    entryAddr (s'.mem u j) = entryAddr (s.mem u j) ∧ hasFlag (s'.mem u j) ptePresent = true ∧
      hasFlag (s'.mem u j) pteHuge = hasFlag (s.mem u j) pteHuge
  roots : ∀ {u j}, tag u = some .root → ¬ (u = pml4 ∧ j = pml4Index virt) →
    s'.mem u j = s.mem u j
  fresh : ∀ {u l}, tag' u = some l → tag u = none →
    1 ≤ l.level ∧ l.level ≤ 3 ∧ (l.level = 1 → ∀ j < 512, s'.mem u j = 0#64)
  off : ∀ {other v}, tag other = some .root →
    ownerOf pml4 (pml4Index virt) ≠ ownerOf other (pml4Index v) →
    mmuWalk s'.mem v 4 other = mmuWalk s.mem v 4 other
  widened : ∀ {other} v, tag other = some .root →
    Widened (mmuWalk s.mem v 4 other) (mmuWalk s'.mem v 4 other)

theorem Grow.trans {pml4 virt : Word} {tag' tag'' : Word → Option Label} {s'' : Vmm}
    (h : Grow ownerOf pml4 virt tag s tag' s') (h' : Grow ownerOf pml4 virt tag' s' tag'' s'') :
    Grow ownerOf pml4 virt tag s tag'' s'' where
  tagged := h'.tagged
  ext := h.ext.trans h'.ext
  cr3 := h'.cr3.trans h.cr3
  free := h'.free.trans h.free
  counted hc := h'.counted (h.counted hc)
  low hu hl := (h'.low (h.ext _ _ hu) hl).trans (h.low hu hl)
  kept hu hp := by
    obtain ⟨haddr, hp', hh⟩ := h.kept hu hp
    obtain ⟨haddr', hp'', hh'⟩ := h'.kept (h.ext _ _ hu) hp'
    exact ⟨haddr'.trans haddr, hp'', hh'.trans hh⟩
  roots hu hne := (h'.roots (h.ext _ _ hu) hne).trans (h.roots hu hne)
  fresh {u l} hu hnone := by
    cases hmid : tag' u with
    | none => exact h'.fresh hu hmid
    | some l' =>
        have hsame := h'.ext _ _ hmid
        rw [hu] at hsame
        cases hsame
        obtain ⟨hlo, hhi, hzero⟩ := h.fresh hmid hnone
        refine ⟨hlo, hhi, fun hone j hj => ?_⟩
        rw [h'.low hmid (by omega)]
        exact hzero hone j hj
  off hother hne := (h'.off (h.ext _ _ hother) hne).trans (h.off hother hne)
  widened v hother := (h.widened v hother).trans (h'.widened v (h.ext _ _ hother))

/-- What a descent towards `virt` from `pml4` writes to: the PML4, the tables on the way, and the
    frames it takes, which become tables on the way. -/
structure Touched (ownerOf : Word → Nat → Option Word) (pml4 virt : Word)
    (tag : Word → Option Label) (s : Vmm) (tag' : Word → Option Label) (s' : Vmm) : Prop where
  fresh : ∀ {u l}, tag' u = some l → tag u = none → (∃ n ∈ s.pmm.freeSet, u = frameAddr n) ∧
    ∃ level, 1 ≤ level ∧ level ≤ 3 ∧ l = slot ownerOf pml4 virt level
  outside : ∀ {u}, u ≠ pml4 →
    (∀ n ∈ s.pmm.freeSet, n ∉ s'.pmm.freeSet → u ≠ frameAddr n) →
    (∀ level, 1 ≤ level → level ≤ 3 → tag u ≠ some (slot ownerOf pml4 virt level)) →
    s'.mem u = s.mem u

theorem Touched.trans {pml4 virt : Word} {tag' tag'' : Word → Option Label} {s'' : Vmm}
    (h : Touched ownerOf pml4 virt tag s tag' s') (h' : Touched ownerOf pml4 virt tag' s' tag'' s'')
    (grow : Grow ownerOf pml4 virt tag s tag' s') (grow' : Grow ownerOf pml4 virt tag' s' tag'' s'') :
    Touched ownerOf pml4 virt tag s tag'' s'' where
  fresh {u l} hu hnone := by
    cases hmid : tag' u with
    | none =>
        obtain ⟨⟨n, hn, heq⟩, hlabel⟩ := h'.fresh hu hmid
        exact ⟨⟨n, grow.free hn, heq⟩, hlabel⟩
    | some l' =>
        have hsame := grow'.ext _ _ hmid
        rw [hu] at hsame
        cases hsame
        exact h.fresh hmid hnone
  outside {u} hne htaken hpath := by
    rw [h'.outside hne (fun n hn hn' => htaken n (grow.free hn) hn') fun level hlo hhi htag => ?_,
      h.outside hne (fun n hn hn' => htaken n hn fun hn'' => hn' (grow'.free hn'')) hpath]
    -- a frame that has become a table on the way was taken
    cases hold : tag u with
    | none =>
        obtain ⟨⟨n, hn, heq⟩, -⟩ := h.fresh htag hold
        obtain ⟨m, hm, hused, -, heq'⟩ := grow.tagged.frame htag
        obtain rfl := frameAddr_inj (mem_freeSet.1 hn).1 hm (heq.symm.trans heq')
        exact htaken n hn (fun hn'' => hused (grow'.free hn'')) heq
    | some l =>
        have hsame := grow.ext _ _ hold
        rw [htag] at hsame
        cases hsame
        exact hpath level hlo hhi hold

/-- The label of the table that one level of the descent ends in. -/
theorem child_onPath {pml4 virt : Word} (hon : OnPath ownerOf pml4 virt table label i)
    (hl : 2 ≤ label.level) :
    ∃ level, 1 ≤ level ∧ level ≤ 3 ∧ label.child ownerOf table i = slot ownerOf pml4 virt level := by
  cases hon with
  | root => exact ⟨3, by decide, by decide, rfl⟩
  | slot _ k hk =>
      rw [level_slot _ _ (by omega)] at hl
      exact ⟨k, by omega, by omega, child_slot _ _ _ (by omega)⟩

/-- One level of the descent writes to the table it looks in and to a frame it takes. -/
theorem Tagged.touched {pml4 virt : Word} (h : Tagged ownerOf tag s) (ht : tag table = some label)
    (hl : 2 ≤ label.level) (hon : OnPath ownerOf pml4 virt table label i)
    (hok : Memory.getOrCreateTable s table i (pteWritable ||| pteUser) = .ok (s', next)) :
    Touched ownerOf pml4 virt tag s (linked ownerOf tag table label i next) s' := by
  have hi : i < 512 := by
    cases hon with
    | root => exact tableIndex_lt _ _
    | slot _ k _ => exact tableIndex_lt _ _
  have houtside : ∀ {u}, u ≠ pml4 →
      (∀ level, 1 ≤ level → level ≤ 3 → tag u ≠ some (slot ownerOf pml4 virt level)) →
      u ≠ table := by
    rintro u hne hpath rfl
    cases hon with
    | root => exact hne rfl
    | slot _ k hk => exact hpath (k + 1) (by omega) (by omega) ht
  rcases getOrCreateTable_cases hok with ⟨hp, hh, rfl, rfl⟩ | ⟨hp, n, hn, rfl, rfl⟩
  · refine ⟨fun {u l} hu hnone => ?_, fun {u} hne _ hpath => ?_⟩
    · by_cases hnew : u = entryAddr (s.mem table i)
      · rw [hnew, h.child ht hl hi hp hh] at hnone
        cases hnone
      · rw [linked, Function.update_of_ne hnew, hnone] at hu
        cases hu
    · funext j
      exact PhysMem.store_other fun hhit => houtside hne hpath hhit.1
  · refine ⟨fun {u l} hu hnone => ?_, fun {u} hne htaken hpath => ?_⟩
    · by_cases hnew : u = frameAddr n
      · rw [hnew, linked_self] at hu
        obtain rfl := Option.some.inj hu
        exact ⟨⟨n, hn, hnew⟩, child_onPath hon hl⟩
      · rw [linked, Function.update_of_ne hnew, hnone] at hu
        cases hu
    · funext j
      have hfresh : u ≠ frameAddr n := htaken n hn (by simp)
      refine (PhysMem.store_other fun hhit => houtside hne hpath hhit.1).trans ?_
      simp [zeroFrame, hfresh]

/-- One level of the descent. -/
theorem Tagged.grow_linked {pml4 virt : Word} (h : Tagged ownerOf tag s)
    (ht : tag table = some label) (hl : 2 ≤ label.level)
    (hon : OnPath ownerOf pml4 virt table label i)
    (hok : Memory.getOrCreateTable s table i (pteWritable ||| pteUser) = .ok (s', next)) :
    Grow ownerOf pml4 virt tag s (linked ownerOf tag table label i next) s' := by
  have hi : i < 512 := by
    cases hon with
    | root => exact tableIndex_lt _ _
    | slot _ k _ => exact tableIndex_lt _ _
  obtain ⟨htagged, hext⟩ := h.getOrCreateTable ht hl hi hok
  refine ⟨htagged, hext, getOrCreateTable_cr3 hok, ?_, ?_, ?_, ?_, ?_, ?_, ?_, ?_⟩
  · rcases getOrCreateTable_cases hok with ⟨-, -, -, rfl⟩ | ⟨-, n, -, -, rfl⟩
    · exact Finset.Subset.refl _
    · simpa using Finset.erase_subset n s.pmm.freeSet
  · intro hc
    rcases getOrCreateTable_cases hok with ⟨-, -, -, rfl⟩ | ⟨-, n, hn, -, rfl⟩
    · exact hc
    · exact Counted.reserveFrame hc hn
  · intro u l hu hlow
    funext j
    apply h.getOrCreateTable_other hok (by simp [hu])
    rintro ⟨rfl, -⟩
    rw [ht] at hu
    cases hu
    omega
  · intro u l j hu hp
    by_cases hhit : u = table ∧ j = i
    · obtain ⟨rfl, rfl⟩ := hhit
      obtain ⟨hp', hh', -, -, haddr'⟩ := getOrCreateTable_entry hok
      rcases getOrCreateTable_cases hok with ⟨-, hh, hold, -⟩ | ⟨habsent, -⟩
      · exact ⟨haddr'.trans hold, hp', hh'.trans hh.symm⟩
      · rw [hp] at habsent
        cases habsent
    · rw [h.getOrCreateTable_other hok (by simp [hu]) hhit]
      exact ⟨rfl, hp, rfl⟩
  · intro u j hu hne
    apply h.getOrCreateTable_other hok (by simp [hu])
    rintro ⟨rfl, rfl⟩
    rw [ht] at hu
    cases hu
    cases hon with
    | root => exact hne ⟨rfl, rfl⟩
  · intro u l hu hnone
    by_cases hnew : u = next
    · subst hnew
      rw [linked_self] at hu
      cases hu
      have hle := label.level_le
      rw [Label.level_child]
      refine ⟨by omega, by omega, fun _ j hj => ?_⟩
      rcases getOrCreateTable_cases hok with ⟨hp, hh, hold, -⟩ | ⟨-, n, hn, hfresh, hs'⟩
      · rw [hold, h.child ht hl hi hp hh] at hnone
        cases hnone
      · have hne : u ≠ table := by
          rintro rfl
          rw [ht] at hnone
          cases hnone
        rw [hs']
        simp [PhysMem.store_apply, zeroFrame, hne, hj]
    · rw [linked, Function.update_of_ne hnew, hnone] at hu
      cases hu
  · intro other v hother hne
    apply mmuWalk_congr
    intro read hread
    apply h.getOrCreateTable_other hok
    · rcases h.visited_root hother read hread with rfl | ⟨k, -, htag, -⟩
      · simp [hother]
      · simp [htag]
    · rintro ⟨rfl, rfl⟩
      exact hne (h.owner_eq_of_visited hother ht hon hread)
  · intro other v hother
    exact h.mmuWalk_widened ht hl hi hok v hother rfl

theorem Tagged.grow (pml4 virt : Word) (h : Tagged ownerOf tag s) (ht : tag table = some label)
    (hl : 2 ≤ label.level) (hon : OnPath ownerOf pml4 virt table label i)
    (hok : Memory.getOrCreateTable s table i (pteWritable ||| pteUser) = .ok (s', next)) :
    ∃ tag', Grow ownerOf pml4 virt tag s tag' s' ∧ Touched ownerOf pml4 virt tag s tag' s' ∧
      tag' next = some (label.child ownerOf table i) :=
  ⟨_, h.grow_linked ht hl hon hok, h.touched ht hl hon hok, linked_self⟩

/-- The three levels of `vmm_map` and the page table they end in. -/
theorem vmmMap_descend {pml4 virt phys flags : Word} (h : Tagged ownerOf tag s)
    (hcr3 : s.cr3 = pml4) (hroot : tag pml4 = some .root)
    (hok : vmmMap s virt phys flags = .ok s') :
    ∃ tag₃ s₃ pt, Grow ownerOf pml4 virt tag s tag₃ s₃ ∧ Touched ownerOf pml4 virt tag s tag₃ s₃ ∧
      tag₃ pt = some (slot ownerOf pml4 virt 1) ∧
      (∀ mem v, walkPath v = walkPath virt →
        (∀ u l, tag₃ u = some l → 2 ≤ l.level → mem u = s₃.mem u) →
        ∃ e₄ e₃ e₂, mmuWalk mem v 4 pml4 = (((mmuWalk mem v 1 pt).map
            (Translation.through e₂)).map (Translation.through e₃)).map (Translation.through e₄) ∧
          ∀ e ∈ [e₄, e₃, e₂], hasFlag e pteWritable = true ∧ hasFlag e pteUser = true) ∧
      s' = { s₃ with mem := s₃.mem.store pt (ptIndex virt) (phys ||| flags ||| ptePresent) } := by
  unfold vmmMap at hok
  obtain ⟨⟨s₁, pdpt⟩, hok₁, hok⟩ := bind_ok hok
  obtain ⟨⟨s₂, pd⟩, hok₂, hok⟩ := bind_ok hok
  obtain ⟨⟨s₃, pt⟩, hok₃, hok⟩ := bind_ok hok
  have haddr : entryAddr s.cr3 = pml4 := by rw [hcr3, h.entryAddr_eq hroot]
  rw [haddr] at hok₁
  cases hok
  -- the three tables and their labels
  obtain ⟨tag₁, grow₁, touched₁, hpdpt⟩ := h.grow _ virt hroot (by decide) .root hok₁
  replace hpdpt : tag₁ pdpt = some (slot ownerOf pml4 virt 3) := hpdpt
  obtain ⟨tag₂, grow₂, touched₂, hpd⟩ := grow₁.tagged.grow pml4 virt hpdpt
    (by rw [level_slot _ _ (by decide)]; decide) (.slot pdpt 2 (by decide)) hok₂
  replace hpd : tag₂ pd = some (slot ownerOf pml4 virt 2) :=
    hpd.trans (congrArg some (child_slot _ _ _ (by decide)))
  obtain ⟨tag₃, grow₃, touched₃, hpt⟩ := grow₂.tagged.grow pml4 virt hpd
    (by rw [level_slot _ _ (by decide)]) (.slot pd 1 (by decide)) hok₃
  replace hpt : tag₃ pt = some (slot ownerOf pml4 virt 1) :=
    hpt.trans (congrArg some (child_slot _ _ _ (by decide)))
  refine ⟨tag₃, s₃, pt, (grow₁.trans grow₂).trans grow₃,
    (touched₁.trans touched₂ grow₁ grow₂).trans touched₃ (grow₁.trans grow₂) grow₃, hpt,
    fun mem v hpath hmem => ?_, rfl⟩
  simp only [walkPath, List.cons.injEq, and_true] at hpath
  obtain ⟨-, hpath₂, hpath₃, hpath₄⟩ := hpath
  -- the entries on the path survive the later levels
  have hroot₁ := grow₁.ext _ _ hroot
  have hroot₂ := grow₂.ext _ _ hroot₁
  have hroot₃ := grow₃.ext _ _ hroot₂
  have hpdpt₂ := grow₂.ext _ _ hpdpt
  have hpdpt₃ := grow₃.ext _ _ hpdpt₂
  have hpd₃ := grow₃.ext _ _ hpd
  have hne₁ : pml4 ≠ pdpt := by
    rintro rfl
    rw [hpdpt] at hroot₁
    cases hroot₁
  have hne₂ : pml4 ≠ pd := by
    rintro rfl
    rw [hpd] at hroot₂
    cases hroot₂
  have hne₃ : pdpt ≠ pd := by
    rintro rfl
    rw [hpd] at hpdpt₂
    have := congrArg (fun l => l.map Label.level) hpdpt₂
    simp [level_slot] at this
  have e₄ : mem pml4 (tableIndex 39 v) = s₁.mem pml4 (pml4Index virt) := by
    rw [show tableIndex 39 v = pml4Index virt from hpath₄, hmem _ _ hroot₃ (by decide),
      grow₂.tagged.getOrCreateTable_other hok₃ (by simp [hroot₂]) (fun h => hne₂ h.1),
      grow₁.tagged.getOrCreateTable_other hok₂ (by simp [hroot₁]) (fun h => hne₁ h.1)]
  have e₃ : mem pdpt (tableIndex 30 v) = s₂.mem pdpt (pdptIndex virt) := by
    rw [show tableIndex 30 v = pdptIndex virt from hpath₃,
      hmem _ _ hpdpt₃ (by rw [level_slot _ _ (by decide)]; decide),
      grow₂.tagged.getOrCreateTable_other hok₃ (by simp [hpdpt₂]) (fun h => hne₃ h.1)]
  have e₂ : mem pd (tableIndex 21 v) = s₃.mem pd (pdIndex virt) := by
    rw [show tableIndex 21 v = pdIndex virt from hpath₂,
      hmem _ _ hpd₃ (by rw [level_slot _ _ (by decide)])]
  obtain ⟨hp₁, hh₁, hw₁, hu₁, ha₁⟩ := getOrCreateTable_entry hok₁
  obtain ⟨hp₂, hh₂, hw₂, hu₂, ha₂⟩ := getOrCreateTable_entry hok₂
  obtain ⟨hp₃, hh₃, hw₃, hu₃, ha₃⟩ := getOrCreateTable_entry hok₃
  have hdown : ∀ {label : Label} {next entry : Word}, entryAddr entry = next →
      tag₃ next = some label →
      pteAddr entry = next := by
    intro label next entry ha hlabel
    obtain ⟨n, hn, -, -, rfl⟩ := grow₃.tagged.frame hlabel
    exact pteAddr_of_frame hn ha
  have walk₄ := @mmuWalk_down pml4 mem v _ 3 (by decide)
    (e₄ ▸ hp₁) (e₄ ▸ hh₁) (e₄ ▸ hdown ha₁ hpdpt₃)
  have walk₃ := @mmuWalk_down pdpt mem v _ 2 (by decide)
    (e₃ ▸ hp₂) (e₃ ▸ hh₂) (e₃ ▸ hdown ha₂ hpd₃)
  have walk₂ := @mmuWalk_down pd mem v _ 1 (by decide)
    (e₂ ▸ hp₃) (e₂ ▸ hh₃) (e₂ ▸ hdown ha₃ hpt)
  refine ⟨_, _, _, by rw [walk₄, walk₃, walk₂], ?_⟩
  intro e he
  simp only [List.mem_cons, List.not_mem_nil, or_false] at he
  rcases he with rfl | rfl | rfl
  · rw [show mem pml4 (tableIndex (12 + 9 * 3) v) = _ from e₄]
    exact ⟨hw₁, hu₁⟩
  · rw [show mem pdpt (tableIndex (12 + 9 * 2) v) = _ from e₃]
    exact ⟨hw₂, hu₂⟩
  · rw [show mem pd (tableIndex (12 + 9 * 1) v) = _ from e₂]
    exact ⟨hw₃, hu₃⟩

/-- What mapping `virt` to the leaf entry `leaf` in the address space of `pml4` does to the machine:
    the page is translated by `leaf` alone, pages of other owners are translated as before, and the
    other pages keep their place and lose no right. -/
structure Mapped (ownerOf : Word → Nat → Option Word) (pml4 virt leaf : Word)
    (tag : Word → Option Label) (s : Vmm) (tag' : Word → Option Label) (s' : Vmm) : Prop where
  tagged : Tagged ownerOf tag' s'
  ext : Extends tag tag'
  cr3 : s'.cr3 = s.cr3
  free : s'.pmm.freeSet ⊆ s.pmm.freeSet
  counted : s.pmm.Counted → s'.pmm.Counted
  fresh : ∀ {u l}, tag' u = some l → tag u = none → 1 ≤ l.level ∧ l.level ≤ 3
  pages : ∀ {u l}, tag u = some l → l.level = 0 → s'.mem u = s.mem u
  kept : ∀ {u l j}, tag u = some l → 2 ≤ l.level → hasFlag (s.mem u j) ptePresent = true →
    entryAddr (s'.mem u j) = entryAddr (s.mem u j) ∧ hasFlag (s'.mem u j) ptePresent = true ∧
      hasFlag (s'.mem u j) pteHuge = hasFlag (s.mem u j) pteHuge
  roots : ∀ {u j}, tag u = some .root → ¬ (u = pml4 ∧ j = pml4Index virt) →
    s'.mem u j = s.mem u j
  leaves : ∀ {u l j}, tag' u = some l → l.level = 1 → j < 512 →
    (tag u = some l ∧ s'.mem u j = s.mem u j) ∨ s'.mem u j = 0#64 ∨
      (l = slot ownerOf pml4 virt 1 ∧ j = ptIndex virt ∧ s'.mem u j = leaf)
  self : ∀ {v}, walkPath v = walkPath virt →
    translate s'.mem pml4 v = some (leafTranslation v leaf 12)
  off : ∀ {other v}, tag other = some .root →
    ownerOf pml4 (pml4Index virt) ≠ ownerOf other (pml4Index v) →
    translate s'.mem other v = translate s.mem other v
  widened : ∀ {other v}, tag other = some .root →
    ownerOf pml4 (pml4Index virt) ≠ ownerOf other (pml4Index v) ∨ walkPath v ≠ walkPath virt →
    Widened (translate s.mem other v) (translate s'.mem other v)

/-- Well-formedness is a matter of the tables and the allocator, not of CR3. -/
theorem Tagged.switch (h : Tagged ownerOf tag s) (cr3 : Word) :
    Tagged ownerOf tag { s with cr3 := cr3 } :=
  ⟨h.frame, h.child, h.huge, h.free⟩

/-- An entry of a page table can be set to anything. -/
theorem Tagged.store_leaf (h : Tagged ownerOf tag s) (ht : tag table = some label)
    (hl : label.level = 1) (value : Word) :
    Tagged ownerOf tag { s with mem := s.mem.store table i value } := by
  have hsame : ∀ {u l}, tag u = some l → 2 ≤ l.level → ∀ j,
      s.mem.store table i value u j = s.mem u j := by
    intro u l hu hl' j
    apply PhysMem.store_other
    rintro ⟨rfl, -⟩
    rw [ht] at hu
    cases hu
    omega
  refine ⟨h.frame, fun {u l j} hu hl' hj hp hh => ?_, fun {u l j} hu hl' hj hp hh => ?_, h.free⟩
  · simp only [hsame hu hl'] at hp hh ⊢
    exact h.child hu hl' hj hp hh
  · simp only [hsame hu hl'] at hp hh
    exact h.huge hu hl' hj hp hh

/-- `vmm_map` in well-formed tables, with what it writes to. -/
theorem vmmMap_touched {pml4 virt phys flags : Word} (h : Tagged ownerOf tag s)
    (hcr3 : s.cr3 = pml4) (hroot : tag pml4 = some .root)
    (hok : vmmMap s virt phys flags = .ok s') :
    ∃ tag', Mapped ownerOf pml4 virt (phys ||| flags ||| ptePresent) tag s tag' s' ∧
      Touched ownerOf pml4 virt tag s tag' s' := by
  obtain ⟨tag', s₃, pt, grow, touched, hpt, hwalk, rfl⟩ := vmmMap_descend h hcr3 hroot hok
  have hlevel : (slot ownerOf pml4 virt 1).level = 1 := level_slot _ _ (by decide)
  have hpresent : hasFlag (phys ||| flags ||| ptePresent) ptePresent = true := by
    have : hasFlag ptePresent ptePresent = true := by decide
    simp [this]
  have hadr : ∀ {other}, tag other = some .root → pteAddr other = other :=
    fun hother => h.pteAddr_eq hother
  -- the store touches the page table only
  have hother : ∀ {u l}, tag' u = some l → u ≠ pt → ∀ j,
      s₃.mem.store pt (ptIndex virt) (phys ||| flags ||| ptePresent) u j = s₃.mem u j :=
    fun _ hne j => PhysMem.store_other fun hhit => hne hhit.1
  have hne_pt : ∀ {u l}, tag' u = some l → l.level ≠ 1 → u ≠ pt := by
    rintro u l hu hl rfl
    rw [hpt] at hu
    cases hu
    exact hl hlevel
  refine ⟨tag', ⟨grow.tagged.store_leaf hpt hlevel _, grow.ext, grow.cr3, grow.free, grow.counted,
    fun hu hnone => ⟨(grow.fresh hu hnone).1, (grow.fresh hu hnone).2.1⟩, ?_, ?_, ?_, ?_, ?_, ?_,
    ?_⟩, ⟨touched.fresh, ?_⟩⟩
  · intro u l hu hzero
    funext j
    have hu' := grow.ext _ _ hu
    exact (hother hu' (hne_pt hu' (by omega)) j).trans (congrFun (grow.low hu (by omega)) j)
  · intro u l j hu hl hp
    have hu' := grow.ext _ _ hu
    have hkeep := hother hu' (hne_pt hu' (by omega)) j
    simp only [hkeep]
    exact grow.kept hu hp
  · intro u j hu hne
    have hu' := grow.ext _ _ hu
    exact (hother hu' (hne_pt hu' (by decide)) j).trans (grow.roots hu hne)
  · intro u l j hu hone hj
    show _ ∨ _ ∨ _ ∧ _ ∧ s₃.mem.store pt (ptIndex virt) (phys ||| flags ||| ptePresent) u j = _
    by_cases hhit : u = pt ∧ j = ptIndex virt
    · obtain ⟨rfl, rfl⟩ := hhit
      rw [hpt] at hu
      cases hu
      exact .inr (.inr ⟨rfl, rfl, PhysMem.store_same ..⟩)
    · have hkeep : s₃.mem.store pt (ptIndex virt) (phys ||| flags ||| ptePresent) u j =
          s₃.mem u j := PhysMem.store_other hhit
      cases hold : tag u with
      | none => exact .inr (.inl (hkeep.trans ((grow.fresh hu hold).2.2 hone j hj)))
      | some l' =>
          have hsame := grow.ext _ _ hold
          rw [hu] at hsame
          cases hsame
          exact .inl ⟨rfl, hkeep.trans (congrFun (grow.low hold (by omega)) j)⟩
  · intro v hpath
    obtain ⟨e₄, e₃, e₂, hself, hrights⟩ := hwalk
      (s₃.mem.store pt (ptIndex virt) (phys ||| flags ||| ptePresent)) v hpath
      (fun u l hu hl => funext (hother hu (hne_pt hu (by omega))))
    have hindex : tableIndex (12 + 9 * 0) v = ptIndex virt := (List.cons.inj hpath).1
    have hleaf : mmuWalk (s₃.mem.store pt (ptIndex virt) (phys ||| flags ||| ptePresent)) v 1 pt =
        some (leafTranslation v (phys ||| flags ||| ptePresent) 12) := by
      have hread : s₃.mem.store pt (ptIndex virt) (phys ||| flags ||| ptePresent) pt
          (tableIndex (12 + 9 * 0) v) = phys ||| flags ||| ptePresent := by
        rw [hindex, PhysMem.store_same]
      rw [mmuWalk]
      simp only [hread, hpresent]
      rfl
    show mmuWalk _ v 4 (pteAddr pml4) = _
    rw [hadr hroot, hself, hleaf]
    have h₄ := hrights e₄ (by simp)
    have h₃ := hrights e₃ (by simp)
    have h₂ := hrights e₂ (by simp)
    simp [Translation.through, h₄, h₃, h₂]
  · intro other v hroot' hne
    show mmuWalk _ v 4 (pteAddr other) = mmuWalk _ v 4 (pteAddr other)
    rw [hadr hroot', ← grow.off hroot' hne]
    apply mmuWalk_congr
    intro read hread
    apply PhysMem.store_other
    rintro ⟨htable, hindex⟩
    have hpair : read = (pt, ptIndex virt) := Prod.ext htable hindex
    rw [hpair] at hread
    exact hne (grow.tagged.walkPath_eq_of_visited (grow.ext _ _ hroot') hpt hread).1
  · intro other v hroot' hne
    show Widened (mmuWalk _ v 4 (pteAddr other)) (mmuWalk _ v 4 (pteAddr other))
    rw [hadr hroot']
    refine (grow.widened v hroot').trans ?_
    have heq : mmuWalk (s₃.mem.store pt (ptIndex virt) (phys ||| flags ||| ptePresent)) v 4 other =
        mmuWalk s₃.mem v 4 other := by
      apply mmuWalk_congr
      intro read hread
      apply PhysMem.store_other
      rintro ⟨htable, hindex⟩
      have hpair : read = (pt, ptIndex virt) := Prod.ext htable hindex
      rw [hpair] at hread
      obtain ⟨howner, hpath⟩ :=
        grow.tagged.walkPath_eq_of_visited (grow.ext _ _ hroot') hpt hread
      exact hne.elim (fun h => h howner) (fun h => h hpath)
    rw [heq]
    exact .refl _
  · intro u hne htaken hpath
    have hne_table : u ≠ pt := by
      rintro rfl
      cases hold : tag u with
      | none =>
          obtain ⟨⟨n, hn, heq⟩, -⟩ := touched.fresh hpt hold
          obtain ⟨m, hm, hused, -, heq'⟩ := grow.tagged.frame hpt
          obtain rfl := frameAddr_inj (mem_freeSet.1 hn).1 hm (heq.symm.trans heq')
          exact htaken n hn hused heq
      | some l =>
          have hsame := grow.ext _ _ hold
          rw [hpt] at hsame
          cases hsame
          exact hpath 1 (by decide) (by decide) hold
    rw [← touched.outside hne htaken hpath]
    funext j
    exact PhysMem.store_other fun hhit => hne_table hhit.1

/-- `vmm_map` in well-formed tables. -/
theorem vmmMap_spec {pml4 virt phys flags : Word} (h : Tagged ownerOf tag s)
    (hcr3 : s.cr3 = pml4) (hroot : tag pml4 = some .root)
    (hok : vmmMap s virt phys flags = .ok s') :
    ∃ tag', Mapped ownerOf pml4 virt (phys ||| flags ||| ptePresent) tag s tag' s' := by
  obtain ⟨tag', m, -⟩ := vmmMap_touched h hcr3 hroot hok
  exact ⟨tag', m⟩

/-- `vmm_map_in` in well-formed tables, with what it writes to. -/
theorem vmmMapIn_touched {pml4 virt phys flags : Word} (h : Tagged ownerOf tag s)
    (hroot : tag pml4 = some .root) (hok : vmmMapIn s pml4 virt phys flags = .ok s') :
    ∃ tag', Mapped ownerOf pml4 virt (phys ||| flags ||| ptePresent) tag s tag' s' ∧
      Touched ownerOf pml4 virt tag s tag' s' := by
  obtain ⟨s₁, hmap, hs'⟩ := bind_ok hok
  cases hs'
  obtain ⟨tag', m, t⟩ := vmmMap_touched (h.switch pml4) rfl hroot hmap
  exact ⟨tag', ⟨m.tagged.switch _, m.ext, rfl, m.free, m.counted, m.fresh, m.pages, m.kept, m.roots,
    m.leaves, m.self, m.off, m.widened⟩, t.fresh, t.outside⟩

/-- `vmm_map_in` in well-formed tables. -/
theorem vmmMapIn_spec {pml4 virt phys flags : Word} (h : Tagged ownerOf tag s)
    (hroot : tag pml4 = some .root) (hok : vmmMapIn s pml4 virt phys flags = .ok s') :
    ∃ tag', Mapped ownerOf pml4 virt (phys ||| flags ||| ptePresent) tag s tag' s' := by
  obtain ⟨tag', m, -⟩ := vmmMapIn_touched h hroot hok
  exact ⟨tag', m⟩

/-! ### When `vmm_map` returns -/

theorem getOrCreateTable_card
    (hok : getOrCreateTable s table i (pteWritable ||| pteUser) = .ok (s', next)) :
    s.pmm.freeSet.card ≤ s'.pmm.freeSet.card + 1 := by
  rcases getOrCreateTable_cases hok with ⟨-, -, -, rfl⟩ | ⟨-, n, hn, -, rfl⟩
  · exact Nat.le_succ _
  · rw [freeSet_reserveFrame, Finset.card_erase_of_mem hn]
    omega

theorem Tagged.getOrCreateTable_ok (h : Tagged ownerOf tag s) (ht : tag table = some label)
    (hl : 2 ≤ label.level) (hi : i < 512) (hhuge : ∀ owner, label ≠ .node owner [0, 0])
    (hfree : 0 < s.pmm.freeSet.card) :
    ∃ s' next, Memory.getOrCreateTable s table i (pteWritable ||| pteUser) = .ok (s', next) := by
  refine Memory.getOrCreateTable_ok _ (Finset.card_pos.1 hfree)
    (fun n hn => Nat.lt_of_lt_of_le (by decide) (h.free n hn)) fun hp => ?_
  by_contra hh
  rw [Bool.not_eq_false] at hh
  obtain ⟨owner, howner⟩ := h.huge ht hl hi hp hh
  exact hhuge owner howner

/-- With three free frames, `vmm_map` of an address outside the identity map returns. -/
theorem vmmMap_ok {virt : Word} (phys flags : Word) (h : Tagged ownerOf tag s)
    (hroot : tag s.cr3 = some .root) (hfree : 3 ≤ s.pmm.freeSet.card)
    (hvirt : ¬ (pml4Index virt = 0 ∧ pdptIndex virt = 0)) :
    ∃ s', vmmMap s virt phys flags = .ok s' ∧ s.pmm.freeSet.card ≤ s'.pmm.freeSet.card + 3 := by
  obtain ⟨s₁, pdpt, hok₁⟩ := h.getOrCreateTable_ok hroot (by decide) (tableIndex_lt 39 virt)
    (fun owner => by simp) (by omega)
  have hcard₁ := getOrCreateTable_card hok₁
  obtain ⟨tag₁, grow₁, -, hpdpt⟩ := h.grow _ virt hroot (by decide) .root hok₁
  replace hpdpt : tag₁ pdpt = some (slot ownerOf s.cr3 virt 3) := hpdpt
  obtain ⟨s₂, pd, hok₂⟩ := grow₁.tagged.getOrCreateTable_ok hpdpt
    (by rw [level_slot _ _ (by decide)]; decide) (tableIndex_lt 30 virt)
    (fun owner => by simp [slot, walkPath]) (by omega)
  have hcard₂ := getOrCreateTable_card hok₂
  obtain ⟨tag₂, grow₂, -, hpd⟩ := grow₁.tagged.grow s.cr3 virt hpdpt
    (by rw [level_slot _ _ (by decide)]; decide) (.slot pdpt 2 (by decide)) hok₂
  replace hpd : tag₂ pd = some (slot ownerOf s.cr3 virt 2) :=
    hpd.trans (congrArg some (child_slot _ _ _ (by decide)))
  obtain ⟨s₃, pt, hok₃⟩ := grow₂.tagged.getOrCreateTable_ok hpd
    (by rw [level_slot _ _ (by decide)]) (tableIndex_lt 21 virt)
    (fun owner hlabel => by
      simp only [slot, walkPath, List.drop_succ_cons, List.drop_zero, Label.node.injEq,
        List.cons.injEq, and_true] at hlabel
      exact hvirt ⟨hlabel.2.2, hlabel.2.1⟩) (by omega)
  have hcard₃ := getOrCreateTable_card hok₃
  refine ⟨{ s₃ with mem := s₃.mem.store pt (ptIndex virt) (phys ||| flags ||| ptePresent) }, ?_, ?_⟩
  · unfold vmmMap
    rw [h.entryAddr_eq hroot]
    show (Memory.getOrCreateTable s s.cr3 (tableIndex 39 virt) _ >>= _) = _
    rw [hok₁]
    show (Memory.getOrCreateTable s₁ pdpt (tableIndex 30 virt) _ >>= _) = _
    rw [hok₂]
    show (Memory.getOrCreateTable s₂ pd (tableIndex 21 virt) _ >>= _) = _
    rw [hok₃]
    rfl
  · show s.pmm.freeSet.card ≤ s₃.pmm.freeSet.card + 3
    omega

/-- The same for `vmm_map_in`. -/
theorem vmmMapIn_ok {pml4 virt : Word} (phys flags : Word) (h : Tagged ownerOf tag s)
    (hroot : tag pml4 = some .root) (hfree : 3 ≤ s.pmm.freeSet.card)
    (hvirt : ¬ (pml4Index virt = 0 ∧ pdptIndex virt = 0)) :
    ∃ s', vmmMapIn s pml4 virt phys flags = .ok s' ∧
      s.pmm.freeSet.card ≤ s'.pmm.freeSet.card + 3 := by
  obtain ⟨s₁, hmap, hcard⟩ := vmmMap_ok phys flags (h.switch pml4) hroot hfree hvirt
  refine ⟨vmmSwitchAddressSpace s₁ s.cr3, ?_, hcard⟩
  show (vmmMap { s with cr3 := pml4 } virt phys flags >>= _) = _
  rw [hmap]
  rfl

/-! ### `vmm_create_address_space` -/

/-- A copied PML4 entry: accessible from ring 3 if it is present. -/
def shared (entry : Word) : Word :=
  if hasFlag entry ptePresent then entry ||| pteUser else entry

theorem shared_flags (entry : Word) :
    hasFlag (shared entry) ptePresent = hasFlag entry ptePresent ∧
      hasFlag (shared entry) pteHuge = hasFlag entry pteHuge ∧
      (hasFlag entry pteWritable = true → hasFlag (shared entry) pteWritable = true) ∧
      (hasFlag entry pteUser = true → hasFlag (shared entry) pteUser = true) ∧
      entryAddr (shared entry) = entryAddr entry := by
  have hconst : hasFlag pteUser ptePresent = false ∧ hasFlag pteUser pteHuge = false := by decide
  unfold shared
  cases hp : hasFlag entry ptePresent with
  | false => simp [hp]
  | true => simp +contextual [hp, hconst]

/-- The copy loop. -/
theorem copy_loop (newPml4 curPml4 : Word) (mem : PhysMem) :
    forRange 0 numPageLevelEntries (copyPml4Entry newPml4 curPml4) mem = fun u j =>
      if u = newPml4 ∧ j < 512 then shared (mem curPml4 j) else mem u j := by
  have hloop := @forRange_invariant _ (copyPml4Entry newPml4 curPml4)
    (fun i mem' => mem' = fun u j =>
      if u = newPml4 ∧ j < i then shared (mem curPml4 j) else mem u j)
    0 numPageLevelEntries mem (Nat.zero_le _) (by simp)
    (by
      rintro i mem' - - rfl
      funext u j
      have hread : ¬ (curPml4 = newPml4 ∧ i < i) := fun h => Nat.lt_irrefl i h.2
      have hcopied : copyPml4Entry newPml4 curPml4 i (fun u j =>
          if u = newPml4 ∧ j < i then shared (mem curPml4 j) else mem u j) u j =
          if u = newPml4 ∧ j = i then shared (mem curPml4 i) else
            if u = newPml4 ∧ j < i then shared (mem curPml4 j) else mem u j := by
        simp only [copyPml4Entry, PhysMem.store_same, if_neg hread, shared]
        cases hp : hasFlag (mem curPml4 i) ptePresent with
        | false => simp [PhysMem.store_apply]
        | true =>
            simp only [if_true, PhysMem.store_apply]
            by_cases hhit : u = newPml4 ∧ j = i
            · simp [hhit]
            · simp [hhit]
      rw [hcopied]
      by_cases hu : u = newPml4
      · by_cases hj : j = i
        · simp [hu, hj]
        · by_cases hlt : j < i
          · simp [hu, hj, hlt, Nat.lt_succ_of_lt hlt]
          · have : ¬ j < i + 1 := by omega
            simp [hu, hj, hlt, this]
      · simp [hu])
  exact hloop

/-- What creating an address space does when a frame is free: a fresh PML4 shares the loaded one's
    sub-tables, and no existing translation changes. -/
structure Created (tag : Word → Option Label) (s : Vmm) (ownerOf : Word → Nat → Option Word)
    (n : Nat) (s' : Vmm) : Prop where
  tagged : Tagged ownerOf (Function.update tag (frameAddr n) (some .root)) s'
  ext : Extends tag (Function.update tag (frameAddr n) (some .root))
  fresh : tag (frameAddr n) = none
  free : s'.pmm = reserveFrame n s.pmm
  cr3 : s'.cr3 = s.cr3
  entries : ∀ j < 512, s'.mem (frameAddr n) j = shared (s.mem s.cr3 j)
  other : ∀ u, u ≠ frameAddr n → s'.mem u = s.mem u
  off : ∀ {pml4} v, tag pml4 = some .root → translate s'.mem pml4 v = translate s.mem pml4 v
  copied : ∀ v, Widened (translate s.mem s.cr3 v) (translate s'.mem (frameAddr n) v)

/-- `vmm_create_address_space` fails when no frame is free; otherwise, provided that the entries it
    copies have the same owner in the new PML4, it keeps the tables well formed. -/
theorem vmmCreateAddressSpace_spec (h : Tagged ownerOf tag s) (hroot : tag s.cr3 = some .root)
    (hshare : ∀ n ∈ s.pmm.freeSet, ∀ j < 512, hasFlag (s.mem s.cr3 j) ptePresent = true →
      ownerOf s.cr3 j = ownerOf (frameAddr n) j) :
    (s.pmm.freeSet = ∅ ∧ vmmCreateAddressSpace s = (s, 0#64)) ∨
      ∃ n ∈ s.pmm.freeSet, frameAddr n ≠ 0#64 ∧ ∃ s',
        vmmCreateAddressSpace s = (s', frameAddr n) ∧ Created tag s ownerOf n s' := by
  rcases pmmAlloc_spec s.pmm with ⟨hnull, hempty⟩ | ⟨n, hn, -, halloc⟩
  · exact .inl ⟨hempty, by simp [vmmCreateAddressSpace, hnull]⟩
  have hlt := (mem_freeSet.1 hn).1
  have hge := h.free n hn
  have hne : n * pageSize ≠ 0 := Nat.mul_ne_zero (by omega) (by decide)
  have hnone := h.free_unlabelled hn
  have hfresh : frameAddr n ≠ s.cr3 := by
    intro heq
    rw [heq, hroot] at hnone
    cases hnone
  have haddr : frameAddr n ≠ 0#64 := by
    intro heq
    have := congrArg BitVec.toNat heq
    rw [toNat_frameAddr hlt, BitVec.toNat_ofNat] at this
    omega
  have hext : Extends tag (Function.update tag (frameAddr n) (some .root)) := extends_update hnone
  let mem' : PhysMem := fun u j =>
    if u = frameAddr n ∧ j < 512 then shared (s.mem s.cr3 j) else s.mem u j
  have hcreate : vmmCreateAddressSpace s =
      ({ s with pmm := reserveFrame n s.pmm, mem := mem' }, frameAddr n) := by
    simp [vmmCreateAddressSpace, halloc, hne, frameAddr_eq_pointer, h.entryAddr_eq hroot,
      copy_loop, mem']
  have hentries : ∀ j < 512, mem' (frameAddr n) j = shared (s.mem s.cr3 j) := by
    intro j hj
    simp [mem', hj]
  have hother : ∀ u, u ≠ frameAddr n → mem' u = s.mem u := by
    intro u hu
    funext j
    simp [mem', hu]
  have hlabelled : ∀ {u l}, tag u = some l → u ≠ frameAddr n := by
    rintro u l hu rfl
    rw [hnone] at hu
    cases hu
  have htables : ∀ u l, tag u = some l → 1 ≤ l.level → mem' u = s.mem u :=
    fun u l hu _ => hother u (hlabelled hu)
  refine .inr ⟨n, hn, haddr, _, hcreate, ⟨⟨?_, ?_, ?_, ?_⟩, hext, hnone, rfl, rfl, hentries,
    hother, ?_, ?_⟩⟩
  · intro u l hu
    by_cases hnew : u = frameAddr n
    · exact ⟨n, hlt, by simp, hge, hnew⟩
    · rw [Function.update_of_ne hnew] at hu
      obtain ⟨m, hm, hused, hge', rfl⟩ := h.frame hu
      exact ⟨m, hm, by simp [hused], hge', rfl⟩
  · intro u l j hu hl hj hp hh
    by_cases hnew : u = frameAddr n
    · subst hnew
      rw [Function.update_self] at hu
      cases hu
      simp only [hentries j hj, shared_flags] at hp hh ⊢
      have hchild := h.child hroot (by decide) hj hp hh
      simp only [Label.child, hshare n hn j hj hp] at hchild
      exact hext _ _ hchild
    · rw [Function.update_of_ne hnew] at hu
      simp only [hother u hnew] at hp hh ⊢
      exact hext _ _ (h.child hu hl hj hp hh)
  · intro u l j hu hl hj hp hh
    by_cases hnew : u = frameAddr n
    · subst hnew
      rw [Function.update_self] at hu
      cases hu
      simp only [hentries j hj, shared_flags] at hp hh
      exact h.huge hroot (by decide) hj hp hh
    · rw [Function.update_of_ne hnew] at hu
      simp only [hother u hnew] at hp hh
      exact h.huge hu hl hj hp hh
  · intro m hm
    exact h.free m (Finset.mem_of_mem_erase (by simpa using hm))
  · intro pml4 v hpml4
    show mmuWalk mem' v 4 (pteAddr pml4) = mmuWalk s.mem v 4 (pteAddr pml4)
    rw [h.pteAddr_eq hpml4]
    exact h.mmuWalk_root htables hpml4 v
  · intro v
    show Widened (mmuWalk s.mem v 4 (pteAddr s.cr3)) (mmuWalk mem' v 4 (pteAddr (frameAddr n)))
    rw [h.pteAddr_eq hroot, pteAddr_frameAddr hlt]
    have hidx := tableIndex_lt (12 + 9 * 3) v
    have hentry := hentries _ hidx
    obtain ⟨hp', hh', hw', hu', ha'⟩ := shared_flags (s.mem s.cr3 (tableIndex (12 + 9 * 3) v))
    rw [← hentry] at hp' hh' hw' hu' ha'
    cases hp : hasFlag (s.mem s.cr3 (tableIndex (12 + 9 * 3) v)) ptePresent with
    | false =>
        rw [mmuWalk_absent hp, mmuWalk_absent (hp'.trans hp)]
        trivial
    | true =>
        cases hh : hasFlag (s.mem s.cr3 (tableIndex (12 + 9 * 3) v)) pteHuge with
        | true =>
            obtain ⟨owner, hbad⟩ := h.huge hroot (by decide) hidx hp hh
            cases hbad
        | false =>
            have hchild : tag (entryAddr (s.mem s.cr3 (tableIndex (12 + 9 * 3) v))) =
                some (slot ownerOf s.cr3 v 3) := h.child hroot (by decide) hidx hp hh
            obtain ⟨m, hm, -, -, hframe⟩ := h.frame hchild
            rw [mmuWalk_down (by decide) hp hh (pteAddr_of_frame hm hframe),
              mmuWalk_down (by decide) (hp'.trans hp) (hh'.trans hh)
                (pteAddr_of_frame hm (ha'.trans hframe))]
            rw [hframe] at hchild
            rw [h.mmuWalk_slot htables (by decide) hchild]
            exact (Widened.refl _).through hw' hu'

/-! ### Frames behind mapped pages -/

/-- Every page a page table maps is the frame with the page's own label, or lies in a window of
    memory that is mapped on purpose. -/
def OwnedLeaves (ownerOf : Word → Nat → Option Word) (window : Word → Prop)
    (tag : Word → Option Label) (s : Vmm) : Prop :=
  ∀ u l j, tag u = some l → l.level = 1 → j < 512 → hasFlag (s.mem u j) ptePresent = true →
    tag (entryAddr (s.mem u j)) = some (l.child ownerOf u j) ∨ window (entryAddr (s.mem u j))

/-- Mapping a page to a frame with its own label, or into the window, keeps the leaves owned. -/
theorem OwnedLeaves.mapped {window : Word → Prop} {pml4 virt leaf : Word}
    {tag' : Word → Option Label} (hown : OwnedLeaves ownerOf window tag s)
    (m : Mapped ownerOf pml4 virt leaf tag s tag' s')
    (hleaf : tag (entryAddr leaf) = some (slot ownerOf pml4 virt 0) ∨ window (entryAddr leaf)) :
    OwnedLeaves ownerOf window tag' s' := by
  intro u l j hu hl hj hp
  rcases m.leaves hu hl hj with ⟨hold, hsame⟩ | hzero | ⟨rfl, rfl, hnew⟩
  · rw [hsame] at hp ⊢
    exact (hown _ _ _ hold hl hj hp).imp_left (m.ext _ _)
  · rw [hzero, hasFlag_zero] at hp
    cases hp
  · rw [hnew]
    refine hleaf.imp_left fun h => ?_
    rw [m.ext _ _ h, ← @child_slot _ pml4 virt u 0 (by decide)]
    rfl

/-- Labelling a free frame as a page keeps the leaves owned. -/
theorem OwnedLeaves.label_page {window : Word → Prop} (hown : OwnedLeaves ownerOf window tag s)
    (h : Tagged ownerOf tag s) {n : Nat} (hn : n ∈ s.pmm.freeSet) (hlevel : label.level = 0) :
    OwnedLeaves ownerOf window (Function.update tag (frameAddr n) (some label))
      { s with pmm := reserveFrame n s.pmm } := by
  intro u l j hu hl hj hp
  by_cases hnew : u = frameAddr n
  · rw [hnew, Function.update_self] at hu
    cases hu
    omega
  · rw [Function.update_of_ne hnew] at hu
    exact (hown _ _ _ hu hl hj hp).imp_left (extends_update (h.free_unlabelled hn) _ _)

end Labelled

end CustomKernel.Memory
