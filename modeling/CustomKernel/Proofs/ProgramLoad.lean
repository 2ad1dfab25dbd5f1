/-
Module: CustomKernel.Proofs.ProgramLoad
Layer: Proofs
Purpose: Loading a program, whatever its program headers say. The loader maps fresh frames and
  stores through the new address space. A store that wraps around the address space would have to
  pass the topmost page, which is never mapped, or the addresses the processor refuses; so a load
  that comes back has stored to its own fresh pages and to pages of the kernel heap, and to no table.
Imports: CustomKernel.Filesystem.Elf, CustomKernel.Proofs.PageTree, CustomKernel.Proofs.HeapCalls
Trusted boundary: none (fully proved)
Main exports: LoadTree, storeBytes_canonical, segment_pages, LoadTree.storeBytes, LoadRule,
  LoadState.segments, createElfAddressSpace_load
-/
import CustomKernel.Filesystem.Elf
import CustomKernel.Proofs.PageTree
import CustomKernel.Proofs.HeapCalls

namespace CustomKernel.Memory

open Loops

/-! ### Walks of the same page -/

/-- What a translation has of the page, not of the address in it. -/
def Translation.entry (tr : Translation) : Word × Bool × Bool := (tr.leaf, tr.writable, tr.user)

/-- Addresses in one page are translated by the same entry, with the same rights. -/
theorem mmuWalk_samePage {mem : PhysMem} {v w : Word} (h : walkPath v = walkPath w) :
    ∀ (level : Nat) (table : Word), level ≤ 4 →
      (mmuWalk mem v level table).map Translation.entry =
        (mmuWalk mem w level table).map Translation.entry
  | 0, _, _ => rfl
  | level + 1, table, hle => by
      have hindex : tableIndex (12 + 9 * level) v = tableIndex (12 + 9 * level) w := by
        simp only [walkPath, List.cons.injEq, and_true] at h
        have hcases : level = 0 ∨ level = 1 ∨ level = 2 ∨ level = 3 := by omega
        rcases hcases with rfl | rfl | rfl | rfl
        · exact h.1
        · exact h.2.1
        · exact h.2.2.1
        · exact h.2.2.2
      have hrec := @mmuWalk_samePage mem _ _ h level
        (pteAddr (mem table (tableIndex (12 + 9 * level) w))) (by omega)
      rw [mmuWalk, mmuWalk, hindex]
      split
      · rfl
      · split
        · rfl
        · split
          · split <;> rfl
          · -- the rights of a table entry are added to those found below it
            generalize mem table (tableIndex (12 + 9 * level) w) = entry at hrec ⊢
            have hthrough : Translation.entry ∘ Translation.through entry =
                (fun e => (e.1, hasFlag entry pteWritable && e.2.1, hasFlag entry pteUser && e.2.2)) ∘
                  Translation.entry := rfl
            simp only [Option.map_map, hthrough]
            rw [← Option.map_map, ← Option.map_map, hrec]

theorem translate_entry_samePage {mem : PhysMem} {pml4 v w : Word} (h : walkPath v = walkPath w) :
    (translate mem pml4 v).map Translation.entry = (translate mem pml4 w).map Translation.entry :=
  mmuWalk_samePage h 4 _ (Nat.le_refl 4)

theorem translate_samePage {mem : PhysMem} {pml4 v w : Word} (h : walkPath v = walkPath w) :
    (translate mem pml4 v).map Translation.leaf = (translate mem pml4 w).map Translation.leaf := by
  have hentry := congrArg (Option.map Prod.fst) (@translate_entry_samePage mem pml4 _ _ h)
  rw [Option.map_map, Option.map_map] at hentry
  exact hentry

/-! ### The rules of the two loops -/

/-- The loop over fresh pages keeps what every page keeps (`P`); what holds once a page is mapped and
    is kept by the others (`Q`) holds of every page if the loop gets through. -/
theorem mapFreshPages_each {pml4 flags : Word} {virt : Nat → Word} (P : Vmm → Prop)
    (Q : Nat → Vmm → Prop) (hpos : ∀ s, P s → 0 ∉ s.pmm.freeSet) :
    ∀ (count i : Nat) (s : Vmm) (out : FreshPages),
      (∀ k, i ≤ k → k < i + count → ∀ t n t', P t → n ∈ t.pmm.freeSet →
        vmmMapIn { t with pmm := reserveFrame n t.pmm } pml4 (virt k) (frameAddr n) flags = .ok t' →
        P t' ∧ Q k t' ∧ ∀ j, Q j t → Q j t') →
      P s → mapFreshPages pml4 virt flags count i s = .ok out →
      P out.vmm ∧ (∀ j, Q j s → Q j out.vmm) ∧
        (out.complete = true → ∀ k, i ≤ k → k < i + count → Q k out.vmm)
  | 0, i, s, out, hstep, hs, hok => by
      cases hok
      exact ⟨hs, fun _ hj => hj, fun _ k hlo hhi => absurd hlo (by omega)⟩
  | count + 1, i, s, out, hstep, hs, hok => by
      unfold mapFreshPages at hok
      rcases pmmAlloc_spec s.pmm with ⟨hnull, -⟩ | ⟨n, hn, -, halloc⟩
      · simp only [hnull, if_true] at hok
        cases hok
        exact ⟨hs, fun _ hj => hj, fun hc => by cases hc⟩
      · have hne : n * pageSize ≠ 0 :=
          Nat.mul_ne_zero (fun hzero => hpos s hs (hzero ▸ hn)) (by decide)
        simp only [halloc, hne, if_false, frameAddr_eq_pointer] at hok
        obtain ⟨s₁, hmap, hok⟩ := bind_ok hok
        obtain ⟨rest, hrest, hout⟩ := bind_ok hok
        cases hout
        obtain ⟨hs₁, hfirst, hkeep⟩ := hstep i (Nat.le_refl i) (by omega) s n s₁ hs hn hmap
        obtain ⟨hP, hQ, hall⟩ := mapFreshPages_each P Q hpos count (i + 1) s₁ rest
          (fun k hlo hhi => hstep k (by omega) (by omega)) hs₁ hrest
        refine ⟨hP, fun j hj => hQ j (hkeep j hj), fun hc k hlo hhi => ?_⟩
        by_cases hki : k = i
        · subst hki
          exact hQ k hfirst
        · exact hall hc k (by omega) (by omega)

/-- What every fresh page keeps, the loop over the pages keeps. -/
theorem mapFreshPages_invariant {pml4 flags : Word} {virt : Nat → Word} (P : Vmm → Prop)
    (hpos : ∀ s, P s → 0 ∉ s.pmm.freeSet) {count i : Nat} {s : Vmm} {out : FreshPages}
    (hstep : ∀ k, i ≤ k → k < i + count → ∀ t n t', P t → n ∈ t.pmm.freeSet →
      vmmMapIn { t with pmm := reserveFrame n t.pmm } pml4 (virt k) (frameAddr n) flags = .ok t' →
      P t')
    (hs : P s) (hok : mapFreshPages pml4 virt flags count i s = .ok out) : P out.vmm :=
  (mapFreshPages_each P (fun _ _ => True) hpos count i s out
    (fun k hlo hhi t n t' ht hn hmap => ⟨hstep k hlo hhi t n t' ht hn hmap, trivial,
      fun _ _ => trivial⟩) hs hok).1

/-- A store that comes back was to addresses the processor accepts. -/
theorem storeBytes_canonical : ∀ (bytes : List (BitVec 8)) (v : Word) (s s' : Vmm),
    storeBytes v bytes s = .ok s' → ∀ z < bytes.length, Canonical (v + BitVec.ofNat 64 z)
  | [], v, s, s', hok, z, hz => by cases hz
  | byte :: bytes, v, s, s', hok, z, hz => by
      obtain ⟨s₁, hfirst, hrest⟩ := bind_ok hok
      cases z with
      | zero =>
          rw [BitVec.add_zero]
          unfold storeByte at hfirst
          split at hfirst
          · cases hfirst
          · rename_i hcanon
            exact not_not.1 hcanon
      | succ z =>
          have hz' := storeBytes_canonical bytes (v + 1#64) s₁ s' hrest z (Nat.lt_of_succ_lt_succ hz)
          have hsum : v + BitVec.ofNat 64 (z + 1) = v + 1#64 + BitVec.ofNat 64 z := by
            rw [BitVec.add_assoc, Nat.add_comm, BitVec.ofNat_add]
          rw [hsum]
          exact hz'

/-! ### The tables while a program is loaded -/

/-- The last page of the address space. -/
def topPage : Word := 0xFFFFFFFFFFFFF000#64

/-- The tables while a program is loaded into the new address space of `pml4`, which maps frames
    taken for its own pages. -/
structure LoadTree (image : BootImage) (window : Word → Prop) (pml4 : Word)
    (tag : Word → Option Label) (s : Vmm) : Prop extends PageTree image window tag s where
  root : tag pml4 = some .root
  leaves : LeavesOf (some pml4) tag s

section Load

variable {image : BootImage} {window : Word → Prop} {tag tag' : Word → Option Label} {s s' : Vmm}
  {pml4 virt : Word}

theorem PageTree.zero_notMem (h : PageTree image window tag s) : 0 ∉ s.pmm.freeSet := fun hzero => by
  have := h.tagged.free 0 hzero
  omega

/-- A page mapped to a fresh frame. -/
theorem LoadTree.map_fresh {n : Nat} {flags : Word} (h : LoadTree image window pml4 tag s)
    (hn : n ∈ s.pmm.freeSet) (hflags : entryAddr flags = 0#64)
    (hok : vmmMapIn { s with pmm := reserveFrame n s.pmm } pml4 virt (frameAddr n) flags = .ok s') :
    ∃ tag', LoadTree image window pml4 tag' s' ∧ FreshMapped pml4 virt flags n tag s tag' s' := by
  obtain ⟨tag', htree, m⟩ := h.toPageTree.map_fresh h.root hn hflags hok
  have hnone := h.tagged.free_unlabelled hn
  have hlevel : (slot privateOwner pml4 virt 0).level = 0 := level_slot _ _ (by decide)
  refine ⟨tag', ⟨htree, m.mapped.ext _ _ (extends_update hnone _ _ h.root), ?_⟩, m⟩
  refine (h.leaves.label_page h.tagged hn hlevel).mapped m.mapped fun _ => ?_
  rw [fresh_leaf hn hflags, Function.update_self]

/-- The labels there were stay. -/
theorem FreshMapped.ext {n : Nat} {flags : Word} (h : Tagged privateOwner tag s)
    (hn : n ∈ s.pmm.freeSet) (m : FreshMapped pml4 virt flags n tag s tag' s') : Extends tag tag' :=
  (extends_update (h.free_unlabelled hn)).trans m.mapped.ext

/-- The addresses a load can store to: beyond the identity map, below the topmost page. -/
def Loadable (v : Word) : Prop := 2 ^ 30 ≤ v.toNat ∧ Canonical v

theorem Loadable.index {v : Word} (h : Loadable v) : ¬ (pml4Index v = 0 ∧ pdptIndex v = 0) := by
  obtain ⟨hlo, hcanon⟩ := h
  have hlt := v.isLt
  simp only [pml4Index, pdptIndex, tableIndex_eq]
  unfold Canonical at hcanon
  omega

/-- What such an address is translated to: the frame with the label of its page. -/
theorem LoadTree.translate (h : LoadTree image window pml4 tag s) {v : Word} (hv : Loadable v)
    {tr : Translation} (htr : Memory.translate s.mem pml4 v = some tr) :
    tag (entryAddr tr.leaf) = some (slot privateOwner pml4 v 0) ∧
      tr.phys = (leafTranslation v tr.leaf 12).phys := by
  obtain ⟨pt, hpt, hleaf, hpresent, hphys⟩ := h.tagged.translate_leaf h.root hv.index htr
  refine ⟨?_, hphys⟩
  rw [hleaf] at hpresent ⊢
  have hlevel : (slot privateOwner pml4 v 1).level = 1 := level_slot _ _ (by decide)
  have hidx : ptIndex v < 512 := tableIndex_lt _ _
  cases howner : privateOwner pml4 (pml4Index v) with
  | none =>
      rw [slot, howner] at hpt hlevel ⊢
      exact h.common pt _ (ptIndex v) hpt hlevel hidx hpresent
  | some p =>
      obtain rfl := privateOwner_some howner
      rw [slot, howner] at hpt hlevel ⊢
      exact h.leaves pt _ (ptIndex v) hpt hlevel hidx hpresent

/-- The frame behind such an address. -/
theorem LoadTree.translate_frame (h : LoadTree image window pml4 tag s) {v : Word} (hv : Loadable v)
    {tr : Translation} (htr : Memory.translate s.mem pml4 v = some tr) :
    tag (entryAddr tr.phys) = some (slot privateOwner pml4 v 0) := by
  obtain ⟨hlabel, hphys⟩ := h.translate hv htr
  obtain ⟨n, hn, -, -, heq⟩ := h.tagged.frame hlabel
  have hlt : n < 65536 := hn
  rw [hphys, entryAddr_leaf_phys (by rw [heq, toNat_frameAddr hn]; omega)]
  exact hlabel

/-- Writing to the page of `v` changes no table. -/
theorem LoadTree.write_page (h : LoadTree image window pml4 tag s) {v frame : Word}
    (hframe : tag frame = some (slot privateOwner pml4 v 0)) {mem : PhysMem}
    (hmem : ∀ u, u ≠ frame → mem u = s.mem u) :
    LoadTree image window pml4 tag { s with mem := mem } ∧
      ∀ other w, tag other = some .root →
        Memory.translate mem other w = Memory.translate s.mem other w := by
  have hsame : ∀ u l, tag u = some l → 1 ≤ l.level → mem u = s.mem u := by
    intro u l hu hl
    refine hmem u ?_
    rintro rfl
    rw [hframe] at hu
    cases hu
    rw [level_slot _ _ (by decide)] at hl
    omega
  refine ⟨⟨h.toPageTree.of_tables hsame, h.root, h.leaves.of_tables hsame⟩, fun other w hother => ?_⟩
  show mmuWalk _ _ 4 (pteAddr _) = mmuWalk _ _ 4 (pteAddr _)
  rw [h.tagged.pteAddr_eq hother]
  exact h.tagged.mmuWalk_root hsame hother w

/-- What storing `n` bytes from `v` on does: it stays below the topmost page, changes no
    translation, and writes to the pages of the addresses it stores to. -/
structure Stored (image : BootImage) (window : Word → Prop) (pml4 : Word)
    (tag : Word → Option Label) (v : Word) (n : Nat) (s s' : Vmm) : Prop where
  tree : LoadTree image window pml4 tag s'
  pmm : s'.pmm = s.pmm
  cr3 : s'.cr3 = s.cr3
  below : n ≠ 0 → v.toNat + n ≤ 2 ^ 64 - 4096
  canonical : ∀ z < n, Canonical (v + BitVec.ofNat 64 z)
  translate : ∀ other w, tag other = some .root →
    Memory.translate s'.mem other w = Memory.translate s.mem other w
  outside : ∀ u, (∀ z < n, tag u ≠ some (slot privateOwner pml4 (v + BitVec.ofNat 64 z) 0)) →
    s'.mem u = s.mem u

/-- A byte in the topmost page cannot be stored. -/
theorem below_topPage {mem : PhysMem} {v : Word} {tr : Translation}
    (htop : Memory.translate mem pml4 topPage = none)
    (htr : Memory.translate mem pml4 v = some tr) : v.toNat < 2 ^ 64 - 4096 := by
  by_contra hge
  have hlt := v.isLt
  have hpath : walkPath v = walkPath topPage := by
    rw [walkPath_eq_iff, topPage, BitVec.toNat_ofNat]
    omega
  have hsame := @translate_samePage mem pml4 _ _ hpath
  rw [htr, htop] at hsame
  cases hsame

/-- One byte. -/
theorem LoadTree.storeByte (h : LoadTree image window pml4 tag s) (hcr3 : s.cr3 = pml4)
    (htop : Memory.translate s.mem pml4 topPage = none) {v : Word} (hv : 2 ^ 30 ≤ v.toNat)
    {byte : BitVec 8} (hok : Memory.storeByte s v byte = .ok s') :
    Stored image window pml4 tag v 1 s s' := by
  unfold Memory.storeByte at hok
  split at hok
  · cases hok
  rename_i hcanon
  cases htr : Memory.translate s.mem s.cr3 v with
  | none =>
      rw [htr] at hok
      cases hok
  | some tr =>
      rw [htr] at hok
      cases hok
      rw [hcr3] at htr
      have hframe := h.translate_frame ⟨hv, not_not.1 hcanon⟩ htr
      have hmem : ∀ u, u ≠ entryAddr tr.phys → s.mem.storeByte tr.phys byte u = s.mem u := by
        intro u hu
        funext j
        exact PhysMem.store_other fun hhit => hu hhit.1
      obtain ⟨htree, hsame⟩ := h.write_page hframe hmem
      have hbelow := below_topPage htop htr
      refine ⟨htree, rfl, rfl, fun _ => by omega, fun z hz => ?_, hsame, fun u hu => hmem u ?_⟩
      · obtain rfl : z = 0 := by omega
        rw [BitVec.add_zero]
        exact not_not.1 hcanon
      rintro rfl
      refine hu 0 (by decide) ?_
      rw [BitVec.add_zero]
      exact hframe

/-- A run of bytes. -/
theorem LoadTree.storeBytes : ∀ (bytes : List (BitVec 8)) (v : Word) (s s' : Vmm),
    LoadTree image window pml4 tag s → s.cr3 = pml4 →
    Memory.translate s.mem pml4 topPage = none → 2 ^ 30 ≤ v.toNat →
    Memory.storeBytes v bytes s = .ok s' → Stored image window pml4 tag v bytes.length s s'
  | [], v, s, s', h, hcr3, htop, hv, hok => by
      cases hok
      exact ⟨h, rfl, rfl, fun hne => absurd rfl hne, fun z hz => absurd hz (Nat.not_lt_zero z),
        fun _ _ _ => rfl, fun _ _ => rfl⟩
  | byte :: bytes, v, s, s', h, hcr3, htop, hv, hok => by
      obtain ⟨s₁, hfirst, hrest⟩ := bind_ok hok
      have first := h.storeByte hcr3 htop hv hfirst
      have hbelow := first.below (by decide)
      have hnext : (v + 1#64).toNat = v.toNat + 1 := by
        rw [BitVec.toNat_add, BitVec.toNat_ofNat]
        omega
      have rest := LoadTree.storeBytes bytes (v + 1#64) s₁ s' first.tree (first.cr3.trans hcr3)
        (by rw [first.translate _ _ h.root, htop]) (by omega) hrest
      refine ⟨rest.tree, rest.pmm.trans first.pmm, rest.cr3.trans first.cr3, fun _ => ?_,
        storeBytes_canonical (byte :: bytes) v s s' hok, fun other w hother => ?_, fun u hu => ?_⟩
      · rw [List.length_cons]
        by_cases hempty : bytes.length = 0
        · omega
        · have := rest.below hempty
          omega
      · rw [rest.translate other w hother, first.translate other w hother]
      · rw [rest.outside u fun z hz => ?_, first.outside u fun z hz => hu z (by simp; omega)]
        have hz' := hu (z + 1) (by rw [List.length_cons]; omega)
        have hsum : v + BitVec.ofNat 64 (z + 1) = v + 1#64 + BitVec.ofNat 64 z := by
          rw [BitVec.add_assoc, Nat.add_comm, BitVec.ofNat_add]
        rwa [hsum] at hz'

end Load

end CustomKernel.Memory

namespace CustomKernel.Filesystem

open CustomKernel.Memory CustomKernel.Syscall Loops

/-! ### The addresses of a segment -/

/-- A run of addresses the processor accepts is not longer than both halves. -/
theorem canonical_run {v : Word} {n : Nat}
    (h : ∀ z < n, Canonical (v + BitVec.ofNat 64 z)) : n ≤ 2 ^ 48 := by
  by_contra hlong
  have hlt := v.isLt
  have hat : ∀ z < 2 ^ 64, (v + BitVec.ofNat 64 z).toNat = (v.toNat + z) % 2 ^ 64 := by
    intro z hz
    rw [BitVec.toNat_add, BitVec.toNat_ofNat, Nat.mod_eq_of_lt hz]
  have hfirst := h 0 (by omega)
  unfold Canonical at hfirst h
  rw [hat 0 (by omega)] at hfirst
  -- the first address behind the half that `v` lies in
  rcases hfirst with hlow | hhigh
  · have hbad := h (2 ^ 47 - v.toNat) (by omega)
    rw [hat _ (by omega)] at hbad
    omega
  · have hbad := h (2 ^ 64 - v.toNat + 2 ^ 47) (by omega)
    rw [hat _ (by omega)] at hbad
    omega

/-- The pages of a segment whose bytes the processor accepts: they do not wrap around. -/
theorem segment_pages {phdr : Phdr} (hmem : phdr.pMemsz.toNat ≠ 0)
    (hcanon : ∀ z < phdr.pMemsz.toNat, Canonical (phdr.pVaddr + BitVec.ofNat 64 z)) {k : Nat}
    (hk : k < brkPages phdr.vstart phdr.vend) :
    phdr.pVaddr.toNat + phdr.pMemsz.toNat < 2 ^ 64 - 4095 ∧
      (sbrkPage phdr.vstart k).toNat = phdr.vstart.toNat + k * 4096 ∧
      Canonical (sbrkPage phdr.vstart k) ∧
      walkPath (sbrkPage phdr.vstart k) ≠ walkPath topPage := by
  have hlong := canonical_run hcanon
  have hp := phdr.pVaddr.isLt
  have hstart : phdr.vstart.toNat = phdr.pVaddr.toNat / 4096 * 4096 := toNat_entryAddr _
  have hend : phdr.vend.toNat =
      ((phdr.pVaddr.toNat + phdr.pMemsz.toNat) % 2 ^ 64 + 4095) % 2 ^ 64 / 4096 * 4096 := by
    have hmask : phdr.vend = entryAddr (phdr.pVaddr + phdr.pMemsz + 0xFFF#64) := rfl
    rw [hmask, toNat_entryAddr, BitVec.toNat_add, BitVec.toNat_add, BitVec.toNat_ofNat]
  rw [brkPages, hstart, hend, show pageSize = 4096 from rfl] at hk
  have hfit : phdr.pVaddr.toNat + phdr.pMemsz.toNat < 2 ^ 64 - 4095 := by omega
  have hpage : (sbrkPage phdr.vstart k).toNat = phdr.vstart.toNat + k * 4096 := by
    show (phdr.vstart + BitVec.ofNat 64 (k * 4096)).toNat = _
    rw [BitVec.toNat_add, BitVec.toNat_ofNat, hstart]
    omega
  -- every page holds a byte of the segment
  have hbyte := hcanon (phdr.vstart.toNat + k * 4096 - phdr.pVaddr.toNat) (by omega)
  have hat : (phdr.pVaddr + BitVec.ofNat 64
      (phdr.vstart.toNat + k * 4096 - phdr.pVaddr.toNat)).toNat =
        phdr.pVaddr.toNat + (phdr.vstart.toNat + k * 4096 - phdr.pVaddr.toNat) := by
    rw [BitVec.toNat_add, BitVec.toNat_ofNat]
    omega
  have hcanonical : Canonical (sbrkPage phdr.vstart k) := by
    unfold Canonical at hbyte ⊢
    rw [hat] at hbyte
    rw [hpage]
    omega
  refine ⟨hfit, hpage, hcanonical, ?_⟩
  rw [Ne, walkPath_eq_iff, hpage, topPage, BitVec.toNat_ofNat]
  unfold Canonical at hcanonical
  rw [hpage] at hcanonical
  omega

/-! ### Segments -/

/-- What keeps a property of the labelled machine while a program is loaded: fresh pages at addresses
    with `A`, stores that start in a page with `A`, and switches of the address space. -/
structure LoadRule (image : BootImage) (window : Word → Prop) (pml4 : Word) (A : Word → Prop)
    (P : (Word → Option Label) → Vmm → Prop) : Prop where
  map : ∀ {tag tag' s s' virt n}, LoadTree image window pml4 tag s → P tag s → A virt →
    n ∈ s.pmm.freeSet → LoadTree image window pml4 tag' s' →
    FreshMapped pml4 virt userPage n tag s tag' s' → P tag' s'
  store : ∀ {tag s s' v n}, LoadTree image window pml4 tag s → P tag s → 2 ^ 30 ≤ v.toNat →
    A (entryAddr v) → Stored image window pml4 tag v n s s' → P tag s'
  switch : ∀ {tag s} cr3, P tag s → P tag (vmmSwitchAddressSpace s cr3)

/-- The state of a load: the tables, the property, and nothing at the top. -/
structure LoadState (image : BootImage) (window : Word → Prop) (pml4 : Word)
    (P : (Word → Option Label) → Vmm → Prop) (tag₀ : Word → Option Label) (cr3 : Word)
    (tag : Word → Option Label) (s : Vmm) : Prop where
  tree : LoadTree image window pml4 tag s
  prop : P tag s
  ext : Extends tag₀ tag
  cr3 : s.cr3 = cr3

section Segments

variable {image : BootImage} {window : Word → Prop} {pml4 cr3 : Word} {A : Word → Prop}
  {P : (Word → Option Label) → Vmm → Prop} {tag₀ tag : Word → Option Label} {s : Vmm}

/-- A fresh page. -/
theorem LoadState.map (rule : LoadRule image window pml4 A P)
    (h : LoadState image window pml4 P tag₀ cr3 tag s) {virt : Word} (hA : A virt) {n : Nat}
    (hn : n ∈ s.pmm.freeSet) {s' : Vmm}
    (hok : vmmMapIn { s with pmm := reserveFrame n s.pmm } pml4 virt (frameAddr n) userPage =
      .ok s') :
    ∃ tag', LoadState image window pml4 P tag₀ cr3 tag' s' ∧
      FreshMapped pml4 virt userPage n tag s tag' s' := by
  obtain ⟨tag', htree, m⟩ := h.tree.map_fresh hn (by decide) hok
  exact ⟨tag', ⟨htree, rule.map h.tree h.prop hA hn htree m,
    h.ext.trans (m.ext h.tree.tagged hn), (vmmMapIn_cr3 hok).trans h.cr3⟩, m⟩

/-- A loop over fresh pages. The topmost page stays unmapped if it is none of them. -/
theorem LoadState.pages (rule : LoadRule image window pml4 A P)
    (h : LoadState image window pml4 P tag₀ cr3 tag s) {virt : Nat → Word} {count : Nat}
    (hA : ∀ k < count, A (virt k)) {out : FreshPages}
    (hok : mapFreshPages pml4 virt userPage count 0 s = .ok out) :
    ∃ tag', LoadState image window pml4 P tag₀ cr3 tag' out.vmm ∧
      ((∀ k < count, walkPath (virt k) ≠ walkPath topPage) →
        translate s.mem pml4 topPage = none → translate out.vmm.mem pml4 topPage = none) := by
  have hloop := mapFreshPages_invariant
    (fun t => ∃ tag', LoadState image window pml4 P tag₀ cr3 tag' t ∧
      ((∀ k < count, walkPath (virt k) ≠ walkPath topPage) →
        translate s.mem pml4 topPage = none → translate t.mem pml4 topPage = none))
    (fun t ht => by
      obtain ⟨tag', ht, -⟩ := ht
      exact ht.tree.zero_notMem)
    (fun k _ hk t n t' ht hn hmap => by
      obtain ⟨tag₁, ht, htop⟩ := ht
      obtain ⟨tag₂, ht', m⟩ := ht.map rule (hA k (by omega)) hn hmap
      refine ⟨tag₂, ht', fun hpages hnone => ?_⟩
      have hroot := @extends_update _ _ (slot privateOwner pml4 (virt k) 0)
        (ht.tree.tagged.free_unlabelled hn) _ _ ht.tree.root
      have hwide : Widened (translate t.mem pml4 topPage) (translate t'.mem pml4 topPage) :=
        m.mapped.widened hroot (.inr (hpages k (by omega)).symm)
      rw [htop hpages hnone] at hwide
      exact hwide.eq_none)
    ⟨tag, h, fun _ hnone => hnone⟩ hok
  exact hloop

/-- A run of stores into a page with `A`. -/
theorem LoadState.store (rule : LoadRule image window pml4 A P)
    (h : LoadState image window pml4 P tag₀ pml4 tag s)
    (htop : translate s.mem pml4 topPage = none) {v : Word} (hv : 2 ^ 30 ≤ v.toNat)
    (hA : A (entryAddr v)) {bytes : List (BitVec 8)} {s' : Vmm}
    (hok : storeBytes v bytes s = .ok s') :
    LoadState image window pml4 P tag₀ pml4 tag s' ∧ translate s'.mem pml4 topPage = none ∧
      Stored image window pml4 tag v bytes.length s s' := by
  have stored := LoadTree.storeBytes bytes v s s' h.tree h.cr3 htop hv hok
  exact ⟨⟨stored.tree, rule.store h.tree h.prop hv hA stored, h.ext, stored.cr3.trans h.cr3⟩,
    (stored.translate _ _ h.tree.root).trans htop, stored⟩

/-- The first page of a segment that was stored to lies beyond the identity map: `vmm_map` does not
    map pages of the identity map, and a segment without pages has no address to store to. -/
theorem segment_start {phdr : Phdr} (h : LoadTree image window pml4 tag s)
    (htop : translate s.mem pml4 topPage = none) (hmem : phdr.pMemsz.toNat ≠ 0)
    (hcanon : ∀ z < phdr.pMemsz.toNat, Canonical (phdr.pVaddr + BitVec.ofNat 64 z))
    {out : FreshPages}
    (hmap : mapFreshPages pml4 (sbrkPage phdr.vstart) userPage
      (brkPages phdr.vstart phdr.vend) 0 s = .ok out) (hcomplete : out.complete = true)
    {s' : Vmm} {bytes : List (BitVec 8)} (hbytes : bytes.length = phdr.pMemsz.toNat)
    (hstore : storeBytes phdr.pVaddr bytes (vmmSwitchAddressSpace out.vmm pml4) = .ok s') :
    0 < brkPages phdr.vstart phdr.vend ∧ 2 ^ 30 ≤ phdr.pVaddr.toNat := by
  have hstart : phdr.vstart.toNat = phdr.pVaddr.toNat / 4096 * 4096 := toNat_entryAddr _
  have hfirst : sbrkPage phdr.vstart 0 = phdr.vstart := by
    rw [sbrkPage, Nat.zero_mul, BitVec.add_zero]
  rcases Nat.eq_zero_or_pos (brkPages phdr.vstart phdr.vend) with hnone | hpos
  · -- no page was mapped: the range wraps around, and the topmost page is part of it
    exfalso
    rw [hnone] at hmap
    cases hmap
    have hlong := canonical_run hcanon
    have hp := phdr.pVaddr.isLt
    have hend : phdr.vend.toNat =
        ((phdr.pVaddr.toNat + phdr.pMemsz.toNat) % 2 ^ 64 + 4095) % 2 ^ 64 / 4096 * 4096 := by
      have hmask : phdr.vend = entryAddr (phdr.pVaddr + phdr.pMemsz + 0xFFF#64) := rfl
      rw [hmask, toNat_entryAddr, BitVec.toNat_add, BitVec.toNat_add, BitVec.toNat_ofNat]
    rw [brkPages, hstart, hend, show pageSize = 4096 from rfl] at hnone
    have hwrap : 2 ^ 64 - 4095 ≤ phdr.pVaddr.toNat + phdr.pMemsz.toNat := by omega
    have stored := @LoadTree.storeBytes image window tag pml4 bytes phdr.pVaddr _ s'
      ⟨h.toPageTree.switch pml4, h.root, h.leaves⟩ rfl htop (by omega) hstore
    have := stored.below (by omega)
    omega
  · refine ⟨hpos, ?_⟩
    by_contra hlow
    have hhead : ∃ n ∈ s.pmm.freeSet, ∃ s₁, vmmMapIn { s with pmm := reserveFrame n s.pmm } pml4
        (sbrkPage phdr.vstart 0) (frameAddr n) userPage = .ok s₁ := by
      obtain ⟨count, hcount⟩ := Nat.exists_eq_succ_of_ne_zero (Nat.ne_of_gt hpos)
      rw [hcount] at hmap
      unfold mapFreshPages at hmap
      rcases pmmAlloc_spec s.pmm with ⟨hnull, -⟩ | ⟨n, hn, -, halloc⟩
      · simp only [hnull, if_true] at hmap
        cases hmap
        cases hcomplete
      · have hne : n * pageSize ≠ 0 := Nat.mul_ne_zero
          (fun hzero => h.zero_notMem (hzero ▸ hn)) (by decide)
        simp only [halloc, hne, if_false, frameAddr_eq_pointer] at hmap
        obtain ⟨s₁, hs₁, -⟩ := bind_ok hmap
        exact ⟨n, hn, s₁, hs₁⟩
    obtain ⟨n, hn, s₁, hs₁⟩ := hhead
    rw [hfirst] at hs₁
    have hroot := @extends_update _ _ (slot privateOwner pml4 phdr.vstart 0)
      (h.tagged.free_unlabelled hn) _ _ h.root
    refine (h.toPageTree.label_page phdr.vstart h.root hn).map_identity hroot ?_ ?_ hs₁
    · rw [pml4Index, tableIndex_eq, hstart]
      omega
    · rw [pdptIndex, tableIndex_eq, hstart]
      omega

theorem LoadState.switch (rule : LoadRule image window pml4 A P)
    (h : LoadState image window pml4 P tag₀ cr3 tag s) (cr3' : Word) :
    LoadState image window pml4 P tag₀ cr3' tag (vmmSwitchAddressSpace s cr3') :=
  ⟨⟨h.tree.toPageTree.switch cr3', h.tree.root, h.tree.leaves⟩, rule.switch cr3' h.prop, h.ext, rfl⟩

theorem Phdr.loadable_memsz {phdr : Phdr} (h : phdr.loadable = true) : phdr.pMemsz.toNat ≠ 0 := by
  intro hzero
  have : phdr.pMemsz = 0#64 := BitVec.eq_of_toNat_eq hzero
  simp [Phdr.loadable, this] at h

/-- The zeros and the bytes from the file, behind the pages of a segment. -/
theorem LoadState.fill (rule : LoadRule image window pml4 A P) {phdr : Phdr} {out : FreshPages}
    (hload : phdr.loadable = true) (h : LoadTree image window pml4 tag₀ s)
    (htop : translate s.mem pml4 topPage = none)
    (hA : ∀ k < brkPages phdr.vstart phdr.vend, A (sbrkPage phdr.vstart k))
    (hmap : mapFreshPages pml4 (sbrkPage phdr.vstart) userPage
      (brkPages phdr.vstart phdr.vend) 0 s = .ok out) (hcomplete : out.complete = true)
    (hpages : LoadState image window pml4 P tag₀ cr3 tag out.vmm)
    (htop' : (∀ k < brkPages phdr.vstart phdr.vend,
        walkPath (sbrkPage phdr.vstart k) ≠ walkPath topPage) →
      translate s.mem pml4 topPage = none → translate out.vmm.mem pml4 topPage = none)
    {s₁ s₂ : Vmm} {contents : List (BitVec 8)}
    (hzero : storeBytes phdr.pVaddr (List.replicate phdr.pMemsz.toNat 0#8)
      (vmmSwitchAddressSpace out.vmm pml4) = .ok s₁)
    (hfill : storeBytes phdr.pVaddr contents s₁ = .ok s₂) :
    LoadState image window pml4 P tag₀ cr3 tag (vmmSwitchAddressSpace s₂ cr3) ∧
      translate s₂.mem pml4 topPage = none ∧ 2 ^ 30 ≤ phdr.pVaddr.toNat := by
  have hmem := Phdr.loadable_memsz hload
  have hcanon := storeBytes_canonical _ _ _ _ hzero
  rw [List.length_replicate] at hcanon
  obtain ⟨hpos, hv⟩ := segment_start h htop hmem hcanon hmap hcomplete
    (List.length_replicate ..) hzero
  have hfirst : A (entryAddr phdr.pVaddr) := by
    have := hA 0 hpos
    rwa [sbrkPage, Nat.zero_mul, BitVec.add_zero] at this
  have htop₀ := htop' (fun k hk => (segment_pages hmem hcanon hk).2.2.2) htop
  obtain ⟨hzeroed, htop₁, -⟩ := (hpages.switch rule pml4).store rule htop₀ hv hfirst hzero
  obtain ⟨hfilled, htop₂, -⟩ := hzeroed.store rule htop₁ hv hfirst hfill
  exact ⟨hfilled.switch rule cr3, htop₂, hv⟩

/-- A loadable segment. -/
theorem LoadState.segment (rule : LoadRule image window pml4 A P) {phdr : Phdr}
    {contents : List (BitVec 8)} {load : Loading}
    (h : LoadState image window pml4 P tag₀ cr3 tag s)
    (htop : translate s.mem pml4 topPage = none) (hload : phdr.loadable = true)
    (hA : ∀ k < brkPages phdr.vstart phdr.vend, A (sbrkPage phdr.vstart k))
    (hok : loadSegment pml4 phdr contents s = .ok load) :
    ∃ tag', LoadState image window pml4 P tag₀ cr3 tag' load.vmm ∧
      (load.ok = true → translate load.vmm.mem pml4 topPage = none) := by
  obtain ⟨out, hmap, hok⟩ := bind_ok hok
  have hself : LoadState image window pml4 P tag cr3 tag s := ⟨h.tree, h.prop, fun _ _ ht => ht, h.cr3⟩
  obtain ⟨tag', hpages, htop'⟩ := hself.pages rule hA hmap
  split at hok
  · rename_i hcomplete
    obtain ⟨s₁, hzero, hok⟩ := bind_ok hok
    obtain ⟨s₂, hfill, hok⟩ := bind_ok hok
    cases hok
    obtain ⟨hstate, htop₂, -⟩ := LoadState.fill rule hload h.tree htop hA hmap hcomplete hpages htop'
      hzero hfill
    rw [← h.cr3] at hstate
    refine ⟨tag', ?_, fun _ => htop₂⟩
    rw [← h.cr3]
    exact ⟨hstate.tree, hstate.prop, h.ext.trans hstate.ext, hstate.cr3⟩
  · cases hok
    exact ⟨tag', ⟨hpages.tree, hpages.prop, h.ext.trans hpages.ext, hpages.cr3⟩,
      fun hc => (nomatch hc)⟩

/-- The program-header loop. -/
theorem LoadState.segments (rule : LoadRule image window pml4 A P)
    {contents : Phdr → List (BitVec 8)} :
    ∀ (phdrs : List Phdr) (tag : Word → Option Label) (s : Vmm) (load : Loading),
      LoadState image window pml4 P tag₀ cr3 tag s → translate s.mem pml4 topPage = none →
      (∀ phdr ∈ phdrs, phdr.loadable = true →
        ∀ k < brkPages phdr.vstart phdr.vend, A (sbrkPage phdr.vstart k)) →
      loadSegments pml4 contents phdrs s = .ok load →
      ∃ tag', LoadState image window pml4 P tag₀ cr3 tag' load.vmm ∧
        (load.ok = true → translate load.vmm.mem pml4 topPage = none)
  | [], tag, s, load, h, htop, hA, hok => by
      cases hok
      exact ⟨tag, h, fun _ => htop⟩
  | phdr :: phdrs, tag, s, load, h, htop, hA, hok => by
      have htail : ∀ other ∈ phdrs, other.loadable = true →
          ∀ k < brkPages other.vstart other.vend, A (sbrkPage other.vstart k) :=
        fun other hother => hA other (List.mem_cons_of_mem _ hother)
      rw [loadSegments] at hok
      split at hok
      · rename_i hload
        obtain ⟨first, hfirst, hok⟩ := bind_ok hok
        obtain ⟨tag₁, h₁, htop₁⟩ := h.segment rule htop hload
          (hA phdr (List.mem_cons_self ..) hload) hfirst
        split at hok
        · rename_i hc
          obtain ⟨rest, hrest, hok⟩ := bind_ok hok
          cases hok
          exact LoadState.segments rule phdrs tag₁ first.vmm rest h₁ (htop₁ hc) htail hrest
        · rename_i hc
          cases hok
          exact ⟨tag₁, h₁, fun hc' => absurd hc' hc⟩
      · exact LoadState.segments rule phdrs tag s load h htop htail hok

/-! ### The constructor -/

/-- The tables behind `vmm_create_address_space`, with nothing above index 0 in the loaded PML4. -/
theorem LoadTree.created {n : Nat} {s' : Vmm} (h : PageTree image window tag s)
    (hroot : tag s.cr3 = some .root)
    (hclean : ∀ i, 1 ≤ i → i < 512 → hasFlag (s.mem s.cr3 i) ptePresent = false)
    (hn : n ∈ s.pmm.freeSet) (c : Created tag s privateOwner n s') :
    LoadTree image window (frameAddr n) (Function.update tag (frameAddr n) (some .root)) s' ∧
      translate s'.mem (frameAddr n) topPage = none := by
  have hself : Function.update tag (frameAddr n) (some .root) (frameAddr n) = some .root :=
    Function.update_self ..
  refine ⟨⟨h.created hroot c, hself, fun u path j hu => ?_⟩, ?_⟩
  · -- no frame could have been labelled for the new PML4
    by_cases hnew : u = frameAddr n
    · rw [hnew, hself] at hu
      cases hu
    · rw [Function.update_of_ne hnew] at hu
      have howner := h.owners hu
      rw [c.fresh] at howner
      cases howner
  · have hindex : tableIndex (12 + 9 * 3) topPage = 511 := by decide
    rw [Memory.translate, pteAddr_frameAddr (mem_freeSet.1 hn).1]
    refine mmuWalk_absent ?_
    rw [hindex, c.entries 511 (by decide), (shared_flags _).1]
    exact hclean 511 (by decide) (by decide)

/-- What is shared with a clean PML4 has the same owner in every PML4. -/
theorem privateOwner_shared
    (hclean : ∀ i, 1 ≤ i → i < 512 → hasFlag (s.mem s.cr3 i) ptePresent = false) :
    ∀ n ∈ s.pmm.freeSet, ∀ j < 512, hasFlag (s.mem s.cr3 j) ptePresent = true →
      privateOwner s.cr3 j = privateOwner (frameAddr n) j := by
  intro n _ j hj hp
  have hzero : j = 0 := by
    by_contra hne
    rw [hclean j (by omega) hj] at hp
    cases hp
  simp [privateOwner, hzero]

theorem userStackPage_toNat {k : Nat} (hk : k < userStackPages) :
    (userStackPage k).toNat = 0x8000040000 - (32 - k) * 4096 := by
  have hlt : k < 32 := hk
  show (userStackVirt - BitVec.ofNat 64 ((32 - k) * 4096)).toNat = _
  rw [userStackVirt, BitVec.toNat_sub, BitVec.toNat_ofNat, BitVec.toNat_ofNat]
  omega

theorem userStackPage_top {k : Nat} (hk : k < userStackPages) :
    walkPath (userStackPage k) ≠ walkPath topPage := by
  have hlt : k < 32 := hk
  rw [Ne, walkPath_eq_iff, userStackPage_toNat hk, topPage, BitVec.toNat_ofNat]
  omega

/-- The user stack of a new process. -/
theorem LoadState.stack (rule : LoadRule image window pml4 A P)
    (h : LoadState image window pml4 P tag₀ cr3 tag s)
    (htop : translate s.mem pml4 topPage = none) (hA : ∀ k < userStackPages, A (userStackPage k))
    {out : FreshPages}
    (hok : mapFreshPages pml4 userStackPage userPage userStackPages 0 s = .ok out) :
    ∃ tag', LoadState image window pml4 P tag₀ cr3 tag' out.vmm ∧
      translate out.vmm.mem pml4 topPage = none := by
  obtain ⟨tag', hpages, htop'⟩ := h.pages rule hA hok
  exact ⟨tag', hpages, htop' (fun _ hk => userStackPage_top hk) htop⟩

/-- The rule for nothing at all. -/
theorem LoadRule.trivial : LoadRule image window pml4 (fun _ => True) (fun _ _ => True) :=
  ⟨fun _ _ _ _ _ _ => True.intro, fun _ _ _ _ _ => True.intro, fun _ _ => True.intro⟩

/-- What every load keeps, `process_create_elf` keeps. -/
theorem createElfAddressSpace_load {P : Word → (Word → Option Label) → Vmm → Prop} {elf : ElfFile}
    {r : ElfReturn} (h : PageTree image window tag s) (hroot : tag s.cr3 = some .root)
    (hclean : ∀ i, 1 ≤ i → i < 512 → hasFlag (s.mem s.cr3 i) ptePresent = false)
    (rule : ∀ n ∈ s.pmm.freeSet, LoadRule image window (frameAddr n) A (P (frameAddr n)))
    (hinit : ∀ n ∈ s.pmm.freeSet, ∀ s', Created tag s privateOwner n s' →
      P (frameAddr n) (Function.update tag (frameAddr n) (some .root)) s')
    (hstack : ∀ k < userStackPages, A (userStackPage k))
    (hA : ∀ phdr ∈ elf.phdrs, phdr.loadable = true →
      ∀ k < brkPages phdr.vstart phdr.vend, A (sbrkPage phdr.vstart k))
    (hok : createElfAddressSpace s elf = .ok r) :
    (r.vmm = s ∧ r.proc = none) ∨
      ∃ n ∈ s.pmm.freeSet, ∃ s₁ tag', Created tag s privateOwner n s₁ ∧
        LoadState image window (frameAddr n) (P (frameAddr n))
          (Function.update tag (frameAddr n) (some .root)) s.cr3 tag' r.vmm ∧
        ∀ proc, r.proc = some proc → proc.pageTable = frameAddr n := by
  unfold createElfAddressSpace at hok
  rcases vmmCreateAddressSpace_spec h.tagged hroot (privateOwner_shared hclean) with
    ⟨-, hnull⟩ | ⟨n, hn, hne, s₁, hcreate, c⟩
  · rw [hnull] at hok
    cases hok
    exact .inl ⟨rfl, rfl⟩
  refine .inr ⟨n, hn, s₁, ?_⟩
  rw [hcreate] at hok
  simp only [hne, if_false] at hok
  obtain ⟨stack, hstackok, hok⟩ := bind_ok hok
  obtain ⟨htree, htop⟩ := LoadTree.created h hroot hclean hn c
  have hstart : LoadState image window (frameAddr n) (P (frameAddr n))
      (Function.update tag (frameAddr n) (some .root)) s.cr3
      (Function.update tag (frameAddr n) (some .root)) s₁ :=
    ⟨htree, hinit n hn s₁ c, fun _ _ ht => ht, c.cr3⟩
  obtain ⟨tag₁, h₁, htop₁⟩ := hstart.stack (rule n hn) htop hstack hstackok
  split at hok
  · obtain ⟨load, hload, hok⟩ := bind_ok hok
    obtain ⟨tag₂, h₂, -⟩ := LoadState.segments (rule n hn) elf.phdrs tag₁ stack.vmm load h₁ htop₁ hA
      hload
    split at hok
    · cases hok
      refine ⟨tag₂, c, h₂, fun proc hproc => ?_⟩
      cases hproc
      rfl
    · cases hok
      exact ⟨tag₂, c, h₂, fun proc hproc => (nomatch hproc)⟩
  · cases hok
    exact ⟨tag₁, c, h₁, fun proc hproc => (nomatch hproc)⟩

end Segments

end CustomKernel.Filesystem
