/-
Module: CustomKernel.Proofs.ResidualData
Layer: Proofs
Purpose: What a new process can learn of the frames it gets. Nothing clears a frame that becomes a page:
  the loader zeroes the bytes of its segments, and the stack, the rest of the pages of a segment and
  the pages of `sbrk`, `brk` and `mmap` hold what their frames held. Two runs that differ in the
  contents of the free frames return the same results and map the same pages, and a byte that is not
  the same in both is in each what it was before.
Imports: CustomKernel.Proofs.TwinRuns, CustomKernel.Proofs.HeapFrames
Trusted boundary: as in SystemRuns: the kernel heap, the descriptors and the archive are beside
  physical memory
Main exports: twins_userCall, BreakStep, Twins.byte, residual_bytes, residual_byte_readable
-/
import CustomKernel.Proofs.TwinRuns
import CustomKernel.Proofs.HeapFrames

namespace CustomKernel

open Memory Filesystem Syscall Loops StepSystem

/-! ### The calls -/

section Calls

variable {image : BootImage} {window : Word → Prop} {pml4 : Word} {mem mem' : PhysMem}
  {tag : Word → Option Label} {s t : Vmm} {proc : Process} {r : HeapReturn}

theorem twins_sysSbrk {increment : Word}
    (h : Twins image window proc.pageTable mem mem' tag s t)
    (hok : sysSbrk s proc increment = .ok r) :
    ∃ vmm tag', sysSbrk t proc increment = .ok { r with vmm := vmm } ∧
      Twins image window proc.pageTable mem mem' tag' r.vmm vmm := by
  unfold sysSbrk at hok ⊢
  split at hok
  · rename_i hheap
    rw [if_pos hheap]
    cases hok
    exact ⟨t, tag, rfl, h⟩
  · rename_i hheap
    rw [if_neg hheap]
    split at hok
    · rename_i hzero
      rw [if_pos hzero]
      cases hok
      exact ⟨t, tag, rfl, h⟩
    · rename_i hzero
      rw [if_neg hzero]
      obtain ⟨pages, hmap, hok⟩ := bind_ok hok
      obtain ⟨vmm, tag', hvmm, h', -⟩ := h.mapFreshPages userPage_flags hmap
      refine ⟨vmm, tag', ?_⟩
      dsimp only
      rw [hvmm]
      show (if pages.complete = true then _ else _) = _ ∧ _
      split at hok
      · rename_i hcomplete
        rw [if_pos hcomplete]
        cases hok
        exact ⟨rfl, h'⟩
      · rename_i hcomplete
        rw [if_neg hcomplete]
        cases hok
        exact ⟨rfl, h'⟩

theorem twins_linuxMmap {len : Word} (h : Twins image window proc.pageTable mem mem' tag s t)
    (hok : linuxMmap s proc len = .ok r) :
    ∃ vmm tag', linuxMmap t proc len = .ok { r with vmm := vmm } ∧
      Twins image window proc.pageTable mem mem' tag' r.vmm vmm := by
  have htable : (mmapAlign proc).pageTable = proc.pageTable := by
    unfold mmapAlign
    split
    · rfl
    · rfl
  unfold linuxMmap at hok ⊢
  split at hok
  · rename_i hlen
    rw [if_pos hlen]
    cases hok
    exact ⟨t, tag, rfl, h⟩
  · rename_i hlen
    rw [if_neg hlen, ← htable]
    rw [← htable] at h
    exact twins_sysSbrk h hok

theorem twins_linuxBrk {target : Word} (h : Twins image window proc.pageTable mem mem' tag s t)
    (hok : linuxBrk s proc target = .ok r) :
    ∃ vmm tag', linuxBrk t proc target = .ok { r with vmm := vmm } ∧
      Twins image window proc.pageTable mem mem' tag' r.vmm vmm := by
  unfold linuxBrk at hok ⊢
  split at hok
  · rename_i hlow
    rw [if_pos hlow]
    cases hok
    exact ⟨t, tag, rfl, h⟩
  · rename_i hlow
    rw [if_neg hlow]
    split at hok
    · rename_i hgrow
      rw [if_pos hgrow]
      obtain ⟨pages, hmap, hok⟩ := bind_ok hok
      obtain ⟨vmm, tag', hvmm, h', -⟩ := h.mapFreshPages userPage_flags hmap
      refine ⟨vmm, tag', ?_⟩
      dsimp only
      rw [hvmm]
      show (if pages.complete = true then _ else _) = _ ∧ _
      split at hok
      · rename_i hcomplete
        rw [if_pos hcomplete]
        cases hok
        exact ⟨rfl, h'⟩
      · cases hok
    · rename_i hgrow
      rw [if_neg hgrow]
      cases hok
      exact ⟨t, tag, rfl, h⟩

/-- A call that moves the break. -/
theorem twins_userCall {call : UserCall} (hfb : call ≠ .mapFb)
    (h : Twins image window proc.pageTable mem mem' tag s t) (hok : call.run s proc = .ok r) :
    ∃ vmm tag', call.run t proc = .ok { r with vmm := vmm } ∧
      Twins image window proc.pageTable mem mem' tag' r.vmm vmm := by
  cases call with
  | sbrk increment => exact twins_sysSbrk h hok
  | brk target => exact twins_linuxBrk h hok
  | mmap len => exact twins_linuxMmap h hok
  | mapFb => exact absurd rfl hfb

end Calls

/-! ### Runs -/

/-- A call of a process that moves its break, with the result. -/
def BreakStep (s : Vmm × Process) (call : UserCall × Word) (s' : Vmm × Process) : Prop :=
  call.1 ≠ .mapFb ∧ ∃ r, call.1.run s.1 s.2 = .ok r ∧ r.result = call.2 ∧ s' = (r.vmm, r.proc)

/-- The second machine takes the calls of the first one, with the same results. -/
theorem twins_run {image : BootImage} {window : Word → Prop} {mem mem' : PhysMem}
    {s s' : Vmm × Process} {calls : List (UserCall × Word)} (run : Run BreakStep s calls s') :
    ∀ {t : Vmm} {tag : Word → Option Label}, Twins image window s.2.pageTable mem mem' tag s.1 t →
      s'.2.pageTable = s.2.pageTable ∧ ∃ t' tag', Run BreakStep (t, s.2) calls (t', s'.2) ∧
        Twins image window s.2.pageTable mem mem' tag' s'.1 t' := by
  induction run with
  | nil s => exact fun h => ⟨rfl, _, _, .nil _, h⟩
  | cons head _ ih =>
      intro t tag h
      obtain ⟨hfb, r, hok, hresult, rfl⟩ := head
      obtain ⟨vmm, tag₁, hvmm, h₁⟩ := twins_userCall hfb h hok
      obtain ⟨⟨brk, hproc⟩, -⟩ := UserCall.run_cases hfb hok
      have htable : r.proc.pageTable = _ := congrArg Process.pageTable hproc
      dsimp only at ih htable
      rw [htable] at ih
      obtain ⟨htable', t', tag', run', h'⟩ := ih h₁
      exact ⟨htable', t', tag', .cons ⟨hfb, _, hvmm, hresult, rfl⟩ run', h'⟩

/-- A byte that is not the same in both machines is in each what it was at the start. -/
theorem Memory.Twins.byte {image : BootImage} {window : Word → Prop} {pml4 : Word}
    {mem mem' : PhysMem} {tag : Word → Option Label} {s t : Vmm} {free : Finset Nat}
    (h : Twins image window pml4 mem mem' tag s t)
    (hsame : ∀ u, (∀ n ∈ free, u ≠ frameAddr n) → mem' u = mem u) (phys : Word) :
    t.mem.loadByte phys = s.mem.loadByte phys ∨
      (∃ n ∈ free, entryAddr phys = frameAddr n) ∧ s.mem.loadByte phys = mem.loadByte phys ∧
        t.mem.loadByte phys = mem'.loadByte phys := by
  obtain ⟨list, hs, ht⟩ := h.stores
  rw [hs, ht]
  rcases stores_loadByte phys list with hfixed | hkept
  · exact .inl (hfixed _ _)
  · by_cases hfree : ∃ n ∈ free, entryAddr phys = frameAddr n
    · exact .inr ⟨hfree, hkept _, hkept _⟩
    · refine .inl ((hkept _).trans (Eq.trans ?_ (hkept _).symm))
      exact loadByte_congr (hsame _ fun n hn heq => hfree ⟨n, hn, heq⟩)

/-- A machine with the same contents outside the free frames has the same tables. -/
theorem sameTables_of_free {tag : Word → Option Label} {s : Vmm} (htagged : Tagged privateOwner tag s)
    {mem' : PhysMem} (hsame : ∀ u, (∀ n ∈ s.pmm.freeSet, u ≠ frameAddr n) → mem' u = s.mem u) :
    SameTables tag s { s with mem := mem' } := by
  refine ⟨rfl, rfl, fun {u l} hu _ i _ => ?_⟩
  obtain ⟨m, hm, hused, -, rfl⟩ := htagged.frame hu
  refine congrFun (hsame _ fun n hn heq => ?_) i
  exact hused (frameAddr_inj hm (mem_freeSet.1 hn).1 heq ▸ hn)

/-- And the invariant of the tables. -/
theorem TreeInv.with_memory {image : BootImage} {tag : Word → Option Label} {s : Vmm}
    (h : TreeInv image tag s) {mem' : PhysMem}
    (hsame : ∀ u, (∀ n ∈ s.pmm.freeSet, u ≠ frameAddr n) → mem' u = s.mem u) :
    TreeInv image tag { s with mem := mem' } := by
  have htables : ∀ u l, tag u = some l → mem' u = s.mem u := by
    intro u l hu
    obtain ⟨m, hm, hused, -, rfl⟩ := h.tree.tagged.frame hu
    refine hsame _ fun n hn heq => ?_
    exact hused (frameAddr_inj hm (mem_freeSet.1 hn).1 heq ▸ hn)
  refine ⟨h.tree.of_tables fun u l hu _ => htables u l hu, fun i hlo hhi => ?_, h.allocs⟩
  dsimp only
  rw [htables _ _ h.tree.kernel]
  exact h.clean i hlo hhi

/-- A kernel state with other contents in its memory. -/
def withMemory (k : Kernel) (mem : PhysMem) : Kernel := { k with vmm := { k.vmm with mem := mem } }

/-- Two runs of `process_create_elf` and some calls that differ in what the free frames held: both
    return the same process and results and map the same pages, and a byte of the process is the same
    in both or in each a byte of a frame that was free, as the frame held it before. -/
theorem residual_bytes (image : BootImage) (fns : Trampolines) (ram : PhysMem) (k : Kernel)
    (boot : kernelBoot image ram = .ok k.vmm) (history : List SystemCall) (s : System)
    (start : Run (SystemStep image fns) { kernel := k, users := [] } history s) (mem' : PhysMem)
    (hsame : ∀ u, (∀ n ∈ s.kernel.vmm.pmm.freeSet, u ≠ frameAddr n) →
      mem' u = s.kernel.vmm.mem u) (fuel : Nat) (stale : Stale) (path : List Byte)
    (useLinuxAbi : BitVec 32) (k₁ : Kernel) (p : NewProcess)
    (create : processCreateElf fuel stale fns (s.constructing image) path useLinuxAbi =
      .ok (k₁, some p)) (calls : List (UserCall × Word)) (s₂ : Vmm × Process)
    (run : Run BreakStep (vmmSwitchAddressSpace k₁.vmm p.proc.pageTable, p.proc) calls s₂) :
    ∃ k₁' t₂,
      processCreateElf fuel stale fns (withMemory (s.constructing image) mem') path useLinuxAbi =
        .ok (k₁', some p) ∧
      Run BreakStep (vmmSwitchAddressSpace k₁'.vmm p.proc.pageTable, p.proc) calls (t₂, s₂.2) ∧
      ∀ v, translate t₂.mem p.proc.pageTable v = translate s₂.1.mem p.proc.pageTable v ∧
        ∀ tr, translate s₂.1.mem p.proc.pageTable v = some tr →
          t₂.mem.loadByte tr.phys = s₂.1.mem.loadByte tr.phys ∨
            (∃ n ∈ s.kernel.vmm.pmm.freeSet, entryAddr tr.phys = frameAddr n) ∧
              s₂.1.mem.loadByte tr.phys = s.kernel.vmm.mem.loadByte tr.phys ∧
              t₂.mem.loadByte tr.phys = mem'.loadByte tr.phys := by
  obtain ⟨tag, inv⟩ := SystemInv.of_run boot start
  have htree : TreeInv image tag (s.constructing image).vmm := inv.toTreeInv.switch image.pml4Table
  have htables : SameTables tag (s.constructing image).vmm
      { (s.constructing image).vmm with mem := mem' } := sameTables_of_free htree.tree.tagged hsame
  obtain ⟨vmm₁, tag₁, hcreate, h₁⟩ := twins_processCreateElf htables htree.tree htree.tree.kernel
    htree.clean create
  obtain ⟨htable, t₂, tag₂, run', h₂⟩ := twins_run run (h₁.switch p.proc.pageTable)
  refine ⟨_, t₂, hcreate, run', fun v => ⟨h₂.same.translate h₂.tree.tagged h₂.tree.root, ?_⟩⟩
  exact fun tr _ => h₂.byte hsame tr.phys

/-! ### A byte that is left -/

section Left

variable {image : BootImage} {tag : Word → Option Label} {s : Vmm} {pml4 : Word}

/-- `process_create_elf` leaves the frames alone that are free behind it. -/
theorem createElf_free_kept {elf : ElfFile} {r : ElfReturn} (h : TreeInv image tag s)
    (hcr3 : s.cr3 = image.pml4Table) (hok : createElfAddressSpace s elf = .ok r) :
    ∀ n ∈ r.vmm.pmm.freeSet, r.vmm.mem (frameAddr n) = s.mem (frameAddr n) := by
  have hroot : tag s.cr3 = some .root := by rw [hcr3, h.tree.kernel]
  have hclean := h.clean
  unfold KernelClean at hclean
  rw [← hcr3] at hclean
  have hload := createElfAddressSpace_load (A := fun _ => True)
    (P := fun _ _ t => ∀ n ∈ t.pmm.freeSet, t.mem (frameAddr n) = s.mem (frameAddr n)) h.tree hroot
    hclean ?_ ?_ (fun _ _ => trivial) (fun _ _ _ _ _ => trivial) hok
  · rcases hload with ⟨hsame, -⟩ | ⟨n, -, s₁, tag', -, hstate, -⟩
    · rw [hsame]
      exact fun _ _ => rfl
    · exact hstate.prop
  · intro n hn
    refine ⟨fun {tag tag' t t' virt m} htree hP _ hm _ mapped k hk => ?_,
      fun {tag t t' v count} htree hP _ _ stored k hk => ?_, fun cr3 hP => hP⟩
    · have hk' : k ∈ t.pmm.freeSet.erase m := by
        rw [← freeSet_reserveFrame]
        exact mapped.mapped.free hk
      obtain ⟨hne, hfree⟩ := Finset.mem_erase.1 hk'
      have hlt := (mem_freeSet.1 hfree).1
      have hnone := htree.tagged.free_unlabelled hfree
      have hnone' : Function.update tag (frameAddr m) (some (slot privateOwner (frameAddr n) virt 0))
          (frameAddr k) = none := by
        rw [Function.update_of_ne fun heq => hne (frameAddr_inj hlt (mem_freeSet.1 hm).1 heq)]
        exact hnone
      rw [← hP k hfree]
      refine mapped.touched.outside ?_ ?_ ?_
      · intro heq
        rw [heq, htree.root] at hnone
        cases hnone
      · intro j hj hused heq
        exact hused (frameAddr_inj hlt (mem_freeSet.1 hj).1 heq ▸ hk)
      · intro level _ _ hlabel
        rw [hnone'] at hlabel
        cases hlabel
    · rw [stored.pmm] at hk
      rw [← hP k hk]
      refine stored.outside _ fun z _ hlabel => ?_
      rw [htree.tagged.free_unlabelled hk] at hlabel
      cases hlabel
  · intro n hn s' c k hk
    rw [c.free, freeSet_reserveFrame] at hk
    obtain ⟨hne, hfree⟩ := Finset.mem_erase.1 hk
    exact c.other _ fun heq =>
      hne (frameAddr_inj (mem_freeSet.1 hfree).1 (mem_freeSet.1 hn).1 heq)

/-- A fresh page of heap holds what its frame held. -/
theorem first_page_left (h : TreeInv image tag s) (hroot : UserRoot image tag pml4)
    (hcard : 4 ≤ s.pmm.freeSet.card) :
    ∃ out, ∃ n ∈ s.pmm.freeSet,
      mapFreshPages pml4 (sbrkPage userHeapBase) userPage 1 0 s = .ok out ∧ out.complete = true ∧
      translate out.vmm.mem pml4 userHeapBase =
        some (leafTranslation userHeapBase (frameAddr n ||| userPage ||| ptePresent) 12) ∧
      out.vmm.mem (frameAddr n) = s.mem (frameAddr n) := by
  obtain ⟨out, n, tag', hmap, hcomplete, hn, -, m, -⟩ := h.heap_page hroot hcard
  refine ⟨out, n, hn, hmap, hcomplete, m.mapped.self rfl, ?_⟩
  have hlt := (mem_freeSet.1 hn).1
  refine m.touched.outside ?_ ?_ ?_
  · intro heq
    have hnone := h.tree.tagged.free_unlabelled hn
    rw [heq, hroot.1] at hnone
    cases hnone
  · intro k hk _ heq
    obtain rfl := frameAddr_inj hlt (mem_freeSet.1 hk).1 heq
    simp at hk
  · intro level hlo hhi hlabel
    rw [Function.update_self] at hlabel
    have hlevel := congrArg Label.level (Option.some.inj hlabel)
    rw [level_slot _ _ (by decide), level_slot _ _ (by omega)] at hlevel
    omega

/-- So does the first page of heap of a new process. -/
theorem sbrk_byte_left {fuel : Nat} {stale : Stale} {fns : Trampolines} {path : List Byte}
    {useLinuxAbi : BitVec 32} {k k₁ : Kernel} {p : NewProcess} (h : TreeInv image tag k.vmm)
    (hcr3 : k.vmm.cr3 = image.pml4Table)
    (create : processCreateElf fuel stale fns k path useLinuxAbi = .ok (k₁, some p))
    (hstart : p.proc.heapStart = userHeapBase) (hend : p.proc.heapEnd = userHeapBase)
    (hcard : 4 ≤ k₁.vmm.pmm.freeSet.card) :
    ∃ s', ∃ n ∈ k.vmm.pmm.freeSet,
      BreakStep (vmmSwitchAddressSpace k₁.vmm p.proc.pageTable, p.proc)
        (.sbrk 4096#64, userHeapBase) s' ∧
      translate s'.1.mem p.proc.pageTable userHeapBase =
        some (leafTranslation userHeapBase (frameAddr n ||| userPage ||| ptePresent) 12) ∧
      s'.1.mem (frameAddr n) = k.vmm.mem (frameAddr n) := by
  obtain ⟨-, ⟨-, hnone⟩ | ⟨_, _, r, -, hr, hvmm, hspace⟩⟩ := processCreateElf_cases create
  · cases hnone
  · obtain ⟨tag', htree, -, hroots⟩ := h.createElf hcr3 hr
    cases hproc : r.proc with
    | none =>
        rw [hproc] at hspace
        cases hspace
    | some proc =>
        rw [hproc] at hspace
        have htable : p.proc.pageTable = proc.pageTable :=
          congrArg Prod.fst (Option.some.inj hspace)
        have hroot := hroots proc hproc
        rw [← htable] at hroot
        rw [← hvmm] at htree
        obtain ⟨out, n, hn, hmap, hcomplete, htranslate, hmem⟩ :=
          first_page_left (htree.switch p.proc.pageTable) hroot hcard
        have hkept := createElf_free_kept h hcr3 hr n (hvmm ▸ hn)
        rw [← hvmm] at hkept
        refine ⟨_, n, (createElfAddressSpace_allocs hr).free (hvmm ▸ hn),
          ⟨nofun, _, sysSbrk_first_page hstart hend hmap hcomplete, rfl, rfl⟩, htranslate, ?_⟩
        exact hmem.trans hkept

end Left

/-- Memory with the lowest bit of every word of some frames inverted. -/
@[irreducible] def flipFrames (mem : PhysMem) (frames : Finset Nat) : PhysMem := fun u i =>
  if u ∈ frames.image frameAddr then mem u i ^^^ 1#64 else mem u i

theorem flipFrames_other {mem : PhysMem} {frames : Finset Nat} {u : Word}
    (h : ∀ n ∈ frames, u ≠ frameAddr n) : flipFrames mem frames u = mem u := by
  funext i
  unfold flipFrames
  refine if_neg fun hmem => ?_
  obtain ⟨n, hn, heq⟩ := Finset.mem_image.1 hmem
  exact h n hn heq.symm

/-- A byte at the start of a word of such a frame. -/
theorem flipFrames_loadByte {mem : PhysMem} {frames : Finset Nat} {phys : Word}
    (hframe : ∃ n ∈ frames, entryAddr phys = frameAddr n) (hword : phys.toNat % 8 = 0) :
    (flipFrames mem frames).loadByte phys ≠ mem.loadByte phys := by
  obtain ⟨n, hn, heq⟩ := hframe
  have hmem : entryAddr phys ∈ frames.image frameAddr := by
    rw [heq]
    exact Finset.mem_image_of_mem frameAddr hn
  unfold PhysMem.loadByte flipFrames
  dsimp only
  rw [if_pos hmem, hword]
  intro hbad
  have hbit := congrArg (fun b => BitVec.getLsbD b 0) hbad
  simp at hbit

theorem System.constructing_mem (image : BootImage) (s : System) :
    (s.constructing image).vmm.mem = s.kernel.vmm.mem := rfl

theorem System.constructing_pmm (image : BootImage) (s : System) :
    (s.constructing image).vmm.pmm = s.kernel.vmm.pmm := rfl

/-- A fresh page of heap, at any address, is the frame it was made of. -/
theorem freePage_small {s : Vmm} {n : Nat} (hn : n ∈ s.pmm.freeSet) :
    (entryAddr (frameAddr n ||| userPage ||| ptePresent)).toNat < 2 ^ 52 := by
  have hlt : n < 65536 := (mem_freeSet.1 hn).1
  rw [fresh_leaf hn userPage_flags, toNat_frameAddr hlt]
  omega

theorem freePage_phys {s : Vmm} {n : Nat} (hn : n ∈ s.pmm.freeSet) (virt : Word) :
    entryAddr (leafTranslation virt (frameAddr n ||| userPage ||| ptePresent) 12).phys =
      frameAddr n :=
  (entryAddr_leaf_phys (freePage_small hn) virt).trans (fresh_leaf hn userPage_flags)

/-- The first byte of the heap of a new process, after `sbrk`, when every free frame held something
    else. -/
theorem sbrk_byte_differs {image : BootImage} {tag : Word → Option Label} {fuel : Nat} {stale : Stale}
    {fns : Trampolines} {path : List Byte} {useLinuxAbi : BitVec 32} {k k₁ : Kernel} {p : NewProcess}
    (h : TreeInv image tag k.vmm) (hcr3 : k.vmm.cr3 = image.pml4Table)
    (create : processCreateElf fuel stale fns k path useLinuxAbi = .ok (k₁, some p))
    (hstart : p.proc.heapStart = userHeapBase) (hend : p.proc.heapEnd = userHeapBase)
    (hcard : 4 ≤ k₁.vmm.pmm.freeSet.card) :
    ∃ k₁' s₂ t₂ tr,
      processCreateElf fuel stale fns (withMemory k (flipFrames k.vmm.mem k.vmm.pmm.freeSet)) path
        useLinuxAbi = .ok (k₁', some p) ∧
      BreakStep (vmmSwitchAddressSpace k₁.vmm p.proc.pageTable, p.proc)
        (.sbrk 4096#64, userHeapBase) s₂ ∧
      BreakStep (vmmSwitchAddressSpace k₁'.vmm p.proc.pageTable, p.proc)
        (.sbrk 4096#64, userHeapBase) t₂ ∧
      translate s₂.1.mem p.proc.pageTable userHeapBase = some tr ∧
      translate t₂.1.mem p.proc.pageTable userHeapBase = some tr ∧ tr.user = true ∧
      s₂.1.mem.loadByte tr.phys ≠ t₂.1.mem.loadByte tr.phys := by
  have hsame : ∀ u, (∀ n ∈ k.vmm.pmm.freeSet, u ≠ frameAddr n) →
      flipFrames k.vmm.mem k.vmm.pmm.freeSet u = k.vmm.mem u := fun u hu => flipFrames_other hu
  have h' : TreeInv image tag (withMemory k (flipFrames k.vmm.mem k.vmm.pmm.freeSet)).vmm := by
    unfold withMemory
    exact h.with_memory hsame
  have hcr3' : (withMemory k (flipFrames k.vmm.mem k.vmm.pmm.freeSet)).vmm.cr3 =
      image.pml4Table := by
    unfold withMemory
    exact hcr3
  have htables := sameTables_of_free h.tree.tagged hsame
  have hroot : tag k.vmm.cr3 = some .root := by rw [hcr3, h.tree.kernel]
  have hclean := h.clean
  unfold KernelClean at hclean
  rw [← hcr3] at hclean
  obtain ⟨vmm₁, tag₁, hok', h₁⟩ := twins_processCreateElf htables h.tree hroot hclean create
  -- the page of heap in each run
  obtain ⟨s₂, n, hn, hstep, htr, hmem⟩ := sbrk_byte_left h hcr3 create hstart hend hcard
  obtain ⟨t₂, n', hn', hstep', htr', hmem'⟩ :=
    sbrk_byte_left h' hcr3' hok' hstart hend (by rw [h₁.same.pmm]; exact hcard)
  -- is the same page
  have hequal : translate t₂.1.mem p.proc.pageTable userHeapBase =
      translate s₂.1.mem p.proc.pageTable userHeapBase := by
    obtain ⟨hfb, r, hr, -, rfl⟩ := hstep
    obtain ⟨vmm₂, tag₂, hvmm₂, h₂⟩ := twins_userCall hfb (h₁.switch p.proc.pageTable) hr
    obtain ⟨-, r', hr', -, rfl⟩ := hstep'
    have hret : r' = { r with vmm := vmm₂ } := Except.ok.inj (hr'.symm.trans hvmm₂)
    rw [hret]
    exact h₂.same.translate h₂.tree.tagged h₂.tree.root
  have hphys := freePage_phys hn userHeapBase
  have hframe : frameAddr n' = frameAddr n := by
    have hleaves := Option.some.inj (htr'.symm.trans (hequal.trans htr))
    rw [← hphys, ← hleaves]
    exact (freePage_phys hn' userHeapBase).symm
  refine ⟨_, s₂, t₂, _, hok', hstep, hstep', htr, hequal.trans htr, ?_, ?_⟩
  · have huser : hasFlag userPage pteUser = true := by decide
    show hasFlag (frameAddr n ||| userPage ||| ptePresent) pteUser = true
    simp [huser]
  · have hoffset := toNat_leaf_phys (freePage_small hn) userHeapBase
    have hbase : userHeapBase.toNat % 4096 = 0 := by decide
    rw [hframe] at hmem'
    unfold withMemory at hmem'
    dsimp only at hmem'
    rw [← hphys] at hmem hmem'
    rw [loadByte_congr hmem, loadByte_congr hmem']
    exact (flipFrames_loadByte ⟨n, hn, hphys⟩ (by omega)).symm

/-- The first process and its first page of heap, with every free frame holding something else. -/
theorem residual_bytes_first : ∃ (k : Kernel) (k₁ k₁' : Kernel) (p : NewProcess) (fuel : Nat)
    (stale : Stale) (s₂ : Vmm × Process) (t₂ : Vmm),
    kernelBoot bootedImage (fun _ _ => 0#64) = .ok k.vmm ∧
      processCreateElf fuel stale ⟨0#64, 0#64⟩
        (System.constructing bootedImage { kernel := k, users := [] }) [97] 0#32 =
          .ok (k₁, some p) ∧
      processCreateElf fuel stale ⟨0#64, 0#64⟩
        (withMemory (System.constructing bootedImage { kernel := k, users := [] })
          (flipFrames k.vmm.mem k.vmm.pmm.freeSet)) [97] 0#32 = .ok (k₁', some p) ∧
      Run BreakStep (vmmSwitchAddressSpace k₁.vmm p.proc.pageTable, p.proc)
        [(.sbrk 4096#64, userHeapBase)] s₂ ∧
      Run BreakStep (vmmSwitchAddressSpace k₁'.vmm p.proc.pageTable, p.proc)
        [(.sbrk 4096#64, userHeapBase)] (t₂, s₂.2) ∧
      ∀ v, translate t₂.mem p.proc.pageTable v = translate s₂.1.mem p.proc.pageTable v := by
  obtain ⟨k, fuel, stale, k₁, p, -, boot, hok, -, -, hstart, hend, hcard⟩ :=
    firstProgram ⟨0#64, 0#64⟩
  obtain ⟨tag, inv⟩ := SystemInv.boot boot
  obtain ⟨s₂, -, -, hstep, -⟩ :=
    sbrk_byte_left (k := System.constructing bootedImage { kernel := k, users := [] })
      (inv.toTreeInv.switch bootedImage.pml4Table) rfl hok hstart hend
      (Nat.le_trans (by decide) hcard)
  obtain ⟨k₁', t₂, hok', run, hbytes⟩ := residual_bytes bootedImage ⟨0#64, 0#64⟩ _ k boot [] _ (.nil _)
    (flipFrames k.vmm.mem k.vmm.pmm.freeSet) (fun u hu => flipFrames_other hu) fuel stale [97] 0#32 k₁ p
    hok [(.sbrk 4096#64, userHeapBase)] s₂ (.single hstep)
  exact ⟨k, k₁, k₁', p, fuel, stale, s₂, t₂, boot, hok, hok', .single hstep, run,
    fun v => (hbytes v).1⟩

/-- The first byte of the heap of a new process, after `sbrk`, in two runs that differ in what the
    free frames held. -/
theorem residual_byte_readable : ∃ (k : Kernel) (mem' : PhysMem) (fuel : Nat) (stale : Stale)
    (k₁ k₁' : Kernel) (p : NewProcess) (s₂ t₂ : Vmm × Process) (tr : Translation),
    kernelBoot bootedImage (fun _ _ => 0#64) = .ok k.vmm ∧
      (∀ u, (∀ n ∈ k.vmm.pmm.freeSet, u ≠ frameAddr n) → mem' u = k.vmm.mem u) ∧
      processCreateElf fuel stale ⟨0#64, 0#64⟩
        (System.constructing bootedImage { kernel := k, users := [] }) [97] 0#32 =
          .ok (k₁, some p) ∧
      processCreateElf fuel stale ⟨0#64, 0#64⟩
        (withMemory (System.constructing bootedImage { kernel := k, users := [] }) mem') [97] 0#32 =
          .ok (k₁', some p) ∧
      Run BreakStep (vmmSwitchAddressSpace k₁.vmm p.proc.pageTable, p.proc)
        [(.sbrk 4096#64, userHeapBase)] s₂ ∧
      Run BreakStep (vmmSwitchAddressSpace k₁'.vmm p.proc.pageTable, p.proc)
        [(.sbrk 4096#64, userHeapBase)] t₂ ∧
      translate s₂.1.mem p.proc.pageTable userHeapBase = some tr ∧
      translate t₂.1.mem p.proc.pageTable userHeapBase = some tr ∧ tr.user = true ∧
      s₂.1.mem.loadByte tr.phys ≠ t₂.1.mem.loadByte tr.phys := by
  obtain ⟨k, fuel, stale, k₁, p, -, boot, hok, -, -, hstart, hend, hcard⟩ :=
    firstProgram ⟨0#64, 0#64⟩
  obtain ⟨tag, inv⟩ := SystemInv.boot boot
  obtain ⟨k₁', s₂, t₂, tr, hok', hstep, hstep', htr, htr', huser, hne⟩ :=
    sbrk_byte_differs (k := System.constructing bootedImage { kernel := k, users := [] })
      (inv.toTreeInv.switch bootedImage.pml4Table) rfl hok hstart hend
      (Nat.le_trans (by decide) hcard)
  rw [System.constructing_mem, System.constructing_pmm] at hok'
  exact ⟨k, _, fuel, stale, k₁, k₁', p, s₂, t₂, tr, boot, fun u hu => flipFrames_other hu, hok, hok',
    .single hstep, .single hstep', htr, htr', huser, hne⟩

end CustomKernel
