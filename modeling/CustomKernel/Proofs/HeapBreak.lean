/-
Module: CustomKernel.Proofs.HeapBreak
Layer: Proofs
Purpose: The break of a process and the pages below it. `sbrk` and `brk` map the pages between the old
  and the new break, so what lies below the break is mapped as long as the arithmetic of the new break
  does not wrap: `brk` to an address in the last page rounds its end up to 0 and maps nothing, and an
  `sbrk` whose sum falls below the start of the heap leaves a break there. A growth that runs out of
  frames returns `-1` behind the pages it has mapped.
Imports: CustomKernel.Proofs.HeapFrames
Trusted boundary: as in SystemRuns: the kernel heap, the descriptors and the archive are beside
  physical memory
Main exports: UserWritable, HeapMapped, brk_mapped, brk_wraps
-/
import CustomKernel.Proofs.HeapFrames

namespace CustomKernel

open Memory Filesystem Syscall Loops StepSystem

/-! ### Pages of the process -/

/-- The process can read and write the byte at `v`. -/
def UserWritable (mem : PhysMem) (pml4 v : Word) : Prop :=
  ∃ tr, translate mem pml4 v = some tr ∧ tr.user = true ∧ tr.writable = true

/-- Every byte from `lo` up to `hi`, hence every page that meets this range. -/
def HeapMapped (mem : PhysMem) (pml4 lo hi : Word) : Prop :=
  ∀ v, lo ≤ v → v < hi → UserWritable mem pml4 v

/-- The rights are those of the page. -/
theorem UserWritable.samePage {mem : PhysMem} {pml4 v w : Word} (h : UserWritable mem pml4 v)
    (hpath : walkPath w = walkPath v) : UserWritable mem pml4 w := by
  obtain ⟨tr, htr, huser, hwritable⟩ := h
  have hsame := @translate_entry_samePage mem pml4 _ _ hpath
  rw [htr] at hsame
  cases htr' : translate mem pml4 w with
  | none =>
      rw [htr'] at hsame
      cases hsame
  | some tr' =>
      rw [htr'] at hsame
      have hrights := congrArg Prod.snd (Option.some.inj hsame)
      exact ⟨tr', htr', (congrArg Prod.snd hrights).trans huser,
        (congrArg Prod.fst hrights).trans hwritable⟩

theorem UserWritable.widened {mem mem' : PhysMem} {pml4 v : Word} (h : UserWritable mem pml4 v)
    (hwide : Widened (translate mem pml4 v) (translate mem' pml4 v)) : UserWritable mem' pml4 v := by
  obtain ⟨tr, htr, huser, hwritable⟩ := h
  rw [htr] at hwide
  cases htr' : translate mem' pml4 v with
  | none =>
      rw [htr'] at hwide
      cases hwide
  | some tr' =>
      rw [htr'] at hwide
      exact ⟨tr', htr', hwide.user huser, hwide.writable hwritable⟩

section Pages

variable {image : BootImage} {window : Word → Prop} {tag tag' : Word → Option Label} {s s' : Vmm}
  {pml4 virt : Word}

/-- A fresh page of the heap belongs to the process. -/
theorem Memory.FreshMapped.userWritable {n : Nat} (m : FreshMapped pml4 virt userPage n tag s tag' s')
    {v : Word} (hpath : walkPath v = walkPath virt) : UserWritable s'.mem pml4 v := by
  refine ⟨_, m.mapped.self hpath, ?_, ?_⟩
  · have huser : hasFlag userPage pteUser = true := by decide
    show hasFlag (frameAddr n ||| userPage ||| ptePresent) pteUser = true
    simp [huser]
  · have hwritable : hasFlag userPage pteWritable = true := by decide
    show hasFlag (frameAddr n ||| userPage ||| ptePresent) pteWritable = true
    simp [hwritable]

/-- And no page is taken away, although one may be mapped anew. -/
theorem Memory.FreshMapped.userWritable_kept {n : Nat}
    (m : FreshMapped pml4 virt userPage n tag s tag' s') (htagged : Tagged privateOwner tag s)
    (hroot : tag pml4 = some .root) (hn : n ∈ s.pmm.freeSet) {v : Word}
    (h : UserWritable s.mem pml4 v) : UserWritable s'.mem pml4 v := by
  by_cases hpath : walkPath v = walkPath virt
  · exact m.userWritable hpath
  · have hroot' := @extends_update _ _ (slot privateOwner pml4 virt 0)
      (htagged.free_unlabelled hn) _ _ hroot
    exact h.widened (m.mapped.widened hroot' (.inr hpath))

/-- The loop over the pages of a growth. -/
theorem mapFreshPages_userWritable {virt : Nat → Word} {count i : Nat} {out : FreshPages}
    (h : PageTree image window tag s) (hroot : tag pml4 = some .root)
    (hok : mapFreshPages pml4 virt userPage count i s = .ok out) :
    (∀ v, UserWritable s.mem pml4 v → UserWritable out.vmm.mem pml4 v) ∧
      (out.complete = true → ∀ k, i ≤ k → k < i + count → ∀ v, walkPath v = walkPath (virt k) →
        UserWritable out.vmm.mem pml4 v) := by
  have hloop := mapFreshPages_each
    (fun t => (∃ tag', PageTree image window tag' t ∧ tag' pml4 = some .root) ∧
      ∀ v, UserWritable s.mem pml4 v → UserWritable t.mem pml4 v)
    (fun k t => ∀ v, walkPath v = walkPath (virt k) → UserWritable t.mem pml4 v)
    (fun t ht => by
      obtain ⟨⟨tag', htree, -⟩, -⟩ := ht
      exact htree.zero_notMem)
    count i s out
    (fun k _ _ t n t' ht hn hmap => by
      obtain ⟨⟨tag₁, htree, hroot₁⟩, hkept⟩ := ht
      obtain ⟨tag₂, htree', m⟩ := htree.map_fresh hroot₁ hn userPage_flags hmap
      have hkept' : ∀ v, UserWritable t.mem pml4 v → UserWritable t'.mem pml4 v :=
        fun v hv => m.userWritable_kept htree.tagged hroot₁ hn hv
      exact ⟨⟨⟨tag₂, htree', m.ext htree.tagged hn _ _ hroot₁⟩, fun v hv => hkept' v (hkept v hv)⟩,
        fun v hv => m.userWritable hv, fun j hj v hv => hkept' v (hj v hv)⟩)
    ⟨⟨tag, h, hroot⟩, fun v hv => hv⟩ hok
  exact ⟨hloop.1.2, fun hc k hlo hhi v hv => hloop.2.2 hc k hlo hhi v hv⟩

end Pages

/-! ### Heaps start at a page boundary -/

theorem pageAlignUp_aligned (addr : Word) : (pageAlignUp addr).toNat % 4096 = 0 := by
  have hmask : pageAlignUp addr = entryAddr (addr + 0xFFF#64) := rfl
  rw [hmask, toNat_entryAddr]
  omega

theorem lastVend_aligned (phdrs : List Phdr) : (lastVend phdrs).toNat % 4096 = 0 := by
  unfold lastVend
  suffices h : ∀ (last : Word), last.toNat % 4096 = 0 → (phdrs.foldl
      (fun last phdr => if phdr.loadable ∧ last < phdr.vend then phdr.vend else last) last).toNat %
        4096 = 0 from h 0#64 rfl
  induction phdrs with
  | nil => exact fun _ h => h
  | cons phdr phdrs ih =>
      intro last h
      apply ih
      dsimp only
      split
      · exact pageAlignUp_aligned _
      · exact h

/-- Where the loader lets a heap begin. -/
theorem createElf_heap {s : Vmm} {elf : ElfFile} {r : ElfReturn} {proc : Process}
    (hok : createElfAddressSpace s elf = .ok r) (hproc : r.proc = some proc) :
    proc.heapStart = (if lastVend elf.phdrs = 0#64 then userHeapBase else lastVend elf.phdrs) ∧
      proc.heapEnd = proc.heapStart := by
  obtain ⟨stack, load, -, -, -, -, -, -, -, hstart, hend⟩ := createElf_stages hok hproc
  exact ⟨hstart, hend⟩

theorem createElf_heap_aligned {s : Vmm} {elf : ElfFile} {r : ElfReturn} {proc : Process}
    (hok : createElfAddressSpace s elf = .ok r) (hproc : r.proc = some proc) :
    proc.heapStart.toNat % 4096 = 0 := by
  rw [(createElf_heap hok hproc).1]
  split
  · decide
  · exact lastVend_aligned _

/-- A process that `process_create_user` makes has no heap. -/
theorem processCreateUser_heap {fuel : Nat} {fns : Trampolines} {k k' : Kernel} {entry : Word}
    {p : NewProcess} (hok : processCreateUser fuel fns k entry = .ok (k', some p)) :
    p.proc.heapStart = 0#64 := by
  unfold processCreateUser at hok
  obtain ⟨⟨k₁, new⟩, halloc, hok⟩ := bind_ok hok
  cases new with
  | none => cases hok
  | some q =>
      have hq : q.proc.heapStart = 0#64 := by
        unfold processAlloc at halloc
        obtain ⟨⟨heap, proc⟩, -, halloc⟩ := bind_ok halloc
        dsimp only at halloc
        split at halloc
        · cases halloc
        · obtain ⟨⟨heap', kstack⟩, -, halloc⟩ := bind_ok halloc
          dsimp only at halloc
          split at halloc
          · obtain ⟨heap'', -, halloc⟩ := bind_ok halloc
            cases halloc
          · cases halloc
            rfl
      dsimp only at hok
      split at hok
      · obtain ⟨k₂, -, hok⟩ := bind_ok hok
        cases hok
      · obtain ⟨stack, -, hok⟩ := bind_ok hok
        split at hok
        · obtain ⟨vmm, -, hok⟩ := bind_ok hok
          split at hok
          · cases hok
          · split at hok
            · cases hok
            · cases hok
              exact hq
        · cases hok

theorem sysMapFb_proc {s : Vmm} {proc : Process} {r : HeapReturn}
    (hok : sysMapFb s proc = .ok r) : r.proc = proc := by
  unfold sysMapFb at hok
  split at hok
  · cases hok
    rfl
  · obtain ⟨s', -, hok⟩ := bind_ok hok
    cases hok
    rfl

/-- In every state of the system. -/
theorem heapStart_aligned {image : BootImage} {fns : Trampolines} {k : Kernel}
    {calls : List SystemCall} {s : System}
    (run : Run (SystemStep image fns) { kernel := k, users := [] } calls s) :
    ∀ proc ∈ s.users, proc.heapStart.toNat % 4096 = 0 := by
  refine run.invariant (fun s => ∀ proc ∈ s.users, proc.heapStart.toNat % 4096 = 0)
    (fun t call t' ht step => ?_) (fun _ h => nomatch h)
  have hadd : ∀ {k : Kernel} {new : Option NewProcess},
      (∀ p, new = some p → p.proc.heapStart.toNat % 4096 = 0) →
        ∀ proc ∈ (t.add k new).users, proc.heapStart.toNat % 4096 = 0 := by
    intro k new hnew proc hproc
    rcases List.mem_append.1 hproc with hold | hmem
    · exact ht proc hold
    · cases new with
      | none => cases hmem
      | some p =>
          obtain rfl := List.mem_singleton.1 hmem
          exact hnew p rfl
  cases call with
  | create entry =>
      obtain ⟨-, k, -, -, rfl⟩ := step
      exact ht
  | createUser entry =>
      obtain ⟨-, -, fuel, k, new, hok, rfl⟩ := step
      refine hadd fun p hp => ?_
      rw [hp] at hok
      rw [processCreateUser_heap hok]
      rfl
  | createElf path useLinuxAbi =>
      obtain ⟨fuel, stale, k, new, hok, rfl⟩ := step
      refine hadd fun p hp => ?_
      obtain ⟨-, ⟨-, hnone⟩ | ⟨_, _, r, -, hr, -, hspace⟩⟩ := processCreateElf_cases hok
      · rw [hp] at hnone
        cases hnone
      · rw [hp] at hspace
        cases hproc : r.proc with
        | none =>
            rw [hproc] at hspace
            cases hspace
        | some proc =>
            rw [hproc] at hspace
            have hstart : p.proc.heapStart = proc.heapStart :=
              congrArg (fun e => e.2.1) (Option.some.inj hspace)
            rw [hstart]
            exact createElf_heap_aligned hr hproc
  | user pid call =>
      obtain ⟨proc, r, hproc, hok, rfl⟩ := step
      intro other hother
      rcases List.mem_or_eq_of_mem_set hother with hold | rfl
      · exact ht other hold
      · have hsame : r.proc.heapStart = proc.heapStart := by
          by_cases hfb : call = .mapFb
          · subst hfb
            rw [sysMapFb_proc hok]
          · obtain ⟨⟨brk, hbrk⟩, -⟩ := UserCall.run_cases hfb hok
            rw [hbrk]
        rw [hsame]
        exact ht proc (List.mem_of_getElem? hproc)

/-! ### `brk` -/

section Brk

variable {image : BootImage} {window : Word → Prop} {tag : Word → Option Label} {s : Vmm}
  {proc : Process} {target : Word}

theorem HeapMapped.mono {mem : PhysMem} {pml4 lo lo' hi hi' : Word} (h : HeapMapped mem pml4 lo hi)
    (hlo : lo ≤ lo') (hhi : hi' ≤ hi) : HeapMapped mem pml4 lo' hi' :=
  fun v hv hv' => h v (BitVec.le_trans hlo hv)
    (show v.toNat < hi.toNat from Nat.lt_of_lt_of_le hv' hhi)

theorem HeapMapped.append {mem : PhysMem} {pml4 lo mid hi : Word} (h : HeapMapped mem pml4 lo mid)
    (h' : HeapMapped mem pml4 mid hi) : HeapMapped mem pml4 lo hi := by
  intro v hlo hhi
  rcases Nat.lt_or_ge v.toNat mid.toNat with hlt | hge
  · exact h v hlo hlt
  · exact h' v hge hhi

/-- The page of the break, above a page boundary. -/
theorem HeapMapped.break_page {mem : PhysMem} {pml4 lo brk v : Word} (h : HeapMapped mem pml4 lo brk)
    (haligned : lo.toNat % 4096 = 0) (hle : lo ≤ brk) (hbrk : brk ≤ v)
    (hv : v.toNat < (brk.toNat + 4095) / 4096 * 4096) : UserWritable mem pml4 v := by
  have hle' : lo.toNat ≤ brk.toNat := hle
  have hbrk' : brk.toNat ≤ v.toNat := hbrk
  have hpred : (brk - 1#64).toNat = brk.toNat - 1 := by
    rw [BitVec.toNat_sub_of_le (by show 1 ≤ brk.toNat; omega)]
    rfl
  have hbelow : UserWritable mem pml4 (brk - 1#64) := by
    refine h _ ?_ ?_
    · show lo.toNat ≤ (brk - 1#64).toNat
      omega
    · show (brk - 1#64).toNat < brk.toNat
      omega
  refine hbelow.samePage ((walkPath_eq_iff _ _).2 ?_)
  omega

/-- The pages below a break, once those between it and a higher one are mapped. -/
theorem HeapMapped.grow {pml4 lo brk hi : Word} {virt : Nat → Word} {count i : Nat} {out : FreshPages}
    (hmapped : HeapMapped s.mem pml4 lo brk) (h : PageTree image window tag s)
    (hroot : tag pml4 = some .root) (haligned : lo.toNat % 4096 = 0) (hle : lo ≤ brk)
    (hok : mapFreshPages pml4 virt userPage count i s = .ok out) (hcomplete : out.complete = true)
    (hcover : ∀ v : Word, (brk.toNat + 4095) / 4096 * 4096 ≤ v.toNat → v < hi →
      ∃ k, i ≤ k ∧ k < i + count ∧ walkPath v = walkPath (virt k)) :
    HeapMapped out.vmm.mem pml4 lo hi := by
  obtain ⟨hkept, hnew⟩ := mapFreshPages_userWritable h hroot hok
  intro v hlo hhi
  rcases Nat.lt_or_ge v.toNat brk.toNat with hlt | hge
  · exact hkept v (hmapped v hlo hlt)
  · rcases Nat.lt_or_ge v.toNat ((brk.toNat + 4095) / 4096 * 4096) with hpage | hpage
    · exact hkept v (hmapped.break_page haligned hle hge hpage)
    · obtain ⟨k, hk, hk', hpath⟩ := hcover v hpage hhi
      exact hnew hcomplete k hk hk' v hpath

/-- A page of a range, by its index. -/
theorem sbrkPage_walkPath {first v : Word} (hfirst : first.toNat % 4096 = 0)
    (hlo : first.toNat ≤ v.toNat) :
    walkPath v = walkPath (sbrkPage first ((v.toNat - first.toNat) / 4096)) := by
  have hlt := v.isLt
  have hpage : (sbrkPage first ((v.toNat - first.toNat) / 4096)).toNat =
      first.toNat + (v.toNat - first.toNat) / 4096 * 4096 := by
    show (first + BitVec.ofNat 64 ((v.toNat - first.toNat) / 4096 * 4096)).toNat = _
    rw [BitVec.toNat_add, BitVec.toNat_ofNat]
    omega
  rw [walkPath_eq_iff, hpage]
  omega

/-- A `brk` below the last page maps what is missing up to the new break. -/
theorem brk_grows {out : FreshPages} (h : PageTree image window tag s)
    (hroot : tag proc.pageTable = some .root) (haligned : proc.heapStart.toNat % 4096 = 0)
    (hle : proc.heapStart ≤ proc.heapEnd)
    (hmapped : HeapMapped s.mem proc.pageTable proc.heapStart proc.heapEnd)
    (hgrow : proc.heapEnd < target) (htop : target ≤ topPage)
    (hmap : mapFreshPages proc.pageTable (sbrkPage (pageAlignUp proc.heapEnd)) userPage
      (brkPages (pageAlignUp proc.heapEnd) (pageAlignUp target)) 0 s = .ok out)
    (hcomplete : out.complete = true) :
    HeapMapped out.vmm.mem proc.pageTable proc.heapStart target := by
  have htop' : target.toNat ≤ 2 ^ 64 - 4096 := htop
  have hgrow' : proc.heapEnd.toNat < target.toNat := hgrow
  have hfirst := @toNat_pageAlignUp proc.heapEnd (by omega)
  have hlast := toNat_pageAlignUp htop'
  refine hmapped.grow h hroot haligned hle hmap hcomplete fun v hlo hhi => ?_
  have hhi' : v.toNat < target.toNat := hhi
  refine ⟨_, Nat.zero_le _, ?_, sbrkPage_walkPath (pageAlignUp_aligned _) (by omega)⟩
  show _ < 0 + ((pageAlignUp target).toNat - (pageAlignUp proc.heapEnd).toNat) / 4096
  omega

/-- In the last page the end of the range is rounded up to 0. -/
theorem brkPages_wrap {first : Word} (htop : ¬ target ≤ topPage) :
    brkPages first (pageAlignUp target) = 0 := by
  have hgt : ¬ target.toNat ≤ 2 ^ 64 - 4096 := htop
  have hlt := target.isLt
  have hzero : (pageAlignUp target).toNat = 0 := by
    have hmask : pageAlignUp target = entryAddr (target + 0xFFF#64) := rfl
    rw [hmask, toNat_entryAddr, BitVec.toNat_add, BitVec.toNat_ofNat]
    omega
  unfold brkPages
  rw [hzero, Nat.zero_sub, Nat.zero_div]

theorem linuxBrk_mapped_iff {r : HeapReturn} (h : PageTree image window tag s)
    (hroot : tag proc.pageTable = some .root) (haligned : proc.heapStart.toNat % 4096 = 0)
    (hle : proc.heapStart ≤ proc.heapEnd)
    (hmapped : HeapMapped s.mem proc.pageTable proc.heapStart proc.heapEnd)
    (hok : linuxBrk s proc target = .ok r) (hend : r.proc.heapEnd = target) :
    HeapMapped r.vmm.mem proc.pageTable proc.heapStart target ↔
      target ≤ topPage ∨ target ≤ proc.heapEnd ∨
        HeapMapped s.mem proc.pageTable proc.heapEnd target := by
  unfold linuxBrk at hok
  by_cases hstay : target = 0#64 ∨ target < proc.heapStart
  · rw [if_pos hstay] at hok
    cases hok
    subst hend
    exact ⟨fun _ => .inr (.inl (BitVec.le_refl _)), fun _ => hmapped⟩
  · rw [if_neg hstay] at hok
    by_cases hgrow : proc.heapEnd < target
    · rw [if_pos hgrow] at hok
      obtain ⟨out, hmap, hok⟩ := bind_ok hok
      cases hc : out.complete with
      | false =>
          rw [if_neg (by simp [hc])] at hok
          cases hok
      | true =>
          rw [if_pos hc] at hok
          cases hok
          by_cases htop : target ≤ topPage
          · have hall := brk_grows h hroot haligned hle hmapped hgrow htop hmap hc
            exact ⟨fun _ => .inl htop, fun _ => hall⟩
          · -- nothing is mapped
            rw [brkPages_wrap htop] at hmap
            cases hmap
            constructor
            · exact fun hall => .inr (.inr (hall.mono hle (BitVec.le_refl _)))
            · rintro (hlow | hlow | hmissing)
              · exact absurd hlow htop
              · exact absurd hgrow (BitVec.not_lt.2 hlow)
              · exact hmapped.append hmissing
    · rw [if_neg hgrow] at hok
      cases hok
      have hbelow : target ≤ proc.heapEnd := BitVec.not_lt.1 hgrow
      exact ⟨fun _ => .inr (.inl hbelow), fun _ => hmapped.mono (BitVec.le_refl _) hbelow⟩

end Brk

/-- The first process of a system, its heap empty and nothing mapped there. -/
theorem firstProcess (fns : Trampolines) : ∃ (k : Kernel) (s : System) (proc : Process)
    (tag : Word → Option Label), kernelBoot bootedImage (fun _ _ => 0#64) = .ok k.vmm ∧
      Run (SystemStep bootedImage fns) { kernel := k, users := [] } [.createElf [97] 0#32] s ∧
      s.users[0]? = some proc ∧ TreeInv bootedImage tag s.kernel.vmm ∧
      UserRoot bootedImage tag proc.pageTable ∧ proc.heapStart = userHeapBase ∧
      proc.heapEnd = userHeapBase ∧ 50000 ≤ s.kernel.vmm.pmm.freeSet.card ∧
      translate s.kernel.vmm.mem proc.pageTable userHeapBase = none := by
  obtain ⟨vmm, k, proc, boot, hcreate, hstart, hend, hcard, hnone⟩ :=
    emptyProgram_system (fun _ _ => 0#64) fns
  obtain ⟨tag, inv⟩ := SystemInv.of_run (k := fileKernel vmm (elfHeader 0) (by decide)) boot
    (.single hcreate)
  exact ⟨fileKernel vmm (elfHeader 0) (by decide), _, proc, tag, boot, .single hcreate, rfl,
    inv.toTreeInv, inv.users proc (List.mem_singleton.2 rfl), hstart, hend, hcard,
    hnone _ (by decide) (by decide)⟩

/-- When a `brk` leaves the break it was asked for, every page below it is mapped unless the break
    was raised into the last page of the address range. -/
theorem brk_mapped (image : BootImage) (fns : Trampolines) (ram : PhysMem) (k : Kernel)
    (boot : kernelBoot image ram = .ok k.vmm) (history : List SystemCall) (s : System)
    (start : Run (SystemStep image fns) { kernel := k, users := [] } history s) (pid : Nat)
    (proc : Process) (hproc : s.users[pid]? = some proc) (brk : Word) (hle : proc.heapStart ≤ brk)
    (hmapped : HeapMapped s.kernel.vmm.mem proc.pageTable proc.heapStart brk) (target : Word)
    (r : HeapReturn)
    (hok : linuxBrk (vmmSwitchAddressSpace s.kernel.vmm proc.pageTable) { proc with heapEnd := brk }
      target = .ok r) (hend : r.proc.heapEnd = target) :
    HeapMapped r.vmm.mem proc.pageTable proc.heapStart target ↔
      target ≤ topPage ∨ target ≤ brk ∨
        HeapMapped s.kernel.vmm.mem proc.pageTable brk target := by
  obtain ⟨tag, inv⟩ := SystemInv.of_run boot start
  have hmem := List.mem_of_getElem? hproc
  have haligned := heapStart_aligned start proc hmem
  have htree := (inv.toTreeInv.switch proc.pageTable).tree
  exact @linuxBrk_mapped_iff image (ReservedFrame image) tag
    (vmmSwitchAddressSpace s.kernel.vmm proc.pageTable) { proc with heapEnd := brk } target r htree
    (inv.users proc hmem).1 haligned hle hmapped hok hend

/-- One page of heap. -/
theorem brk_mapped_one_page : ∃ (k : Kernel) (s : System) (proc : Process) (r : HeapReturn),
    kernelBoot bootedImage (fun _ _ => 0#64) = .ok k.vmm ∧
      Run (SystemStep bootedImage ⟨0#64, 0#64⟩) { kernel := k, users := [] } [.createElf [97] 0#32]
        s ∧ s.users[0]? = some proc ∧
      linuxBrk (vmmSwitchAddressSpace s.kernel.vmm proc.pageTable) proc (userHeapBase + 4096#64) =
        .ok r ∧
      HeapMapped r.vmm.mem proc.pageTable userHeapBase (userHeapBase + 4096#64) := by
  obtain ⟨k, s, proc, tag, boot, run, hproc, htree, hroot, hstart, hend, hcard, -⟩ :=
    firstProcess ⟨0#64, 0#64⟩
  obtain ⟨out, n, tag', hmap, hcomplete, -⟩ :=
    (htree.switch proc.pageTable).heap_page hroot (Nat.le_trans (by decide) hcard)
  have hround : pageAlignUp userHeapBase = userHeapBase ∧
      brkPages userHeapBase (pageAlignUp (userHeapBase + 4096#64)) = 1 := by decide
  have hok := @linuxBrk_raises (vmmSwitchAddressSpace s.kernel.vmm proc.pageTable) proc
    (userHeapBase + 4096#64) out (by rw [hstart]; decide) (by rw [hend]; decide)
    (by rw [hend, hround.1, hround.2]; exact hmap) hcomplete
  have hsame : ({ proc with heapEnd := userHeapBase } : Process) = proc := by rw [← hend]
  refine ⟨k, s, proc, _, boot, run, hproc, hok, ?_⟩
  rw [← hsame] at hok
  have hall := brk_mapped bootedImage ⟨0#64, 0#64⟩ _ k boot _ s run 0 proc hproc userHeapBase
    (by rw [hstart]; decide) (fun v hlo hhi => absurd hhi (BitVec.not_lt.2 (hstart ▸ hlo)))
    (userHeapBase + 4096#64) _ hok rfl
  rw [hstart] at hall
  exact hall.2 (.inl (by decide))

/-- A break in the last page of the address range, with no page of the heap mapped. -/
theorem brk_wraps : ∃ (k : Kernel) (s : System) (proc : Process) (r : HeapReturn),
    kernelBoot bootedImage (fun _ _ => 0#64) = .ok k.vmm ∧
      Run (SystemStep bootedImage ⟨0#64, 0#64⟩) { kernel := k, users := [] } [.createElf [97] 0#32]
        s ∧ s.users[0]? = some proc ∧ proc.heapStart ≤ proc.heapEnd ∧
      HeapMapped s.kernel.vmm.mem proc.pageTable proc.heapStart proc.heapEnd ∧
      linuxBrk (vmmSwitchAddressSpace s.kernel.vmm proc.pageTable) proc 0xFFFFFFFFFFFFFFFF#64 =
        .ok r ∧ r.proc.heapEnd = 0xFFFFFFFFFFFFFFFF#64 ∧
      ¬ HeapMapped r.vmm.mem proc.pageTable proc.heapStart 0xFFFFFFFFFFFFFFFF#64 := by
  obtain ⟨k, s, proc, tag, boot, run, hproc, htree, hroot, hstart, hend, -, hnone⟩ :=
    firstProcess ⟨0#64, 0#64⟩
  have hround : brkPages (pageAlignUp userHeapBase) (pageAlignUp 0xFFFFFFFFFFFFFFFF#64) = 0 := by
    decide
  have hok := @linuxBrk_raises (vmmSwitchAddressSpace s.kernel.vmm proc.pageTable) proc
    0xFFFFFFFFFFFFFFFF#64 _ (by rw [hstart]; decide) (by rw [hend]; decide)
    (by rw [hend, hround]; rfl) rfl
  refine ⟨k, s, proc, _, boot, run, hproc, ?_, ?_, hok, rfl, fun hall => ?_⟩
  · rw [hstart, hend]
    decide
  · rw [hstart, hend]
    exact fun v hlo hhi => absurd hhi (BitVec.not_lt.2 hlo)
  · rw [hstart] at hall
    obtain ⟨tr, htr, -⟩ := hall userHeapBase (by decide) (by decide)
    cases hnone.symm.trans htr

/-! ### `sbrk` -/

section Sbrk

variable {s : Vmm} {proc : Process} {increment : Word} {r : HeapReturn}

/-- What `sys_sbrk` does for a process with a heap: nothing, the whole growth, or a part of it. -/
theorem sysSbrk_cases (hstart : proc.heapStart ≠ 0#64) (hok : sysSbrk s proc increment = .ok r) :
    (increment = 0#64 ∧ r = { vmm := s, proc := proc, result := proc.heapEnd, frames := [] }) ∨
      increment ≠ 0#64 ∧ ∃ out, mapFreshPages proc.pageTable (sbrkPage proc.heapStart) userPage
          (sbrkPages proc.heapStart (proc.heapEnd + increment) -
            sbrkPages proc.heapStart proc.heapEnd)
          (sbrkPages proc.heapStart proc.heapEnd) s = .ok out ∧
        (out.complete = true ∧ r = { vmm := out.vmm
                                     proc := { proc with heapEnd := proc.heapEnd + increment }
                                     result := proc.heapEnd, frames := out.frames } ∨
          out.complete = false ∧
            r = { vmm := out.vmm, proc := proc, result := failed, frames := out.frames }) := by
  unfold sysSbrk at hok
  rw [if_neg hstart] at hok
  by_cases hzero : increment = 0#64
  · rw [if_pos hzero] at hok
    cases hok
    exact .inl ⟨hzero, rfl⟩
  · rw [if_neg hzero] at hok
    obtain ⟨out, hmap, hok⟩ := bind_ok hok
    refine .inr ⟨hzero, out, hmap, ?_⟩
    cases hc : out.complete with
    | true =>
        rw [if_pos hc] at hok
        cases hok
        exact .inl ⟨rfl, rfl⟩
    | false =>
        rw [if_neg (by simp [hc])] at hok
        cases hok
        exact .inr ⟨rfl, rfl⟩

/-- A growth that gets through. -/
theorem sysSbrk_grows {out : FreshPages} (hstart : proc.heapStart ≠ 0#64) (hne : increment ≠ 0#64)
    (hmap : mapFreshPages proc.pageTable (sbrkPage proc.heapStart) userPage
      (sbrkPages proc.heapStart (proc.heapEnd + increment) - sbrkPages proc.heapStart proc.heapEnd)
      (sbrkPages proc.heapStart proc.heapEnd) s = .ok out) (hcomplete : out.complete = true) :
    sysSbrk s proc increment = .ok
      { vmm := out.vmm, proc := { proc with heapEnd := proc.heapEnd + increment }
        result := proc.heapEnd, frames := out.frames } := by
  unfold sysSbrk
  rw [if_neg hstart, if_neg hne]
  simp only [hmap]
  show (if out.complete = true then _ else _) = _
  rw [if_pos hcomplete]
  rfl

/-- The number of pages below a break that is not below the heap. -/
theorem sbrkPages_above {base brk : Word} (hbase : base ≠ 0#64) (haligned : base.toNat % 4096 = 0)
    (hle : base ≤ brk) : sbrkPages base brk = (brk.toNat - base.toNat + 4095) / 4096 := by
  have hne : base.toNat ≠ 0 := fun hzero => hbase (BitVec.eq_of_toNat_eq hzero)
  have hlt := brk.isLt
  exact sbrkPages_eq hle (by omega)

/-- The break is in the heap, what lies below it is mapped, and every page of it took a frame. -/
structure BreakInv (image : BootImage) (p : Process) (t : Vmm × Process) : Prop where
  tree : ∃ tag, TreeInv image tag t.1 ∧ UserRoot image tag p.pageTable
  proc : t.2.pageTable = p.pageTable ∧ t.2.heapStart = p.heapStart
  inside : p.heapStart ≤ t.2.heapEnd
  mapped : HeapMapped t.1.mem p.pageTable p.heapStart t.2.heapEnd
  frames : sbrkPages p.heapStart t.2.heapEnd + t.1.pmm.freeSet.card ≤ totalFrames

/-- An `sbrk` whose sum does not fall below the heap. -/
theorem BreakInv.sbrk {image : BootImage} {p : Process} {t : Vmm × Process}
    (inv : BreakInv image p t) (hstart : p.heapStart ≠ 0#64)
    (haligned : p.heapStart.toNat % 4096 = 0) (hguard : t.2.heapStart ≤ t.2.heapEnd + increment)
    (hok : sysSbrk t.1 t.2 increment = .ok r) :
    BreakInv image p (r.vmm, r.proc) ∧
      (0 < increment.toInt → r.result ≠ failed → r.result = t.2.heapEnd ∧
        r.proc.heapEnd = t.2.heapEnd + increment ∧
        t.2.heapEnd.toNat + increment.toNat < 2 ^ 64) := by
  obtain ⟨s, proc⟩ := t
  obtain ⟨tag, htree, hroot⟩ := inv.tree
  obtain ⟨htable, hsame⟩ := inv.proc
  have hinside := inv.inside
  have hmapped := inv.mapped
  have hframes := inv.frames
  dsimp only at htree htable hsame hinside hmapped hframes hok hguard ⊢
  have hstart' : proc.heapStart ≠ 0#64 := hsame ▸ hstart
  rcases sysSbrk_cases hstart' hok with ⟨hzero, rfl⟩ | ⟨hne, out, hmap, hcase⟩
  · refine ⟨inv, fun hpos => ?_⟩
    rw [hzero] at hpos
    cases hpos
  · rw [htable, hsame] at hmap
    rw [hsame] at hguard
    obtain ⟨tag', htree', hext, -⟩ := htree.pages hroot userPage_flags hmap
    obtain ⟨m, hm, hall, tag'', hpages⟩ := mapFreshPages_spec userPage_flags _ _ tag s out
      htree.tree.tagged hroot.1 hmap
    have hcard := hpages.card
    have hold := sbrkPages_above hstart haligned hinside
    rcases hcase with ⟨hcomplete, rfl⟩ | ⟨-, rfl⟩
    · -- the whole growth
      have hnew := sbrkPages_above hstart haligned hguard
      rw [hall hcomplete] at hcard
      have htotal : totalFrames = 65536 := by decide
      have hlow : p.heapStart.toNat ≤ proc.heapEnd.toNat := hinside
      have hlow' : p.heapStart.toNat ≤ (proc.heapEnd + increment).toNat := hguard
      refine ⟨⟨⟨tag', htree', hroot.ext hext⟩, ⟨htable, hsame⟩, hguard, ?_, ?_⟩, fun hpos _ =>
        ⟨rfl, rfl, ?_⟩⟩
      · refine hmapped.grow htree.tree hroot.1 haligned hinside hmap hcomplete fun v hlo hhi => ?_
        have hhi' : v.toNat < (proc.heapEnd + increment).toNat := hhi
        exact ⟨_, by omega, by omega, sbrkPage_walkPath haligned (by omega)⟩
      · dsimp only
        omega
      · -- a sum that wraps would lie below the heap
        have hsmall : increment.toNat < 2 ^ 63 := by
          have hcond := BitVec.toInt_eq_toNat_cond increment
          have := increment.isLt
          split at hcond <;> omega
        have hsum := BitVec.toNat_add proc.heapEnd increment
        have := increment.isLt
        omega
    · -- a part of it: the break stays
      refine ⟨⟨⟨tag', htree', hroot.ext hext⟩, ⟨htable, hsame⟩, hinside, ?_, ?_⟩,
        fun _ hbad => absurd rfl hbad⟩
      · have hkept := (mapFreshPages_userWritable htree.tree hroot.1 hmap).1
        exact fun v hlo hhi => hkept v (hmapped v hlo hhi)
      · dsimp only
        omega

end Sbrk

/-- An `sbrk` that returns. -/
def SbrkStep (t : Vmm × Process) (increment : Word) (t' : Vmm × Process) : Prop :=
  ∃ r, sysSbrk t.1 t.2 increment = .ok r ∧ t' = (r.vmm, r.proc)

/-- The sum of break and increment, in 64 bits, is not below the heap. -/
def BreakAbove (t : Vmm × Process) (increment : Word) : Prop :=
  t.2.heapStart ≤ t.2.heapEnd + increment

/-- Every segment ends where the heap starts, or before. -/
theorem vend_le_lastVend {phdrs : List Phdr} {phdr : Phdr} (hmem : phdr ∈ phdrs)
    (hload : phdr.loadable = true) : phdr.vend ≤ lastVend phdrs := by
  unfold lastVend
  suffices h : ∀ (list : List Phdr) (last : Word),
      last ≤ list.foldl (fun last phdr => if phdr.loadable ∧ last < phdr.vend then phdr.vend else last)
        last ∧
      (phdr ∈ list → phdr.vend ≤ list.foldl
        (fun last phdr => if phdr.loadable ∧ last < phdr.vend then phdr.vend else last) last) from
    (h phdrs 0#64).2 hmem
  intro list
  induction list with
  | nil => exact fun last => ⟨BitVec.le_refl _, fun hmem => absurd hmem List.not_mem_nil⟩
  | cons head list ih =>
      intro last
      have hhead : last ≤ (if head.loadable ∧ last < head.vend then head.vend else last) := by
        split
        · rename_i hlt
          exact BitVec.le_of_lt hlt.2
        · exact BitVec.le_refl _
      refine ⟨BitVec.le_trans hhead (ih _).1, fun hcons => ?_⟩
      rcases List.mem_cons.1 hcons with rfl | htail
      · refine BitVec.le_trans ?_ (ih _).1
        dsimp only
        split
        · exact BitVec.le_refl _
        · rename_i hge
          exact BitVec.not_lt.1 fun hlt => hge ⟨hload, hlt⟩
      · exact (ih _).2 htail

/-- A new process. -/
theorem BreakInv.created {image : BootImage} {tag : Word → Option Label} {k : Kernel} {elf : ElfFile}
    {r : ElfReturn} {proc p : Process} (h : TreeInv image tag k.vmm)
    (hcr3 : k.vmm.cr3 = image.pml4Table) (hok : createElfAddressSpace k.vmm elf = .ok r)
    (hproc : r.proc = some proc) (hspace : spaceOf p = spaceOf proc) :
    BreakInv image p (vmmSwitchAddressSpace r.vmm p.pageTable, p) ∧ p.heapStart ≠ 0#64 ∧
      p.heapStart.toNat % 4096 = 0 ∧ lastVend elf.phdrs ≤ p.heapStart := by
  obtain ⟨hheap, hempty⟩ := createElf_heap hok hproc
  have haligned := createElf_heap_aligned hok hproc
  have htable : p.pageTable = proc.pageTable := congrArg Prod.fst hspace
  have hstart : p.heapStart = proc.heapStart := congrArg (fun e => e.2.1) hspace
  have hend : p.heapEnd = p.heapStart := by
    rw [hstart, ← hempty]
    exact congrArg (fun e => e.2.2) hspace
  obtain ⟨tag', htree, -, hroots⟩ := h.createElf hcr3 hok
  refine ⟨⟨⟨tag', htree.switch _, htable ▸ hroots proc hproc⟩, ⟨rfl, rfl⟩, ?_, ?_, ?_⟩, ?_,
    hstart ▸ haligned, ?_⟩
  · exact hend ▸ BitVec.le_refl _
  · intro v hlo hhi
    rw [hend] at hhi
    exact absurd hhi (BitVec.not_lt.2 hlo)
  · have hnone : sbrkPages p.heapStart p.heapEnd = 0 := by
      rw [hend]
      exact if_neg (BitVec.lt_irrefl _)
    dsimp only
    rw [hnone, Nat.zero_add]
    exact freeSet_card_le _
  · rw [hstart, hheap]
    split
    · decide
    · assumption
  · rw [hstart, hheap]
    split
    · rename_i hzero
      rw [hzero]
      exact Nat.zero_le _
    · exact BitVec.le_refl _

/-- Every sequence of `sbrk` calls whose sums do not fall below the heap keeps the break in the heap,
    and what such a call grants lies behind the segments and is mapped. -/
theorem sbrk_break_inside (image : BootImage) (fns : Trampolines) (ram : PhysMem) (k : Kernel)
    (boot : kernelBoot image ram = .ok k.vmm) (history : List SystemCall) (s : System)
    (start : Run (SystemStep image fns) { kernel := k, users := [] } history s) (fuel : Nat)
    (stale : Stale) (path : List Byte) (useLinuxAbi : BitVec 32) (k₁ : Kernel) (p : NewProcess)
    (create : processCreateElf fuel stale fns (s.constructing image) path useLinuxAbi =
      .ok (k₁, some p)) (increments : List Word) (t : Vmm × Process)
    (run : Run (Guarded BreakAbove SbrkStep)
      (vmmSwitchAddressSpace k₁.vmm p.proc.pageTable, p.proc) increments t) :
    t.2.heapStart ≤ t.2.heapEnd ∧
      ∀ (increment : Word) (r : HeapReturn), BreakAbove t increment →
        sysSbrk t.1 t.2 increment = .ok r → 0 < increment.toInt → r.result ≠ failed →
        t.2.heapStart ≤ r.result ∧ r.result.toNat + increment.toNat < 2 ^ 64 ∧
          HeapMapped r.vmm.mem t.2.pageTable r.result (r.result + increment) ∧
          ∀ pos size, findFile s.kernel.disk.image s.kernel.disk.length path
              (s.kernel.disk.length / 512 + 1) 0 = some (pos, size) →
            ∀ phdr ∈ (fileProgram stale s.kernel.disk.image (openedFile pos size)).phdrs,
              phdr.loadable = true → ∀ v, phdr.vstart ≤ v → v < phdr.vend →
                v.toNat / 4096 < r.result.toNat / 4096 := by
  obtain ⟨tag, sys⟩ := SystemInv.of_run boot start
  obtain ⟨-, ⟨-, hnone⟩ | ⟨pos, size, r₀, hfind, hr₀, hvmm, hspace⟩⟩ := processCreateElf_cases create
  · cases hnone
  · cases hproc : r₀.proc with
    | none =>
        rw [hproc] at hspace
        cases hspace
    | some proc =>
        rw [hproc] at hspace
        obtain ⟨hinit, hstart, haligned, hlast⟩ := BreakInv.created
          (sys.toTreeInv.switch image.pml4Table) rfl hr₀ hproc (Option.some.inj hspace)
        rw [← hvmm] at hinit
        have inv : BreakInv image p.proc t := by
          refine run.invariant (BreakInv image p.proc) (fun t increment t' ht step => ?_) hinit
          obtain ⟨hguard, r, hok, rfl⟩ := step
          exact (ht.sbrk hstart haligned hguard hok).1
        have hsame := inv.proc.2
        refine ⟨hsame ▸ inv.inside, fun increment r hguard hok hpos hsuccess => ?_⟩
        obtain ⟨inv', hgrant⟩ := inv.sbrk hstart haligned hguard hok
        obtain ⟨hresult, hbrk, hwrap⟩ := hgrant hpos hsuccess
        have hmapped := inv'.mapped
        dsimp only at hmapped
        rw [hbrk] at hmapped
        rw [hresult, hsame, inv.proc.1]
        refine ⟨inv.inside, hwrap, hmapped.mono inv.inside (BitVec.le_refl _), ?_⟩
        intro pos' size' hfind' phdr hphdr hload v _ hv
        obtain ⟨rfl, rfl⟩ := Prod.mk.inj (Option.some.inj (hfind.symm.trans hfind'))
        have hend : v.toNat < p.proc.heapStart.toNat :=
          Nat.lt_of_lt_of_le hv (BitVec.le_trans (vend_le_lastVend hphdr hload) hlast)
        have hinside : p.proc.heapStart.toNat ≤ t.2.heapEnd.toNat := inv.inside
        omega

/-- The break of a new process goes up by a page, back by half of it, and up inside the page. -/
theorem sbrk_break_inside_up_and_down : ∃ (k k₁ : Kernel) (fuel : Nat) (stale : Stale)
    (p : NewProcess) (t : Vmm × Process) (r : HeapReturn),
    kernelBoot bootedImage (fun _ _ => 0#64) = .ok k.vmm ∧
      processCreateElf fuel stale ⟨0#64, 0#64⟩
        (System.constructing bootedImage { kernel := k, users := [] }) [97] 0#32 =
          .ok (k₁, some p) ∧
      Run (Guarded BreakAbove SbrkStep) (vmmSwitchAddressSpace k₁.vmm p.proc.pageTable, p.proc)
        [4096#64, -2048#64] t ∧
      sysSbrk t.1 t.2 1000#64 = .ok r ∧ r.result = userHeapBase + 2048#64 ∧
      HeapMapped r.vmm.mem p.proc.pageTable (userHeapBase + 2048#64) (userHeapBase + 3048#64) := by
  obtain ⟨k, fuel, stale, k₁, p, tag, boot, hok, htree, hroot, hstart, hend, hcard⟩ :=
    firstProgram ⟨0#64, 0#64⟩
  obtain ⟨out, n, tag', hmap, hcomplete, -⟩ :=
    (htree.switch p.proc.pageTable).heap_page hroot (Nat.le_trans (by decide) hcard)
  have hup := sysSbrk_first_page hstart hend hmap hcomplete
  have hstart₁ : p.proc.heapStart ≠ 0#64 := by
    rw [hstart]
    decide
  have hsum : userHeapBase + 4096#64 + -2048#64 = userHeapBase + 2048#64 ∧
      userHeapBase + 2048#64 + 1000#64 = userHeapBase + 3048#64 := by decide
  -- the page stays mapped, so the other two calls map nothing
  have hpages : sbrkPages userHeapBase (userHeapBase + 2048#64) -
        sbrkPages userHeapBase (userHeapBase + 4096#64) = 0 ∧
      sbrkPages userHeapBase (userHeapBase + 3048#64) -
        sbrkPages userHeapBase (userHeapBase + 2048#64) = 0 := by decide
  have hdown := @sysSbrk_grows out.vmm { p.proc with heapEnd := userHeapBase + 4096#64 } (-2048#64)
    { vmm := out.vmm, frames := [], complete := true } hstart₁ (by decide)
    (by rw [hstart, hsum.1, hpages.1]; rfl) rfl
  rw [hsum.1] at hdown
  have hagain := @sysSbrk_grows out.vmm { p.proc with heapEnd := userHeapBase + 2048#64 } 1000#64
    { vmm := out.vmm, frames := [], complete := true } hstart₁ (by decide)
    (by rw [hstart, hsum.2, hpages.2]; rfl) rfl
  have hguard : ∀ brk increment : Word, userHeapBase ≤ brk + increment → ∀ s,
      BreakAbove (s, { p.proc with heapEnd := brk }) increment := by
    intro brk increment hle s
    show p.proc.heapStart ≤ brk + increment
    rwa [hstart]
  have hfirst := hguard userHeapBase 4096#64 (by decide)
    (vmmSwitchAddressSpace k₁.vmm p.proc.pageTable)
  rw [← hend] at hfirst
  have run : Run (Guarded BreakAbove SbrkStep)
      (vmmSwitchAddressSpace k₁.vmm p.proc.pageTable, p.proc) [4096#64, -2048#64]
      (out.vmm, { p.proc with heapEnd := userHeapBase + 2048#64 }) :=
    .cons ⟨hfirst, _, hup, rfl⟩ (.single ⟨hguard _ _ (by decide) _, _, hdown, rfl⟩)
  obtain ⟨-, -, hmapped, -⟩ := (sbrk_break_inside bootedImage ⟨0#64, 0#64⟩ _ k boot [] _ (.nil _) fuel
    stale [97] 0#32 k₁ p hok _ _ run).2 1000#64 _ (hguard _ _ (by decide) _) hagain (by decide)
      (show userHeapBase + 2048#64 ≠ failed by decide)
  dsimp only at hmapped
  rw [hsum.2] at hmapped
  exact ⟨k, k₁, fuel, stale, p, _, _, boot, hok, run, hagain, rfl, hmapped⟩

/-- A break below the heap, then a growth from there. -/
theorem sbrk_back {s : Vmm} {proc : Process} {brk back forth : Word} {out : FreshPages}
    (hstart : proc.heapStart ≠ 0#64) (hback : back ≠ 0#64) (hbrk : proc.heapEnd + back = brk)
    (hlow : brk < proc.heapStart) (hsuccess : brk ≠ failed) (hforth : forth ≠ 0#64)
    (hmap : mapFreshPages proc.pageTable (sbrkPage proc.heapStart) userPage
      (sbrkPages proc.heapStart (brk + forth)) 0 s = .ok out) (hcomplete : out.complete = true) :
    ∃ (t : Vmm × Process) (r : HeapReturn), SbrkStep (s, proc) back t ∧
      ¬ t.2.heapStart ≤ t.2.heapEnd ∧ sysSbrk t.1 t.2 forth = .ok r ∧ r.result ≠ failed ∧
      r.result < t.2.heapStart := by
  have hpages : sbrkPages proc.heapStart brk = 0 :=
    if_neg (BitVec.not_lt.2 (BitVec.le_of_lt hlow))
  have hlower := @sysSbrk_grows s proc back { vmm := s, frames := [], complete := true } hstart hback
    (by rw [hbrk, hpages, Nat.zero_sub]; rfl) rfl
  rw [hbrk] at hlower
  have hraise := @sysSbrk_grows s { proc with heapEnd := brk } forth out hstart hforth
    (by dsimp only; rw [hpages]; exact hmap) hcomplete
  exact ⟨_, _, ⟨_, hlower, rfl⟩, BitVec.not_le.2 hlow, hraise, hsuccess, hlow⟩

/-- The break goes below the heap and comes back: the second call returns an address in front of the
    heap. -/
theorem sbrk_break_below : ∃ (k k₁ : Kernel) (fuel : Nat) (stale : Stale) (p : NewProcess)
    (t : Vmm × Process) (r : HeapReturn), kernelBoot bootedImage (fun _ _ => 0#64) = .ok k.vmm ∧
      processCreateElf fuel stale ⟨0#64, 0#64⟩
        (System.constructing bootedImage { kernel := k, users := [] }) [97] 0#32 =
          .ok (k₁, some p) ∧ p.proc.heapStart ≠ 0#64 ∧
      SbrkStep (vmmSwitchAddressSpace k₁.vmm p.proc.pageTable, p.proc) (-1#64) t ∧
      ¬ t.2.heapStart ≤ t.2.heapEnd ∧
      sysSbrk t.1 t.2 2#64 = .ok r ∧ r.result ≠ failed ∧ r.result < t.2.heapStart := by
  obtain ⟨k, fuel, stale, k₁, p, tag, boot, hok, htree, hroot, hstart, hend, hcard⟩ :=
    firstProgram ⟨0#64, 0#64⟩
  obtain ⟨out, n, tag', hmap, hcomplete, -⟩ :=
    (htree.switch p.proc.pageTable).heap_page hroot (Nat.le_trans (by decide) hcard)
  have hheap : p.proc.heapStart ≠ 0#64 := by
    rw [hstart]
    decide
  have hpages : sbrkPages userHeapBase (userHeapBase + -1#64 + 2#64) = 1 := by decide
  obtain ⟨t, r, hstep, hbelow, hagain, hsuccess, hlow⟩ :=
    @sbrk_back (vmmSwitchAddressSpace k₁.vmm p.proc.pageTable) p.proc (userHeapBase + -1#64) (-1#64)
      2#64 out hheap (by decide) (by rw [hend]) (by rw [hstart]; decide) (by decide) (by decide)
      (by rw [hstart, hpages]; exact hmap) hcomplete
  exact ⟨k, k₁, fuel, stale, p, t, r, boot, hok, hheap, hstep, hbelow, hagain, hsuccess, hlow⟩

end CustomKernel
