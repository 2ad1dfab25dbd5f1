/-
Module: CustomKernel.Proofs.UserConfinement
Layer: Proofs
Purpose: What user processes can reach. Every page a process gets lies above PML4 index 0 as long as
  the calls that grow its heap are aimed there; then its address space maps frames the allocator
  handed out for its own pages and the VGA window, and the kernel's part is as it was at boot. The
  calls do not check where they map: a break can be moved so that the next page is one of the
  kernel heap.
Imports: CustomKernel.Proofs.PrivateWork
Trusted boundary: none (fully proved)
Main exports: UserSystem, UserInv, user_access_confined, user_access_not_confined
-/
import CustomKernel.Proofs.PrivateWork

namespace CustomKernel.Syscall

open CustomKernel.Memory CustomKernel.Filesystem StepSystem

/-! ### Processes and their system calls -/

/-- A user process with the frames `pmm_alloc` has handed out for its pages. -/
structure UserProcess where
  proc : Process
  frames : List Word

/-- The machine and the user processes, by the order in which they were created. -/
structure UserSystem where
  vmm : Vmm
  users : Nat → Option UserProcess
  next : Nat

/-- `process_create_elf` during boot, of a file whose segments lie at PML4 index 1. -/
def CreateStep (s : UserSystem) (elf : ElfFile) (s' : UserSystem) : Prop :=
  (∀ phdr ∈ elf.phdrs, phdr.loadable = true → AtIndexOne phdr) ∧
    ∃ r, createElfAddressSpace s.vmm elf = .ok r ∧
      match r.proc with
      | none => s' = { s with vmm := r.vmm }
      | some proc => s' = { vmm := r.vmm
                            users := Function.update s.users s.next (some ⟨proc, r.frames⟩)
                            next := s.next + 1 }

/-- A system call that changes the address space. -/
inductive UserCall where
  | sbrk (increment : Word)
  | brk (target : Word)
  | mmap (len : Word)
  | mapFb
deriving DecidableEq, Repr

def UserCall.run : UserCall → Vmm → Process → Except Halt HeapReturn
  | .sbrk increment, s, proc => sysSbrk s proc increment
  | .brk target, s, proc => linuxBrk s proc target
  | .mmap len, s, proc => linuxMmap s proc len
  | .mapFb, s, proc => sysMapFb s proc

/-- A system call by process `pid`, which runs in its own address space. -/
def UserStep (s : UserSystem) (call : Nat × UserCall) (s' : UserSystem) : Prop :=
  ∃ u r, s.users call.1 = some u ∧
    call.2.run (vmmSwitchAddressSpace s.vmm u.proc.pageTable) u.proc = .ok r ∧
    s' = { s with
      vmm := r.vmm
      users := Function.update s.users call.1 (some ⟨r.proc, u.frames ++ r.frames⟩) }

/-- What the claim of confinement says of a state: a page that ring 3 can access is a page of the
    VGA window or a frame handed out for the process; the kernel's part translates as it did at
    boot and is out of ring 3's reach. -/
def Confined (image : BootImage) (vmm₀ : Vmm) (s : UserSystem) : Prop :=
  ∀ pid u, s.users pid = some u → ∀ v,
    (∀ tr, translate s.vmm.mem u.proc.pageTable v = some tr → tr.user = true →
      InVgaWindow (entryAddr tr.phys) ∨ entryAddr tr.phys ∈ u.frames) ∧
    (pml4Index v = 0 →
      (translate s.vmm.mem u.proc.pageTable v).map (fun tr => (tr.phys, tr.leaf)) =
          (translate vmm₀.mem image.pml4Table v).map (fun tr => (tr.phys, tr.leaf)) ∧
        ∀ tr, translate s.vmm.mem u.proc.pageTable v = some tr → tr.user = false)

/-- The pages a call would map: the addresses `virt first`, `virt (first + 1)` and so on. -/
structure PageRange where
  virt : Nat → Word
  first : Nat
  count : Nat

def sbrkRange (proc : Process) (increment : Word) : PageRange where
  virt := sbrkPage proc.heapStart
  first := sbrkPages proc.heapStart proc.heapEnd
  count := sbrkPages proc.heapStart (proc.heapEnd + increment) -
    sbrkPages proc.heapStart proc.heapEnd

def UserCall.range (proc : Process) : UserCall → PageRange
  | .sbrk increment => sbrkRange proc increment
  | .mmap len =>
      if len.toInt ≤ 0 then { virt := sbrkPage proc.heapStart, first := 0, count := 0 }
      else sbrkRange (mmapAlign proc) (pageAlignUp len)
  | .brk target =>
      { virt := sbrkPage (pageAlignUp proc.heapEnd)
        first := 0
        count := if target = 0#64 ∨ target < proc.heapStart then 0
          else if proc.heapEnd < target then
            brkPages (pageAlignUp proc.heapEnd) (pageAlignUp target)
          else 0 }
  | .mapFb => { virt := sbrkPage userFbVirt, first := 0, count := 0 }

/-- No page that the call can get to, given the number of free frames, lies at PML4 index 0. -/
def AvoidsKernel (s : UserSystem) (call : Nat × UserCall) : Prop :=
  ∀ u, s.users call.1 = some u → ∀ k < (call.2.range u.proc).count,
    k < (pmmFreeFrames s.vmm.pmm).toNat →
    1 ≤ pml4Index ((call.2.range u.proc).virt ((call.2.range u.proc).first + k))

/-! ### One call -/

/-- The calls that move the break map the pages of their range and change nothing else of the
    process. -/
theorem UserCall.run_cases {call : UserCall} {s : Vmm} {proc : Process} {r : HeapReturn}
    (hcall : call ≠ .mapFb) (hok : call.run s proc = .ok r) :
    (∃ brk, r.proc = { proc with heapEnd := brk }) ∧
      ((r.vmm = s ∧ r.frames = []) ∨
        ∃ out, mapFreshPages proc.pageTable (call.range proc).virt userPage (call.range proc).count
          (call.range proc).first s = .ok out ∧ r.vmm = out.vmm ∧ r.frames = out.frames) := by
  have hsbrk : ∀ {proc : Process} {increment : Word} {r : HeapReturn},
      sysSbrk s proc increment = .ok r → (∃ brk, r.proc = { proc with heapEnd := brk }) ∧
        ((r.vmm = s ∧ r.frames = []) ∨
          ∃ out, mapFreshPages proc.pageTable (sbrkRange proc increment).virt userPage
            (sbrkRange proc increment).count (sbrkRange proc increment).first s = .ok out ∧
            r.vmm = out.vmm ∧ r.frames = out.frames) := by
    intro proc increment r hok
    unfold sysSbrk at hok
    split at hok
    · cases hok
      exact ⟨⟨_, rfl⟩, .inl ⟨rfl, rfl⟩⟩
    · split at hok
      · cases hok
        exact ⟨⟨_, rfl⟩, .inl ⟨rfl, rfl⟩⟩
      · obtain ⟨out, hmap, hok⟩ := Loops.bind_ok hok
        cases hc : out.complete with
        | true =>
            rw [if_pos hc] at hok
            cases hok
            exact ⟨⟨_, rfl⟩, .inr ⟨out, hmap, rfl, rfl⟩⟩
        | false =>
            rw [if_neg (by simp [hc])] at hok
            cases hok
            exact ⟨⟨_, rfl⟩, .inr ⟨out, hmap, rfl, rfl⟩⟩
  cases call with
  | sbrk increment => exact hsbrk hok
  | mmap len =>
      change linuxMmap s proc len = .ok r at hok
      unfold linuxMmap at hok
      by_cases hlen : len.toInt ≤ 0
      · rw [if_pos hlen] at hok
        cases hok
        exact ⟨⟨_, rfl⟩, .inl ⟨rfl, rfl⟩⟩
      · rw [if_neg hlen] at hok
        have halign : ∃ brk, mmapAlign proc = { proc with heapEnd := brk } := by
          unfold mmapAlign
          split <;> exact ⟨_, rfl⟩
        obtain ⟨brk, halign⟩ := halign
        have htable : (mmapAlign proc).pageTable = proc.pageTable := by rw [halign]
        have hrange : UserCall.range proc (.mmap len) =
            sbrkRange (mmapAlign proc) (pageAlignUp len) := if_neg hlen
        obtain ⟨⟨brk', hproc⟩, hpages⟩ := hsbrk hok
        rw [halign] at hproc
        refine ⟨⟨brk', hproc⟩, ?_⟩
        rw [hrange, ← htable]
        exact hpages
  | brk target =>
      change linuxBrk s proc target = .ok r at hok
      unfold linuxBrk at hok
      by_cases hstay : target = 0#64 ∨ target < proc.heapStart
      · rw [if_pos hstay] at hok
        cases hok
        exact ⟨⟨_, rfl⟩, .inl ⟨rfl, rfl⟩⟩
      · rw [if_neg hstay] at hok
        by_cases hgrow : proc.heapEnd < target
        · rw [if_pos hgrow] at hok
          obtain ⟨out, hmap, hok⟩ := Loops.bind_ok hok
          have hcount : (UserCall.range proc (.brk target)).count =
              brkPages (pageAlignUp proc.heapEnd) (pageAlignUp target) := by
            simp only [UserCall.range, if_neg hstay, if_pos hgrow]
          cases hc : out.complete with
          | true =>
              rw [if_pos hc] at hok
              cases hok
              refine ⟨⟨_, rfl⟩, .inr ⟨out, ?_, rfl, rfl⟩⟩
              rw [hcount]
              exact hmap
          | false =>
              rw [if_neg (by simp [hc])] at hok
              cases hok
        · rw [if_neg hgrow] at hok
          cases hok
          exact ⟨⟨_, rfl⟩, .inl ⟨rfl, rfl⟩⟩
  | mapFb => exact absurd rfl hcall

/-- `map_fb` stays at PML4 index 1 and in the VGA window. -/
theorem sysMapFb_work {tag : Word → Option Label} {s : Vmm} {proc : Process} {r : HeapReturn}
    (h : Tagged privateOwner tag s) (hown : OwnedLeaves privateOwner InVgaWindow tag s)
    (hroot : tag proc.pageTable = some .root) (hok : sysMapFb s proc = .ok r) :
    r.proc = proc ∧ ∃ tag', PrivateWork proc.pageTable tag s tag' r.vmm r.frames := by
  unfold sysMapFb at hok
  split at hok
  · cases hok
    exact ⟨rfl, tag, .refl h hown⟩
  · obtain ⟨s', hloop, hok⟩ := Loops.bind_ok hok
    cases hok
    refine ⟨rfl, ?_⟩
    refine Loops.forRangeE_invariant
      (fun _ t => ∃ tag', PrivateWork proc.pageTable tag s tag' t []) (Nat.zero_le 16)
      ⟨tag, .refl h hown⟩ ?_ hloop
    rintro i t t' hi ⟨tag₁, w⟩ hmap
    obtain ⟨tag₂, m⟩ := vmmMapIn_spec w.tagged (w.ext _ _ hroot) hmap
    have hpage : (userFbVirt + BitVec.ofNat 64 (i * 0x1000)).toNat = 0x9000000000 + i * 4096 := by
      rw [userFbVirt, BitVec.toNat_add, BitVec.toNat_ofNat, BitVec.toNat_ofNat]
      omega
    have hphys : (0xA0000#64 + BitVec.ofNat 64 (i * 0x1000)).toNat = 0xA0000 + i * 4096 := by
      rw [BitVec.toNat_add, BitVec.toNat_ofNat, BitVec.toNat_ofNat]
      omega
    have hleaf : InVgaWindow (entryAddr (0xA0000#64 + BitVec.ofNat 64 (i * 0x1000) ||| userPage |||
        ptePresent)) := by
      rw [entryAddr_or, entryAddr_or, userPage_flags, entryAddr_ptePresent, BitVec.or_zero,
        BitVec.or_zero, InVgaWindow, toNat_entryAddr, hphys]
      omega
    exact ⟨tag₂, w.trans (.of_window w.owned m (pml4Index_of_range (by omega) (by omega)) hleaf)⟩

/-- A call that avoids the kernel's part works in the private part of the caller's space. -/
theorem UserCall.run_work {call : UserCall} {tag : Word → Option Label} {s : Vmm} {proc : Process}
    {r : HeapReturn} (h : Tagged privateOwner tag s)
    (hown : OwnedLeaves privateOwner InVgaWindow tag s) (hcounted : s.pmm.Counted)
    (hroot : tag proc.pageTable = some .root)
    (havoid : ∀ k < (call.range proc).count, k < (pmmFreeFrames s.pmm).toNat →
      1 ≤ pml4Index ((call.range proc).virt ((call.range proc).first + k)))
    (hok : call.run s proc = .ok r) :
    r.proc.pageTable = proc.pageTable ∧
      ∃ tag', PrivateWork proc.pageTable tag s tag' r.vmm r.frames := by
  by_cases hfb : call = .mapFb
  · subst hfb
    obtain ⟨hproc, w⟩ := sysMapFb_work h hown hroot hok
    exact ⟨by rw [hproc], w⟩
  · obtain ⟨⟨brk, hproc⟩, hpages⟩ := UserCall.run_cases hfb hok
    have htable : r.proc.pageTable = proc.pageTable := by rw [hproc]
    rcases hpages with ⟨hvmm, hframes⟩ | ⟨out, hmap, hvmm, hframes⟩
    · rw [hvmm, hframes]
      exact ⟨htable, tag, .refl h hown⟩
    · obtain ⟨m, hm, -, tag', p⟩ := mapFreshPages_spec userPage_flags _ _ tag s out h hroot hmap
      have hcard : m ≤ (pmmFreeFrames s.pmm).toNat := by
        rw [show (pmmFreeFrames s.pmm).toNat = s.pmm.freeSet.card from hcounted]
        have := p.card
        omega
      rw [hvmm, hframes]
      exact ⟨htable, tag', .of_pages hown p fun k hk => havoid k (by omega) (by omega)⟩

/-! ### The invariant -/

section Invariant

variable {image : BootImage} {vmm₀ : Vmm} {tag tag' : Word → Option Label} {s s' : Vmm}
  {pml4 other : Word} {frames frames' : List Word}

/-- The tables are well formed, and a page belongs to an address space that exists. -/
structure TablesInv (image : BootImage) (tag : Word → Option Label) (s : Vmm) : Prop where
  tagged : Tagged privateOwner tag s
  counted : s.pmm.Counted
  kernel : tag image.pml4Table = some .root
  owned : OwnedLeaves privateOwner InVgaWindow tag s
  owners : ∀ {page p path}, tag page = some (.node (some p) path) →
    (Label.node (some p) path).level = 0 → tag p = some .root

/-- A process with PML4 `pml4` has the pages `frames` and the kernel's part of the boot tables. -/
structure OwnsPages (image : BootImage) (vmm₀ : Vmm) (tag : Word → Option Label) (s : Vmm)
    (pml4 : Word) (frames : List Word) : Prop where
  root : tag pml4 = some .root
  handed : ∀ {page path}, tag page = some (.node (some pml4) path) →
    (Label.node (some pml4) path).level = 0 → page ∈ frames
  identity : ∀ {v}, pml4Index v = 0 →
    Widened (translate vmm₀.mem image.pml4Table v) (translate s.mem pml4 v)

theorem TablesInv.work (h : TablesInv image tag s) (hroot : tag pml4 = some .root)
    (w : PrivateWork pml4 tag s tag' s' frames) : TablesInv image tag' s' where
  tagged := w.tagged
  counted := w.counted h.counted
  kernel := w.ext _ _ h.kernel
  owned := w.owned
  owners {page p path} hpage hlevel := by
    rcases w.pages hpage hlevel with hold | hnew
    · exact w.ext _ _ (h.owners hold hlevel)
    · obtain ⟨path', hlabel⟩ := w.frames hnew
      rw [hpage] at hlabel
      cases hlabel
      exact w.ext _ _ hroot

/-- Work in one's own space adds its frames to one's own. -/
theorem OwnsPages.work_self (h : OwnsPages image vmm₀ tag s pml4 frames)
    (w : PrivateWork pml4 tag s tag' s' frames') :
    OwnsPages image vmm₀ tag' s' pml4 (frames ++ frames') where
  root := w.ext _ _ h.root
  handed hpage hlevel := by
    rcases w.pages hpage hlevel with hold | hnew
    · exact List.mem_append_left _ (h.handed hold hlevel)
    · exact List.mem_append_right _ hnew
  identity hv := by
    rw [w.off h.root (.inr hv)]
    exact h.identity hv

/-- Work in another space adds nothing. -/
theorem OwnsPages.work_other (h : OwnsPages image vmm₀ tag s pml4 frames) (hne : pml4 ≠ other)
    (w : PrivateWork other tag s tag' s' frames') :
    OwnsPages image vmm₀ tag' s' pml4 frames where
  root := w.ext _ _ h.root
  handed hpage hlevel := by
    rcases w.pages hpage hlevel with hold | hnew
    · exact h.handed hold hlevel
    · obtain ⟨path', hlabel⟩ := w.frames hnew
      rw [hpage] at hlabel
      cases hlabel
      exact absurd rfl hne
  identity hv := by
    rw [w.off h.root (.inl hne)]
    exact h.identity hv

/-- A new PML4 leaves the tables well formed and gives nothing to the processes there are. -/
theorem TablesInv.created {n : Nat} (h : TablesInv image tag s)
    (c : Created tag s privateOwner n s')
    (hown : OwnedLeaves privateOwner InVgaWindow (Function.update tag (frameAddr n) (some .root)) s')
    (hn : n ∈ s.pmm.freeSet) :
    TablesInv image (Function.update tag (frameAddr n) (some .root)) s' where
  tagged := c.tagged
  counted := by
    rw [c.free]
    exact Counted.reserveFrame h.counted hn
  kernel := c.ext _ _ h.kernel
  owned := hown
  owners {page p path} hpage hlevel := by
    by_cases hnew : page = frameAddr n
    · rw [hnew, Function.update_self] at hpage
      cases hpage
    · rw [Function.update_of_ne hnew] at hpage
      exact c.ext _ _ (h.owners hpage hlevel)

theorem OwnsPages.created {n : Nat} (h : OwnsPages image vmm₀ tag s pml4 frames)
    (c : Created tag s privateOwner n s') :
    OwnsPages image vmm₀ (Function.update tag (frameAddr n) (some .root)) s' pml4 frames where
  root := c.ext _ _ h.root
  handed {page path} hpage hlevel := by
    by_cases hnew : page = frameAddr n
    · rw [hnew, Function.update_self] at hpage
      cases hpage
    · rw [Function.update_of_ne hnew] at hpage
      exact h.handed hpage hlevel
  identity {v} hv := by
    rw [c.off v h.root]
    exact h.identity hv

/-- The new PML4 itself has no pages yet and a copy of the kernel's part. -/
theorem OwnsPages.new {n : Nat} (h : TablesInv image tag s) (hcr3 : s.cr3 = image.pml4Table)
    (hkernel : ∀ {v}, pml4Index v = 0 →
      translate s.mem image.pml4Table v = translate vmm₀.mem image.pml4Table v)
    (c : Created tag s privateOwner n s') :
    OwnsPages image vmm₀ (Function.update tag (frameAddr n) (some .root)) s' (frameAddr n) [] where
  root := Function.update_self ..
  handed {page path} hpage hlevel := by
    by_cases hnew : page = frameAddr n
    · rw [hnew, Function.update_self] at hpage
      cases hpage
    · -- a page of the new space would have had an owner before there was one
      rw [Function.update_of_ne hnew] at hpage
      have howner := h.owners hpage hlevel
      rw [c.fresh] at howner
      cases howner
  identity {v} hv := by
    have hcopy := c.copied v
    rw [hcr3, hkernel hv] at hcopy
    exact hcopy

end Invariant

/-- The invariant of the system: every process owns its pages, and no two share a PML4. -/
def UserInv (image : BootImage) (vmm₀ : Vmm) (tag : Word → Option Label) (s : UserSystem) : Prop :=
  TablesInv image tag s.vmm ∧
    (∀ {pid u}, s.users pid = some u →
      OwnsPages image vmm₀ tag s.vmm u.proc.pageTable u.frames) ∧
    ∀ {i j u w}, s.users i = some u → s.users j = some w →
      u.proc.pageTable = w.proc.pageTable → i = j

/-- A call that avoids the kernel's part keeps the invariant. -/
theorem UserInv.step {image : BootImage} {vmm₀ : Vmm} {tag : Word → Option Label}
    {s s' : UserSystem} {call : Nat × UserCall} (inv : UserInv image vmm₀ tag s)
    (step : Guarded AvoidsKernel UserStep s call s') : ∃ tag', UserInv image vmm₀ tag' s' := by
  obtain ⟨htables, howns, hdistinct⟩ := inv
  obtain ⟨havoid, u, r, hu, hrun, rfl⟩ := step
  have hself := howns hu
  obtain ⟨htable, tag', w⟩ := UserCall.run_work (htables.tagged.switch u.proc.pageTable)
    htables.owned htables.counted hself.root (havoid u hu) hrun
  have hload : TablesInv image tag (vmmSwitchAddressSpace s.vmm u.proc.pageTable) :=
    ⟨htables.tagged.switch _, htables.counted, htables.kernel, htables.owned, htables.owners⟩
  have hpages : ∀ {pml4 frames}, OwnsPages image vmm₀ tag s.vmm pml4 frames →
      OwnsPages image vmm₀ tag (vmmSwitchAddressSpace s.vmm u.proc.pageTable) pml4 frames :=
    fun h => ⟨h.root, h.handed, h.identity⟩
  have hold : ∀ {pid w}, Function.update s.users call.1
      (some ⟨r.proc, u.frames ++ r.frames⟩) pid = some w → ∃ w', s.users pid = some w' ∧
        w'.proc.pageTable = w.proc.pageTable := by
    intro pid w hw
    by_cases hpid : pid = call.1
    · rw [hpid, Function.update_self] at hw
      cases hw
      exact ⟨u, hpid ▸ hu, htable.symm⟩
    · rw [Function.update_of_ne hpid] at hw
      exact ⟨w, hw, rfl⟩
  refine ⟨tag', hload.work hself.root w, fun {pid w'} hw => ?_, fun {i j a b} ha hb hab => ?_⟩
  · change Function.update s.users call.1 _ pid = some w' at hw
    by_cases hpid : pid = call.1
    · rw [hpid, Function.update_self] at hw
      cases hw
      show OwnsPages image vmm₀ tag' r.vmm r.proc.pageTable (u.frames ++ r.frames)
      rw [htable]
      exact (hpages hself).work_self w
    · rw [Function.update_of_ne hpid] at hw
      exact (hpages (howns hw)).work_other (fun heq => hpid (hdistinct hw hu heq)) w
  · obtain ⟨a', ha', hta⟩ := hold ha
    obtain ⟨b', hb', htb⟩ := hold hb
    exact hdistinct ha' hb' (by rw [hta, htb, hab])

/-! ### Creating the processes -/

/-- While the kernel creates its processes the boot tables stay loaded and as they were. -/
structure CreateInv (image : BootImage) (vmm₀ : Vmm) (tag : Word → Option Label) (s : UserSystem) :
    Prop where
  inv : UserInv image vmm₀ tag s
  cr3 : s.vmm.cr3 = image.pml4Table
  entries : s.vmm.mem image.pml4Table = vmm₀.mem image.pml4Table
  kernel : ∀ {v}, pml4Index v = 0 →
    translate s.vmm.mem image.pml4Table v = translate vmm₀.mem image.pml4Table v
  fresh : ∀ pid, s.next ≤ pid → s.users pid = none

theorem CreateInv.init {image : BootImage} {vmm₀ : Vmm} {tag : Word → Option Label}
    (h : Booted privateOwner image tag vmm₀) :
    CreateInv image vmm₀ tag ⟨vmm₀, fun _ => none, 0⟩ where
  inv := by
    refine ⟨⟨h.tagged, h.counted, h.root, fun u l j hu hl hj hp => ?_, fun hpage hlevel => ?_⟩,
      fun hu => (nomatch hu), fun hu => (nomatch hu)⟩
    · exact .inl ((h.owned u l j hu hl hj hp).resolve_right id)
    · exact absurd (h.pages hpage hlevel) (by simp [privateOwner])
  cr3 := h.cr3
  entries := rfl
  kernel _ := rfl
  fresh _ _ := rfl

/-- Creating a process keeps the invariant of the creation phase. -/
theorem CreateInv.step {image : BootImage} {vmm₀ : Vmm} {tag : Word → Option Label}
    {s s' : UserSystem} {elf : ElfFile}
    (hlow : ∀ i, 1 ≤ i → i < 512 → hasFlag (vmm₀.mem image.pml4Table i) ptePresent = false)
    (inv : CreateInv image vmm₀ tag s) (step : CreateStep s elf s') :
    ∃ tag', CreateInv image vmm₀ tag' s' := by
  obtain ⟨⟨htables, howns, hdistinct⟩, hcr3, hentries, hkernel, hfresh⟩ := inv
  obtain ⟨helf, r, hok, hs'⟩ := step
  have hclean : ∀ i, 1 ≤ i → i < 512 → hasFlag (s.vmm.mem s.vmm.cr3 i) ptePresent = false := by
    rw [hcr3, hentries]
    exact hlow
  rcases createElfAddressSpace_work htables.tagged htables.owned (hcr3 ▸ htables.kernel) hclean helf
      hok with ⟨hvmm, hproc⟩ | ⟨n, s₁, tag', c, hown, -, hn, w, hproc⟩
  · rw [hproc] at hs'
    subst hs'
    rw [hvmm]
    exact ⟨tag, ⟨htables, howns, hdistinct⟩, hcr3, hentries, hkernel, hfresh⟩
  have hnew := OwnsPages.new htables hcr3 hkernel c
  have htables' := (htables.created c hown hn).work hnew.root w
  have hroot_ne : ∀ {p}, tag p = some .root → p ≠ frameAddr n := by
    rintro p hp rfl
    rw [c.fresh] at hp
    cases hp
  have hothers : ∀ {pid u}, s.users pid = some u →
      OwnsPages image vmm₀ tag' r.vmm u.proc.pageTable u.frames :=
    fun hu => ((howns hu).created c).work_other (hroot_ne (howns hu).root) w
  have hboot := hroot_ne htables.kernel
  have hcr3' : r.vmm.cr3 = image.pml4Table := by rw [w.cr3, c.cr3, hcr3]
  have hentries' : r.vmm.mem image.pml4Table = vmm₀.mem image.pml4Table := by
    rw [w.rootEntries (c.ext _ _ htables.kernel) hboot, c.other _ hboot, hentries]
  have hkernel' : ∀ {v}, pml4Index v = 0 →
      translate r.vmm.mem image.pml4Table v = translate vmm₀.mem image.pml4Table v := by
    intro v hv
    rw [w.off (c.ext _ _ htables.kernel) (.inl hboot), c.off v htables.kernel, hkernel hv]
  cases hcase : r.proc with
  | none =>
      rw [hcase] at hs'
      subst hs'
      exact ⟨tag', ⟨htables', hothers, hdistinct⟩, hcr3', hentries', hkernel', hfresh⟩
  | some proc =>
      rw [hcase] at hs'
      subst hs'
      have htable := hproc proc hcase
      -- the new process is the one whose PML4 no other process has
      have hpml4 : ∀ {pid u}, Function.update s.users s.next (some ⟨proc, r.frames⟩) pid = some u →
          (pid = s.next ∧ u = ⟨proc, r.frames⟩) ∨
            (s.users pid = some u ∧ u.proc.pageTable ≠ frameAddr n) := by
        intro pid u hu
        by_cases hpid : pid = s.next
        · rw [hpid, Function.update_self] at hu
          cases hu
          exact .inl ⟨hpid, rfl⟩
        · rw [Function.update_of_ne hpid] at hu
          exact .inr ⟨hu, hroot_ne (howns hu).root⟩
      refine ⟨tag', ⟨htables', fun {pid u} hu => ?_, fun {i j a b} ha hb hab => ?_⟩, hcr3',
        hentries', hkernel', fun pid hpid => ?_⟩
      · rcases hpml4 hu with ⟨-, rfl⟩ | ⟨hold, -⟩
        · show OwnsPages image vmm₀ tag' r.vmm proc.pageTable r.frames
          rw [htable]
          exact hnew.work_self w
        · exact hothers hold
      · rcases hpml4 ha with ⟨rfl, rfl⟩ | ⟨hai, hane⟩
        · rcases hpml4 hb with ⟨rfl, -⟩ | ⟨-, hbne⟩
          · rfl
          · exact absurd (hab.symm.trans htable) hbne
        · rcases hpml4 hb with ⟨-, rfl⟩ | ⟨hbj, -⟩
          · exact absurd (hab.trans htable) hane
          · exact hdistinct hai hbj hab
      · change s.next + 1 ≤ pid at hpid
        change Function.update s.users s.next _ pid = none
        rw [Function.update_of_ne (by omega)]
        exact hfresh pid (by omega)

/-! ### Confinement -/

/-- A process that owns its pages is confined to them. -/
theorem OwnsPages.confined {image : BootImage} {vmm₀ : Vmm} {tag : Word → Option Label} {s : Vmm}
    {pml4 : Word} {frames : List Word} (htables : TablesInv image tag s)
    (hsuper : ∀ {v tr}, translate vmm₀.mem image.pml4Table v = some tr →
      hasFlag tr.leaf pteUser = false)
    (h : OwnsPages image vmm₀ tag s pml4 frames) (v : Word) :
    (∀ tr, translate s.mem pml4 v = some tr → tr.user = true →
      InVgaWindow (entryAddr tr.phys) ∨ entryAddr tr.phys ∈ frames) ∧
    (pml4Index v = 0 →
      (translate s.mem pml4 v).map (fun tr => (tr.phys, tr.leaf)) =
          (translate vmm₀.mem image.pml4Table v).map (fun tr => (tr.phys, tr.leaf)) ∧
        ∀ tr, translate s.mem pml4 v = some tr → tr.user = false) := by
  have hlow : pml4Index v = 0 → ∀ tr, translate s.mem pml4 v = some tr → tr.user = false := by
    intro hv tr htr
    have hw := h.identity hv
    rw [htr] at hw
    cases hboot : translate vmm₀.mem image.pml4Table v with
    | none =>
        rw [hboot] at hw
        exact hw.elim
    | some old =>
        rw [hboot] at hw
        have hleaf : hasFlag tr.leaf pteUser = false := by
          rw [hw.leaf]
          exact hsuper hboot
        by_contra huser
        rw [Bool.not_eq_false] at huser
        have := user_leaf htr huser
        rw [hleaf] at this
        cases this
  refine ⟨fun tr htr huser => ?_, fun hv => ⟨?_, hlow hv⟩⟩
  · by_cases hv : pml4Index v = 0
    · rw [hlow hv tr htr] at huser
      cases huser
    · obtain ⟨hleaf, hphys⟩ :=
        htables.tagged.translate_owned htables.owned h.root (by omega) htr
      rw [hphys, entryAddr_leaf_phys (leaf_small htables.tagged hleaf)]
      rcases hleaf with hpage | hwindow
      · rw [slot, privateOwner, if_neg hv] at hpage
        exact .inr (h.handed hpage rfl)
      · exact .inl hwindow
  · have hw := h.identity hv
    cases hboot : translate vmm₀.mem image.pml4Table v with
    | none =>
        cases htr : translate s.mem pml4 v with
        | none => rfl
        | some tr =>
            rw [hboot, htr] at hw
            exact hw.elim
    | some old =>
        cases htr : translate s.mem pml4 v with
        | none =>
            rw [hboot, htr] at hw
            exact hw.elim
        | some tr =>
            rw [hboot, htr] at hw
            rw [Option.map_some, Option.map_some, hw.phys, hw.leaf]

/-- Processes whose heap calls avoid PML4 index 0 stay confined to their own pages and the VGA
    window, in every state they can reach. -/
theorem user_access_confined (image : BootImage) (ram : PhysMem) (vmm₀ : Vmm)
    (boot : kernelBoot image ram = .ok vmm₀) (elfs : List ElfFile) (s₁ : UserSystem)
    (creation : Run CreateStep ⟨vmm₀, fun _ => none, 0⟩ elfs s₁) (calls : List (Nat × UserCall))
    (s : UserSystem) (run : Run (Guarded AvoidsKernel UserStep) s₁ calls s) :
    Confined image vmm₀ s := by
  obtain ⟨tag₀, h₀⟩ := @kernelBoot_spec privateOwner _ _ _ boot
  obtain ⟨tag₁, h₁⟩ := creation.invariant (fun s => ∃ tag, CreateInv image vmm₀ tag s)
    (fun _ _ _ ⟨_, inv⟩ step => inv.step h₀.low step) ⟨tag₀, .init h₀⟩
  obtain ⟨tag, htables, howns, -⟩ := run.invariant (fun s => ∃ tag, UserInv image vmm₀ tag s)
    (fun _ _ _ ⟨_, inv⟩ step => UserInv.step inv step) ⟨tag₁, h₁.inv⟩
  intro pid u hu v
  exact (howns hu).confined htables h₀.supervisor v

/-! ### A break inside the kernel's part -/

/-- A program without loadable segments. -/
def emptyElf : ElfFile where
  phdrs := []
  contents _ := []
  contents_le _ h := (nomatch h)

/-- The kernel boots and creates a process from this program, which has its stack and nothing else
    above PML4 index 0. -/
theorem emptyElf_process (ram : PhysMem) : ∃ vmm₀ s₁ u, kernelBoot bootedImage ram = .ok vmm₀ ∧
    CreateStep ⟨vmm₀, fun _ => none, 0⟩ emptyElf s₁ ∧ s₁.users 0 = some u ∧
    u.proc.heapStart = userHeapBase ∧ u.proc.heapEnd = userHeapBase ∧
    50000 ≤ s₁.vmm.pmm.freeSet.card ∧
    ∀ v, 1 ≤ pml4Index v → (∀ k < userStackPages, walkPath v ≠ walkPath (userStackPage k)) →
      translate s₁.vmm.mem u.proc.pageTable v = none := by
  obtain ⟨vmm₀, boot, hcard⟩ := bootedImage_boots ram
  obtain ⟨tag, h⟩ := @kernelBoot_spec commonOwner _ _ _ boot
  have hroot : tag vmm₀.cr3 = some .root := by rw [h.cr3, h.root]
  rcases vmmCreateAddressSpace_spec h.tagged hroot (fun _ _ _ _ _ => commonOwner_eq _ _ _) with
    ⟨hempty, -⟩ | ⟨n, hn, hne, vmm₁, hcreate, c⟩
  · rw [hempty, Finset.card_empty] at hcard
    omega
  have hcard₁ : vmm₁.pmm.freeSet.card = vmm₀.pmm.freeSet.card - 1 := by
    rw [c.free, freeSet_reserveFrame, Finset.card_erase_of_mem hn]
  obtain ⟨stack, hstack, hcomplete, hcard₂⟩ := @mapFreshPages_ok _ _ userPage userStackPage
    userStackPages 0 _ vmm₁ c.tagged (Function.update_self ..)
    (by rw [show userStackPages = 32 from rfl]; omega)
    (fun j _ hj hzero => by have := userStackPage_index (k := j) (by omega); omega)
  rw [show userStackPages = 32 from rfl] at hcard₂
  have hok : createElfAddressSpace vmm₀ emptyElf = .ok
      { vmm := stack.vmm
        proc := some { pageTable := frameAddr n, heapStart := userHeapBase, heapEnd := userHeapBase }
        frames := stack.frames ++ [] } := by
    unfold createElfAddressSpace
    rw [hcreate]
    simp only [hne, if_false, hstack]
    show (if stack.complete = true then _ else _) = _
    rw [if_pos hcomplete]
    rfl
  refine ⟨vmm₀, _, ⟨{ pageTable := frameAddr n, heapStart := userHeapBase
                      heapEnd := userHeapBase }, stack.frames ++ []⟩, boot,
    ⟨fun phdr hphdr => (nomatch hphdr), _, hok, rfl⟩, ?_, rfl, rfl, ?_, fun v hv hstackless => ?_⟩
  · simp
  · show 50000 ≤ stack.vmm.pmm.freeSet.card
    omega
  · -- nothing above index 0 is copied, and the stack is elsewhere
    obtain ⟨m, hm, -, tag₂, pages⟩ := mapFreshPages_spec userPage_flags userStackPages 0 _ vmm₁ stack
      c.tagged (Function.update_self ..) hstack
    have habsent : translate vmm₀.mem vmm₀.cr3 v = none := by
      rw [Memory.translate, h.tagged.pteAddr_eq hroot]
      refine mmuWalk_absent ?_
      rw [h.cr3]
      exact h.low _ hv (tableIndex_lt _ _)
    have hcopied := c.copied v
    rw [habsent] at hcopied
    have hwide := pages.widened (v := v) (Function.update_self ..) fun k hk => .inr (by
      rw [Nat.zero_add]
      exact hstackless k (by omega))
    rw [hcopied.eq_none] at hwide
    exact hwide.eq_none

/-- A call that returns is a step of the system. -/
theorem UserStep.of_run {s : UserSystem} {pid : Nat} {u : UserProcess} {call : UserCall}
    {r : HeapReturn} (hu : s.users pid = some u)
    (hok : call.run (vmmSwitchAddressSpace s.vmm u.proc.pageTable) u.proc = .ok r) :
    ∃ s', UserStep s (pid, call) s' ∧ s'.vmm = r.vmm ∧
      s'.users pid = some ⟨r.proc, u.frames ++ r.frames⟩ :=
  ⟨_, ⟨u, r, hu, hok, rfl⟩, rfl, Function.update_self ..⟩

/-- A `brk` that raises the break, in terms of the pages it maps. -/
theorem linuxBrk_raises {s : Vmm} {proc : Process} {target : Word} {out : FreshPages}
    (hstart : ¬ (target = 0#64 ∨ target < proc.heapStart)) (hend : proc.heapEnd < target)
    (hmap : mapFreshPages proc.pageTable (sbrkPage (pageAlignUp proc.heapEnd)) userPage
      (brkPages (pageAlignUp proc.heapEnd) (pageAlignUp target)) 0 s = .ok out)
    (hcomplete : out.complete = true) :
    linuxBrk s proc target = .ok
      { vmm := out.vmm, proc := { proc with heapEnd := target }, result := target
        frames := out.frames } := by
  unfold linuxBrk
  rw [if_neg hstart, if_pos hend]
  simp only [hmap]
  show (if out.complete = true then _ else _) = _
  rw [if_pos hcomplete]
  rfl

/-- A `brk` that lowers it. -/
theorem linuxBrk_lowers {s : Vmm} {proc : Process} {target : Word}
    (hstart : ¬ (target = 0#64 ∨ target < proc.heapStart)) (hend : ¬ proc.heapEnd < target) :
    linuxBrk s proc target = .ok
      { vmm := s, proc := { proc with heapEnd := target }, result := target, frames := [] } := by
  unfold linuxBrk
  rw [if_neg hstart, if_neg hend]

/-- The first page of the kernel heap, under a name that the heap's start does not exclude. -/
def kernelHeapAlias : Word := 0x10000C0000000#64

/-- Round the break up past the end of the address range, lower it to the alias of a kernel page,
    raise it by a page: the kernel page is replaced by one of the process. -/
theorem user_access_not_confined :
    ¬ ∀ (image : BootImage) (ram : PhysMem) (vmm₀ : Vmm), kernelBoot image ram = .ok vmm₀ →
      ∀ (elfs : List ElfFile) (s₁ : UserSystem), Run CreateStep ⟨vmm₀, fun _ => none, 0⟩ elfs s₁ →
        ∀ (calls : List (Nat × UserCall)) (s : UserSystem), Run UserStep s₁ calls s →
          Confined image vmm₀ s := by
  intro hclaim
  obtain ⟨vmm₀, s₁, u, boot, create, hu, hstart, hend, hcard, -⟩ := emptyElf_process
    (fun _ _ => 0#64)
  obtain ⟨tag₀, h₀⟩ := @kernelBoot_spec privateOwner _ _ _ boot
  obtain ⟨tag, ⟨htables, howns, -⟩, -⟩ := CreateInv.step h₀.low (.init h₀) create
  have hroot := (howns hu).root
  obtain ⟨table, htable⟩ : ∃ table, table = u.proc.pageTable := ⟨_, rfl⟩
  rw [← htable] at hroot
  -- the three calls
  have hfirst : linuxBrk (vmmSwitchAddressSpace s₁.vmm table) u.proc 0xFFFFFFFFFFFFFFFF#64 = _ :=
    @linuxBrk_raises _ _ _ ⟨vmmSwitchAddressSpace s₁.vmm table, [], true⟩
      (by rw [hstart]; decide) (by rw [hend]; decide)
      (by
        rw [hend, show brkPages (pageAlignUp userHeapBase) (pageAlignUp 0xFFFFFFFFFFFFFFFF#64) = 0
          from by decide]
        rfl) rfl
  obtain ⟨proc₁, hproc₁⟩ : ∃ proc₁, proc₁ = { u.proc with heapEnd := 0xFFFFFFFFFFFFFFFF#64 } :=
    ⟨_, rfl⟩
  have hsecond : linuxBrk (vmmSwitchAddressSpace s₁.vmm table) proc₁ kernelHeapAlias = _ :=
    linuxBrk_lowers (by rw [hproc₁, hstart]; decide) (by
      have hbelow : ¬ 0xFFFFFFFFFFFFFFFF#64 < kernelHeapAlias := by decide
      rw [hproc₁]
      exact hbelow)
  obtain ⟨proc₂, hproc₂⟩ : ∃ proc₂, proc₂ = { proc₁ with heapEnd := kernelHeapAlias } := ⟨_, rfl⟩
  have hpage : ¬ (pml4Index (sbrkPage kernelHeapAlias 0) = 0 ∧
      pdptIndex (sbrkPage kernelHeapAlias 0) = 0) := by decide
  obtain ⟨out, hmap, hcomplete, -⟩ := @mapFreshPages_ok _ _ userPage (sbrkPage kernelHeapAlias) 1 0
    tag (vmmSwitchAddressSpace s₁.vmm table) (htables.tagged.switch table) hroot (Nat.le_trans (by decide) hcard)
    (fun j _ hj hzero => by
      have hj0 : j = 0 := by omega
      exact hpage (hj0 ▸ hzero))
  have hend₂ : proc₂.heapEnd = kernelHeapAlias := by rw [hproc₂]
  have htable₂ : proc₂.pageTable = table := by rw [hproc₂, hproc₁, htable]
  have hthird : linuxBrk (vmmSwitchAddressSpace s₁.vmm table) proc₂
      (kernelHeapAlias + 4096#64) = _ :=
    @linuxBrk_raises _ _ _ out (by rw [hproc₂, hproc₁, hstart]; decide)
      (by rw [hend₂]; decide)
      (by
        have hcount : brkPages (pageAlignUp kernelHeapAlias)
          (pageAlignUp (kernelHeapAlias + 4096#64)) = 1 := by decide
        have halign : pageAlignUp kernelHeapAlias = kernelHeapAlias := by decide
        rw [htable₂, hend₂, hcount, halign]
        exact hmap) hcomplete
  obtain ⟨s₂, step₁, hvmm₂, hu₂⟩ := @UserStep.of_run _ _ _ (.brk 0xFFFFFFFFFFFFFFFF#64) _ hu
    (htable ▸ hfirst)
  obtain ⟨s₃, step₂, hvmm₃, hu₃⟩ := @UserStep.of_run _ _ _ (.brk kernelHeapAlias) _ hu₂ (by
    rw [hvmm₂, ← hproc₁, show proc₁.pageTable = table by rw [hproc₁, htable]]
    exact hsecond)
  obtain ⟨s₄, step₃, hvmm₄, hu₄⟩ := @UserStep.of_run _ _ _ (.brk (kernelHeapAlias + 4096#64)) _ hu₃
    (by
      rw [hvmm₃, ← hproc₂, htable₂]
      exact hthird)
  have hconfined := hclaim bootedImage _ vmm₀ boot _ _ (.single create) _ _
    (.cons step₁ (.cons step₂ (.single step₃))) 0 _ hu₄ 0xC0000000#64
  obtain ⟨-, hkernel⟩ := (hconfined.2 (by decide))
  -- the page now has a leaf entry with user access
  obtain ⟨m, -, hm, tag', p⟩ := mapFreshPages_spec userPage_flags _ _ tag _ out
    (htables.tagged.switch table) hroot hmap
  have hm1 : m = 1 := hm hcomplete
  obtain ⟨n, hn, -, htr⟩ := p.backed 0 (by omega) fun k' hk' hlt => by omega
  have hw := htr 0xC0000000#64 (by decide)
  rw [hvmm₄] at hkernel
  cases hres : translate out.vmm.mem table 0xC0000000#64 with
  | none =>
      rw [hres] at hw
      exact hw.elim
  | some tr =>
      rw [hres] at hw
      have huser : tr.user = true := by
        have hconst : hasFlag userPage pteUser = true := by decide
        exact hw.user (by simp [leafTranslation, hconst])
      have hnot := hkernel tr (htable₂ ▸ hres)
      rw [huser] at hnot
      cases hnot

/-- The confinement theorem applies to a process that raises its break by a page. -/
theorem user_access_confined_one_page :
    ∃ vmm₀ s₁ s, kernelBoot bootedImage (fun _ _ => 0#64) = .ok vmm₀ ∧
      Run CreateStep ⟨vmm₀, fun _ => none, 0⟩ [emptyElf] s₁ ∧
      Run (Guarded AvoidsKernel UserStep) s₁ [(0, .brk (userHeapBase + 4096#64))] s ∧
      s.users 0 ≠ none ∧ Confined bootedImage vmm₀ s := by
  obtain ⟨vmm₀, s₁, u, boot, create, hu, hstart, hend, hcard, -⟩ := emptyElf_process
    (fun _ _ => 0#64)
  obtain ⟨tag₀, h₀⟩ := @kernelBoot_spec privateOwner _ _ _ boot
  obtain ⟨tag, ⟨htables, howns, -⟩, -⟩ := CreateInv.step h₀.low (.init h₀) create
  have hcount : brkPages (pageAlignUp userHeapBase) (pageAlignUp (userHeapBase + 4096#64)) = 1 := by
    decide
  have hpage : 1 ≤ pml4Index (sbrkPage (pageAlignUp userHeapBase) 0) := by decide
  obtain ⟨out, hmap, hcomplete, -⟩ := @mapFreshPages_ok _ _ userPage
    (sbrkPage (pageAlignUp userHeapBase)) 1 0 tag
    (vmmSwitchAddressSpace s₁.vmm u.proc.pageTable) (htables.tagged.switch _) (howns hu).root
    (Nat.le_trans (by decide) hcard) (fun j _ hj hzero => by
      have hj0 : j = 0 := by omega
      rw [hj0] at hzero
      omega)
  obtain ⟨s, step, -, hu'⟩ := @UserStep.of_run _ _ _ (.brk (userHeapBase + 4096#64)) _ hu
    (@linuxBrk_raises _ _ _ out (by rw [hstart]; decide) (by rw [hend]; decide)
      (by rw [hend, hcount]; exact hmap) hcomplete)
  have havoid : AvoidsKernel s₁ (0, .brk (userHeapBase + 4096#64)) := by
    intro u' hu'' k hk _
    rw [hu] at hu''
    cases hu''
    have hk0 : k = 0 := by
      have hstay : ¬ (userHeapBase + 4096#64 = 0#64 ∨ userHeapBase + 4096#64 < userHeapBase) := by
        decide
      have hgrow : userHeapBase < userHeapBase + 4096#64 := by decide
      simp only [UserCall.range, hstart, hend, hcount, if_neg hstay, if_pos hgrow] at hk
      omega
    show 1 ≤ pml4Index (sbrkPage (pageAlignUp u.proc.heapEnd) (0 + k))
    rw [hk0, hend]
    exact hpage
  have run : Run (Guarded AvoidsKernel UserStep) s₁ [(0, .brk (userHeapBase + 4096#64))] s :=
    .single ⟨havoid, step⟩
  exact ⟨vmm₀, s₁, s, boot, .single create, run, by simp [hu'],
    user_access_confined bootedImage _ vmm₀ boot _ _ (.single create) _ _ run⟩

end CustomKernel.Syscall
