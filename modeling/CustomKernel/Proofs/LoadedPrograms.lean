/-
Module: CustomKernel.Proofs.LoadedPrograms
Layer: Proofs
Purpose: A program in its new address space. If no two segments share a page and none lies in the
  user stack, a load that ends with a process has put every byte of the file in its place; and if the
  addresses are a user's and there are frames, it ends with a process.
Imports: CustomKernel.Proofs.SegmentContents, CustomKernel.Proofs.LoaderRuns
Trusted boundary: as in SystemRuns: the kernel heap, the descriptors and the archive are beside
  physical memory
Main exports: PagesApart, ProgramLoaded, createElf_loaded, createElf_ok, LoadedFile,
  elf_loading_faithful, elf_loading_without_slot
-/
import CustomKernel.Proofs.SegmentContents
import CustomKernel.Proofs.LoaderRuns

namespace CustomKernel.Filesystem

open CustomKernel.Memory CustomKernel.Syscall Loops

/-! ### The address space of a program -/

/-- No two loadable segments share a page, and none shares one with the user stack. -/
structure PagesApart (phdrs : List Phdr) : Prop where
  segments : (loadables phdrs).Pairwise Phdr.Apart
  stack : ∀ phdr ∈ loadables phdrs, ∀ k < userStackPages, phdr.Off (userStackPage k)

/-- A program is loaded: its bytes are in place and its stack is mapped. -/
structure ProgramLoaded (mem : PhysMem) (pml4 : Word) (elf : ElfFile) : Prop where
  segments : ∀ phdr ∈ loadables elf.phdrs, SegmentPlaced mem pml4 phdr (elf.contents phdr)
  stack : ∀ k < userStackPages, UserPage mem pml4 (userStackPage k)

/-- The user stack of a new process. -/
theorem stack_added {image : BootImage} {window : Word → Prop} {pml4 : Word}
    {tag : Word → Option Label} {s : Vmm} {out : FreshPages} (h : LoadTree image window pml4 tag s)
    (htop : translate s.mem pml4 topPage = none)
    (hok : mapFreshPages pml4 userStackPage userPage userStackPages 0 s = .ok out) :
    ∃ tag', PagesAdded image window pml4 userStackPage userStackPages tag s tag' out.vmm ∧
      translate out.vmm.mem pml4 topPage = none ∧
      (out.complete = true → ∀ k < userStackPages, UserPage out.vmm.mem pml4 (userStackPage k)) := by
  obtain ⟨⟨tag', added⟩, hpages⟩ := h.pages hok
  refine ⟨tag', added, ?_, fun hc k hk => hpages hc k hk _ rfl⟩
  have hwide := added.widened topPage fun k hk => (userStackPage_top hk).symm
  rw [htop] at hwide
  exact hwide.eq_none

/-! ### The end of a program -/

/-- The end of a segment, rounded up to a page. -/
def Phdr.segmentEnd (phdr : Phdr) : Nat :=
  (phdr.pVaddr.toNat + phdr.pMemsz.toNat + 4095) / 4096 * 4096

/-- Where the heap of a program starts: behind its last segment. -/
def programEnd (phdrs : List Phdr) : Nat :=
  if loadables phdrs = [] then userHeapBase.toNat
  else ((loadables phdrs).map Phdr.segmentEnd).foldl max 0

theorem Phdr.Fits.toNat_vend {phdr : Phdr} (h : phdr.Fits) : phdr.vend.toNat = phdr.segmentEnd := by
  have hmask : phdr.vend = entryAddr (phdr.pVaddr + phdr.pMemsz + 0xFFF#64) := rfl
  have hrounded := h.rounded
  rw [hmask, toNat_entryAddr, BitVec.toNat_add, BitVec.toNat_add, BitVec.toNat_ofNat,
    Phdr.segmentEnd]
  omega

/-- `last_vend` is the largest end. -/
theorem toNat_lastVend : ∀ (phdrs : List Phdr) (last : Word),
    (∀ phdr ∈ loadables phdrs, phdr.Fits) →
    (phdrs.foldl raiseVend last).toNat =
      ((loadables phdrs).map Phdr.segmentEnd).foldl max last.toNat
  | [], last, h => rfl
  | phdr :: phdrs, last, h => by
      rw [List.foldl_cons]
      cases hload : phdr.loadable with
      | true =>
          have hcons : loadables (phdr :: phdrs) = phdr :: loadables phdrs :=
            List.filter_cons_of_pos hload
          rw [hcons] at h ⊢
          have hself := (h phdr (List.mem_cons_self ..)).toNat_vend
          rw [toNat_lastVend phdrs _ fun other hother => h other (List.mem_cons_of_mem _ hother),
            List.map_cons, List.foldl_cons]
          congr 1
          rw [raiseVend]
          split
          · rename_i hraise
            have := hraise.2
            rw [BitVec.lt_def, hself] at this
            omega
          · rename_i hkeep
            have : ¬ last < phdr.vend := fun hlt => hkeep ⟨hload, hlt⟩
            rw [BitVec.lt_def, hself] at this
            omega
      | false =>
          have hcons : loadables (phdr :: phdrs) = loadables phdrs :=
            List.filter_cons_of_neg (by rw [hload]; decide)
          have hraise : raiseVend last phdr = last := if_neg fun hc => by
            rw [hload] at hc
            exact absurd hc.1 Bool.false_ne_true
          rw [hcons] at h ⊢
          rw [hraise]
          exact toNat_lastVend phdrs last h

/-- The heap of a new process starts behind its program. -/
theorem toNat_heapStart {phdrs : List Phdr} (h : ∀ phdr ∈ loadables phdrs, phdr.Fits) :
    (if lastVend phdrs = 0#64 then userHeapBase else lastVend phdrs).toNat = programEnd phdrs := by
  have hlast := toNat_lastVend phdrs 0#64 h
  have hself : lastVend phdrs = phdrs.foldl raiseVend 0#64 := rfl
  rw [← hself] at hlast
  rw [programEnd]
  cases hloads : loadables phdrs with
  | nil =>
      rw [hloads] at hlast
      have hzero : lastVend phdrs = 0#64 := BitVec.eq_of_toNat_eq hlast
      rw [if_pos hzero, if_pos rfl]
  | cons first rest =>
      rw [hloads] at hlast
      have hfirst : first ∈ loadables phdrs := by
        rw [hloads]
        exact List.mem_cons_self ..
      have hmem := Phdr.loadable_memsz (List.mem_filter.1 hfirst).2
      have hpos : 0 < first.segmentEnd := by
        rw [Phdr.segmentEnd]
        omega
      have hle : ∀ (ends : List Nat) (acc : Nat), acc ≤ ends.foldl max acc := fun ends acc => by
        rw [List.foldl_max]
        exact Nat.le_max_left _ _
      have hpositive : 0 < ((first :: rest).map Phdr.segmentEnd).foldl max 0 :=
        Nat.lt_of_lt_of_le (Nat.lt_of_lt_of_le hpos (Nat.le_max_right 0 _)) (hle _ _)
      have hne : lastVend phdrs ≠ 0#64 := by
        intro hzero
        rw [hzero] at hlast
        exact absurd hlast (Nat.ne_of_lt hpositive)
      rw [if_neg hne, if_neg (List.cons_ne_nil _ _)]
      exact hlast

/-- A file does not depend on what is open. -/
theorem StoredFile.with_fds {disk : Ramdisk} {path : List Byte} {p : Nat} {file : List Byte}
    (h : StoredFile disk path p file) (fds : Nat → FdEntry) :
    StoredFile { disk with fds := fds } path p file :=
  ⟨h.found, h.bytes, h.short⟩

/-- The bytes of a segment that lies within the file. -/
theorem StoredFile.contents {disk : Ramdisk} {path : List Byte} {p : Nat} {file : List Byte}
    (h : StoredFile disk path p file) (stale : Stale) {phdr : Phdr}
    (hfit : phdr.pOffset.toNat + phdr.pFilesz.toNat ≤ file.length) :
    (fileProgram stale disk.image (openedFile p (BitVec.ofNat 64 file.length))).contents phdr =
      (file.drop phdr.pOffset.toNat).take phdr.pFilesz.toNat := by
  show (Filesystem.delivered disk.image (openedFile p (BitVec.ofNat 64 file.length)) phdr.pOffset
    phdr.pFilesz).getD [] = _
  rw [h.delivered _ _ hfit]
  rfl

end CustomKernel.Filesystem

namespace CustomKernel

open Memory Filesystem Syscall Loops StepSystem

section AddressSpace

variable {image : BootImage} {tag : Word → Option Label} {s : Vmm} {elf : ElfFile}

/-- The new address space. -/
theorem TreeInv.newSpace (h : TreeInv image tag s) (hcr3 : s.cr3 = image.pml4Table)
    (hnull : (vmmCreateAddressSpace s).2 ≠ 0#64) :
    ∃ n tag₁, (vmmCreateAddressSpace s).2 = frameAddr n ∧
      (vmmCreateAddressSpace s).1.cr3 = s.cr3 ∧
      (vmmCreateAddressSpace s).1.pmm.freeSet.card + 1 = s.pmm.freeSet.card ∧
      LoadTree image (ReservedFrame image) (frameAddr n) tag₁ (vmmCreateAddressSpace s).1 ∧
      translate (vmmCreateAddressSpace s).1.mem (frameAddr n) topPage = none := by
  have hroot : tag s.cr3 = some .root := by rw [hcr3, h.tree.kernel]
  have hclean := h.clean
  unfold KernelClean at hclean
  rw [← hcr3] at hclean
  rcases vmmCreateAddressSpace_spec h.tree.tagged hroot (privateOwner_shared hclean) with
    ⟨-, hempty⟩ | ⟨n, hn, -, s₁, hcreate, c⟩
  · rw [hempty] at hnull
    exact absurd rfl hnull
  · rw [hcreate]
    obtain ⟨htree, htop⟩ := LoadTree.created h.tree hroot hclean hn c
    refine ⟨n, _, rfl, c.cr3, ?_, htree, htop⟩
    show s₁.pmm.freeSet.card + 1 = _
    rw [c.free, freeSet_reserveFrame, Finset.card_erase_of_mem hn]
    have := Finset.card_pos.2 ⟨n, hn⟩
    omega

/-- A load that ends with a process has put the program in its place. -/
theorem createElf_loaded {r : ElfReturn} {proc : Process} (h : TreeInv image tag s)
    (hcr3 : s.cr3 = image.pml4Table)
    (hle : ∀ phdr ∈ loadables elf.phdrs, (elf.contents phdr).length ≤ phdr.pMemsz.toNat)
    (hapart : PagesApart elf.phdrs) (hok : createElfAddressSpace s elf = .ok r)
    (hproc : r.proc = some proc) :
    ProgramLoaded r.vmm.mem proc.pageTable elf ∧ r.vmm.cr3 = s.cr3 := by
  obtain ⟨stack, load, hnull, hstack, hcomplete, hload, hdone, hvmm, htable, -, -⟩ :=
    createElf_stages hok hproc
  obtain ⟨n, tag₁, hpml4, hcreated, -, htree, htop⟩ := h.newSpace hcr3 hnull
  rw [hpml4] at hstack hload htable
  obtain ⟨tag₂, added, htop₂, hpages⟩ := stack_added htree htop hstack
  obtain ⟨tag₃, loaded⟩ := segments_loaded elf.phdrs tag₂ stack.vmm load added.tree htop₂ hle
    hapart.segments hload hdone
  rw [hvmm, htable]
  refine ⟨⟨loaded.placed, fun k hk => ?_⟩, loaded.cr3.trans (added.cr3.trans hcreated)⟩
  exact (hpages hcomplete k hk).widened
    (loaded.widened _ fun phdr hphdr => hapart.stack phdr hphdr k hk)

/-- The frames that a program needs at most: its PML4, and four for each of its pages. -/
def framesNeeded (phdrs : List Phdr) : Nat := 1 + framesFor (userStackPages + totalPages phdrs)

/-- A load ends with a process when there are frames and the segments fit into the address space. -/
theorem createElf_ok (h : TreeInv image tag s) (hcr3 : s.cr3 = image.pml4Table)
    (hfits : ∀ phdr ∈ loadables elf.phdrs,
      phdr.Fits ∧ (elf.contents phdr).length ≤ phdr.pMemsz.toNat)
    (hfree : framesNeeded elf.phdrs ≤ s.pmm.freeSet.card) :
    ∃ r proc, createElfAddressSpace s elf = .ok r ∧ r.proc = some proc := by
  have hnull : (vmmCreateAddressSpace s).2 ≠ 0#64 := by
    intro hzero
    have hroot : tag s.cr3 = some .root := by rw [hcr3, h.tree.kernel]
    have hclean := h.clean
    unfold KernelClean at hclean
    rw [← hcr3] at hclean
    rcases vmmCreateAddressSpace_spec h.tree.tagged hroot (privateOwner_shared hclean) with
      ⟨hempty, -⟩ | ⟨n, -, hne, s₁, hcreate, -⟩
    · rw [hempty, Finset.card_empty, framesNeeded] at hfree
      omega
    · rw [hcreate] at hzero
      exact hne hzero
  obtain ⟨n, tag₁, hpml4, -, hcard, htree, htop⟩ := h.newSpace hcr3 hnull
  have hneed : 1 + 4 * (32 + totalPages elf.phdrs) ≤ s.pmm.freeSet.card := hfree
  obtain ⟨stack, hstack, hcomplete, hleft⟩ := @mapFreshPages_ok _ (frameAddr n) userPage userStackPage
    userStackPages 0 tag₁ _ htree.tagged htree.root (by rw [show userStackPages = 32 from rfl]; omega)
    fun j _ hj hzero => by have := userStackPage_index (k := j) (by omega); omega
  rw [show userStackPages = 32 from rfl] at hleft
  obtain ⟨tag₂, added, htop₂, -⟩ := stack_added htree htop hstack
  obtain ⟨load, hload, hdone⟩ : ∃ load,
      loadSegments (frameAddr n) elf.contents elf.phdrs stack.vmm = .ok load ∧ load.ok = true :=
    segments_ok elf.phdrs tag₂ stack.vmm added.tree htop₂ hfits (by unfold framesFor; omega)
  unfold createElfAddressSpace
  dsimp only
  rw [if_neg hnull, hpml4, hstack]
  show ∃ r proc, (if stack.complete = true then _ else _) = _ ∧ _
  rw [if_pos hcomplete, hload]
  show ∃ r proc, (if load.ok = true then _ else _) = _ ∧ _
  rw [if_pos hdone]
  exact ⟨_, _, rfl, rfl⟩

end AddressSpace

/-! ### Files -/

/-- A file with a supported header, program headers that lie within it, and segments that have their
    bytes in it. -/
structure SoundFile (file : List Byte) : Prop where
  header : 64 ≤ file.length
  supported : (fileEhdr file).Supported
  phdrs : (fileEhdr file).ePhoff.toNat + (fileEhdr file).ePhnum.toNat * phdrSize ≤ file.length
  filesz : ∀ phdr ∈ loadables (filePhdrs file), phdr.pFilesz.toNat ≤ phdr.pMemsz.toNat
  within : ∀ phdr ∈ loadables (filePhdrs file),
    phdr.pOffset.toNat + phdr.pFilesz.toNat ≤ file.length

/-- A program for user addresses, those at PML4 index 1. -/
structure UserProgram (file : List Byte) : Prop extends SoundFile file where
  addresses : ∀ phdr ∈ loadables (filePhdrs file),
    2 ^ 39 ≤ phdr.pVaddr.toNat ∧ phdr.pVaddr.toNat + phdr.pMemsz.toNat ≤ 2 ^ 40

/-- A file the loader is made for: its segments share no page with each other or with the stack. -/
structure ProgramFile (file : List Byte) : Prop extends UserProgram file where
  apart : PagesApart (filePhdrs file)

/-- A process that was loaded from a file, and what the call has left of the kernel. -/
structure LoadedFile (k : Kernel) (file : List Byte) (k' : Kernel) (new : NewProcess) : Prop where
  segments : ∀ phdr ∈ loadables (filePhdrs file), ∀ z < phdr.pMemsz.toNat,
    readByte k'.vmm.mem new.proc.pageTable (phdr.pVaddr + BitVec.ofNat 64 z) =
      some (if z < phdr.pFilesz.toNat then file.getD (phdr.pOffset.toNat + z) 0 else 0)
  stack : ∀ i < userStackPages, UserPage k'.vmm.mem new.proc.pageTable (userStackPage i)
  heapStart : new.proc.heapStart.toNat = programEnd (filePhdrs file)
  heapEnd : new.proc.heapEnd = new.proc.heapStart
  cr3 : k'.vmm.cr3 = k.vmm.cr3
  files : FilesKept k.disk k'.disk

section Files

variable {image : BootImage} {tag : Word → Option Label} {k k₁ : Kernel} {path : List Byte} {p : Nat}
  {file : List Byte} {slot fuel : Nat} {p₁ : NewProcess}

theorem UserProgram.fits (h : UserProgram file) {phdr : Phdr}
    (hphdr : phdr ∈ loadables (filePhdrs file)) : phdr.Fits := by
  obtain ⟨hlo, hhi⟩ := h.addresses phdr hphdr
  refine ⟨⟨by omega, by omega, fun z hz => ?_⟩, by omega⟩
  unfold Canonical
  rw [BitVec.toNat_add, BitVec.toNat_ofNat]
  omega

/-- The file has no more bytes for a segment than it has room for. -/
theorem SoundFile.contents_le (h : SoundFile file) (stored : StoredFile k.disk path p file)
    (stale : Stale) {phdr : Phdr} (hphdr : phdr ∈ loadables (filePhdrs file)) :
    ((fileProgram stale k.disk.image
      (openedFile p (BitVec.ofNat 64 file.length))).contents phdr).length ≤ phdr.pMemsz.toNat := by
  rw [stored.contents stale (h.within phdr hphdr), List.length_take]
  exact Nat.le_trans (Nat.min_le_left ..) (h.filesz phdr hphdr)

/-- A sound file whose segments fit into the address space becomes a process, if there are a free slot
    in the table of open files, room for a descriptor and a kernel stack in the kernel heap, and
    frames. -/
theorem SoundFile.process (h : SoundFile file)
    (fits : ∀ phdr ∈ loadables (filePhdrs file), phdr.Fits) (tree : TreeInv image tag k.vmm)
    (hcr3 : k.vmm.cr3 = image.pml4Table) (stored : StoredFile k.disk path p file)
    (frames : framesNeeded (filePhdrs file) ≤ k.vmm.pmm.freeSet.card)
    (free : freeSlot k.disk.fds = some slot) (room : processAlloc fuel k = .ok (k₁, some p₁))
    (stale : Stale) (fns : Trampolines) (useLinuxAbi : BitVec 32) :
    ∃ r proc k' new,
      createElfAddressSpace k.vmm (fileProgram stale k.disk.image
        (openedFile p (BitVec.ofNat 64 file.length))) = .ok r ∧ r.proc = some proc ∧
      processCreateElf fuel stale fns k path useLinuxAbi = .ok (k', some new) ∧ k'.vmm = r.vmm ∧
      spaceOf new.proc = spaceOf proc := by
  have hphdrs := stored.phdrs stale h.header h.phdrs
  obtain ⟨r, proc, hspace, hproc⟩ := @createElf_ok image tag k.vmm
    (fileProgram stale k.disk.image (openedFile p (BitVec.ofNat 64 file.length))) tree hcr3
    (by
      rw [hphdrs]
      exact fun phdr hphdr => ⟨fits phdr hphdr, h.contents_le stored stale hphdr⟩)
    (by rw [hphdrs]; exact frames)
  obtain ⟨k', new, hok, hvmm, hnew⟩ := @processCreateElf_ok fuel stale fns useLinuxAbi k k₁ slot path
    p (BitVec.ofNat 64 file.length) p₁ r proc stored.found free (stored.delivers (by decide))
    ((stored.header stale h.header).1.2 h.supported) room (fun _ => stored.delivers (by decide))
    (fun phdr hphdr hload => by
      rw [hphdrs] at hphdr
      rw [stored.delivered _ _ (h.within phdr (List.mem_filter.2 ⟨hphdr, hload⟩))]
      exact Option.some_ne_none _) hspace hproc
  exact ⟨r, proc, k', new, hspace, hproc, hok, hvmm, hnew⟩

/-- The process of a file that the loader is made for has the program in its address space. -/
theorem elf_loading_faithful (image : BootImage) (fns : Trampolines) (ram : PhysMem) (k₀ : Kernel)
    (boot : kernelBoot image ram = .ok k₀.vmm) (calls : List SystemCall) (s : System)
    (run : Run (SystemStep image fns) { kernel := k₀, users := [] } calls s) (path : List Byte)
    (p : Nat) (file : List Byte) (stored : StoredFile (s.constructing image).disk path p file)
    (program : ProgramFile file)
    (frames : framesNeeded (filePhdrs file) ≤ (s.constructing image).vmm.pmm.freeSet.card)
    (slot : Nat) (free : freeSlot (s.constructing image).disk.fds = some slot) (fuel : Nat)
    (k₁ : Kernel) (p₁ : NewProcess)
    (room : processAlloc fuel (s.constructing image) = .ok (k₁, some p₁)) (stale : Stale)
    (useLinuxAbi : BitVec 32) :
    ∃ k' new, processCreateElf fuel stale fns (s.constructing image) path useLinuxAbi =
        .ok (k', some new) ∧
      LoadedFile (s.constructing image) file k' new := by
  obtain ⟨tag, inv⟩ := SystemInv.of_run boot run
  have tree : TreeInv image tag (s.constructing image).vmm := inv.toTreeInv.switch image.pml4Table
  have hphdrs := stored.phdrs stale program.header program.phdrs
  obtain ⟨r, proc, k', new, hspace, hproc, hok, hvmm, hnew⟩ := program.process
    (fun _ => program.fits) tree rfl stored frames free room stale fns useLinuxAbi
  refine ⟨k', new, hok, ?_⟩
  obtain ⟨loaded, hcr3⟩ := createElf_loaded tree rfl
    (by
      rw [hphdrs]
      exact fun phdr hphdr => program.contents_le stored stale hphdr)
    (by rw [hphdrs]; exact program.apart) hspace hproc
  obtain ⟨-, -, -, -, -, -, -, -, -, hstart, hend⟩ := createElf_stages hspace hproc
  have htable : new.proc.pageTable = proc.pageTable := congrArg Prod.fst hnew
  have hnewStart : new.proc.heapStart = proc.heapStart := congrArg (fun x => x.2.1) hnew
  have hnewEnd : new.proc.heapEnd = proc.heapEnd := congrArg (fun x => x.2.2) hnew
  refine ⟨fun phdr hphdr z hz => ?_, ?_, ?_, ?_, ?_, (processCreateElf_cases hok).1⟩
  · have hplaced := loaded.segments phdr (by rw [hphdrs]; exact hphdr) z hz
    rw [hvmm, htable, hplaced, stored.contents stale (program.within phdr hphdr)]
    congr 1
    by_cases hfile : z < phdr.pFilesz.toNat
    · rw [if_pos hfile, List.getD_eq_getElem?_getD, List.getD_eq_getElem?_getD,
        List.getElem?_take_of_lt hfile, List.getElem?_drop]
      rfl
    · rw [if_neg hfile, List.getD_eq_getElem?_getD, List.getElem?_eq_none]
      · rfl
      · rw [List.length_take]
        omega
  · rw [hvmm, htable]
    exact loaded.stack
  · rw [hnewStart, hstart, hphdrs]
    exact toNat_heapStart fun phdr hphdr => program.fits hphdr
  · rw [hnewEnd, hnewStart, hend]
  · rw [hvmm, hcr3]

end Files

/-! ### The first process -/

/-- A kernel that has booted has frames left. -/
theorem booted_frames : ∃ vmm, kernelBoot bootedImage (fun _ _ => 0#64) = .ok vmm ∧
    50000 ≤ vmm.pmm.freeSet.card := by
  obtain ⟨vmm, boot, hcard⟩ := bootedImage_boots fun _ _ => 0#64
  exact ⟨vmm, boot, Nat.le_trans (by decide) hcard⟩

/-- Frames that are left after booting are there for a constructor. -/
theorem constructing_frames {image : BootImage} {k : Kernel} {count : Nat} (hcount : count ≤ 50000)
    (h : 50000 ≤ k.vmm.pmm.freeSet.card) :
    count ≤ (System.constructing image { kernel := k, users := [] }).vmm.pmm.freeSet.card := by
  show _ ≤ k.vmm.pmm.freeSet.card
  exact Nat.le_trans hcount h

/-- Such a file in the archive becomes the first process. -/
theorem SoundFile.created {file : List Byte} (h : SoundFile file)
    (fits : ∀ phdr ∈ loadables (filePhdrs file), phdr.Fits) (hlt : file.length < 8 ^ 11)
    (hframes : framesNeeded (filePhdrs file) ≤ 50000) (stale : Stale) (fns : Trampolines) :
    ∃ vmm k' new, kernelBoot bootedImage (fun _ _ => 0#64) = .ok vmm ∧
      processCreateElf 4 stale fns (System.constructing bootedImage
        { kernel := fileKernel vmm file hlt, users := [] }) [97] 0#32 = .ok (k', some new) := by
  obtain ⟨vmm, boot, hcard⟩ := booted_frames
  obtain ⟨tag, inv⟩ := @SystemInv.of_run bootedImage fns _ _ (fileKernel vmm file hlt) [] boot (.nil _)
  obtain ⟨k₁, p₁, room⟩ := processAlloc_first (System.constructing bootedImage
    { kernel := fileKernel vmm file hlt, users := [] }) rfl
  obtain ⟨r, proc, k', new, -, -, hok, -, -⟩ := h.process fits
    (k := System.constructing bootedImage { kernel := fileKernel vmm file hlt, users := [] })
    (inv.toTreeInv.switch bootedImage.pml4Table) rfl (fileKernel_stored vmm file hlt)
    (constructing_frames hframes hcard) rfl room stale fns 0#32
  exact ⟨vmm, k', new, boot, hok⟩

/-! ### A small program -/

/-- Eight bytes of a number, in little-endian order. -/
def wordBytes (n : Nat) : List Byte := (List.range 8).map fun i => BitVec.ofNat 8 (n / 256 ^ i)

/-- The bytes of a program header of type `PT_LOAD`. -/
def loadHeader (offset vaddr filesz memsz : Nat) : List Byte :=
  wordBytes 1 ++ wordBytes offset ++ wordBytes vaddr ++ wordBytes 0 ++ wordBytes filesz ++
    wordBytes memsz ++ wordBytes 0

/-- The headers of the segments below. -/
def textPhdr : Phdr := ⟨ptLoad, 176#64, 0x8001000000#64, 4#64, 8#64⟩

def dataPhdr : Phdr := ⟨ptLoad, 180#64, 0x8001001FFE#64, 3#64, 5000#64⟩

/-- A program with two segments: four bytes and four zeros in one page, and three bytes and zeros that
    begin at the end of a page and go over two more. -/
def smallProgram : List Byte :=
  elfHeader 2 ++ loadHeader 176 0x8001000000 4 8 ++ loadHeader 180 0x8001001FFE 3 5000 ++
    [1, 2, 3, 4, 5, 6, 7]

theorem smallProgram_length : smallProgram.length = 183 := by
  simp [smallProgram, elfHeader, loadHeader, wordBytes]

theorem smallProgram_short : smallProgram.length < 8 ^ 11 := by
  rw [smallProgram_length]
  decide

theorem smallProgram_phdrs : filePhdrs smallProgram = [textPhdr, dataPhdr] := by decide +kernel

theorem smallProgram_loadables : loadables (filePhdrs smallProgram) = [textPhdr, dataPhdr] := by
  rw [smallProgram_phdrs]
  rfl

/-- What holds of both segments. -/
theorem smallProgram_all {P : Phdr → Prop} (htext : P textPhdr) (hdata : P dataPhdr) :
    ∀ phdr ∈ loadables (filePhdrs smallProgram), P phdr := by
  rw [smallProgram_loadables]
  exact List.forall_mem_cons.2 ⟨htext, List.forall_mem_singleton.2 hdata⟩

theorem smallProgram_file : ProgramFile smallProgram := by
  have hlength := smallProgram_length
  refine ⟨⟨⟨by omega, by decide, ?_, smallProgram_all (by decide) (by decide), ?_⟩,
    smallProgram_all (by decide) (by decide)⟩, ?_, ?_⟩
  · rw [hlength]
    decide
  · rw [hlength]
    exact smallProgram_all (by decide) (by decide)
  · rw [smallProgram_loadables, List.pairwise_pair]
    show ∀ k < textPhdr.pages, ∀ j < dataPhdr.pages,
      walkPath (textPhdr.page k) ≠ walkPath (dataPhdr.page j)
    decide +kernel
  · refine smallProgram_all ?_ ?_
    · show ∀ k < userStackPages, ∀ j < textPhdr.pages,
        walkPath (userStackPage k) ≠ walkPath (textPhdr.page j)
      decide +kernel
    · show ∀ k < userStackPages, ∀ j < dataPhdr.pages,
        walkPath (userStackPage k) ≠ walkPath (dataPhdr.page j)
      decide +kernel

theorem smallProgram_frames : framesNeeded (filePhdrs smallProgram) ≤ 50000 := by
  rw [smallProgram_phdrs]
  decide

/-- It is loaded from a booted kernel. -/
theorem elf_loading_faithful_small : ∃ k k' new,
    kernelBoot bootedImage (fun _ _ => 0#64) = .ok k.vmm ∧
      processCreateElf 4 ⟨fun _ => 0, fun _ _ => 0⟩ ⟨0#64, 0#64⟩
        (System.constructing bootedImage { kernel := k, users := [] }) [97] 0#32 =
        .ok (k', some new) ∧
      LoadedFile (System.constructing bootedImage { kernel := k, users := [] }) smallProgram k' new := by
  obtain ⟨vmm, boot, hcard⟩ := booted_frames
  obtain ⟨k₁, p₁, room⟩ := processAlloc_first (System.constructing bootedImage
    { kernel := fileKernel vmm smallProgram smallProgram_short, users := [] }) rfl
  obtain ⟨k', new, hok, hloaded⟩ := elf_loading_faithful bootedImage ⟨0#64, 0#64⟩ (fun _ _ => 0#64)
    (fileKernel vmm smallProgram smallProgram_short) boot [] _ (.nil _) [97] 0 smallProgram
    (fileKernel_stored vmm smallProgram smallProgram_short) smallProgram_file
    (constructing_frames smallProgram_frames hcard) 0 rfl 4 k₁ p₁ room
    ⟨fun _ => 0, fun _ _ => 0⟩ 0#32
  exact ⟨_, k', new, boot, hok, hloaded⟩

/-- A kernel whose table of open files is full. -/
def fullKernel (vmm : Vmm) : Kernel :=
  { fileKernel vmm smallProgram smallProgram_short with
    disk := { (fileKernel vmm smallProgram smallProgram_short).disk with
      fds := fun _ => openedFile 0 (BitVec.ofNat 64 smallProgram.length) } }

theorem ramdiskOpen_full {d : Ramdisk} (path : List Byte) (h : freeSlot d.fds = none) :
    ramdiskOpen d path = (-1, d) := by
  unfold ramdiskOpen
  rw [h]
  split <;> rfl

/-- Nothing is loaded when the table of open files is full. -/
theorem processCreateElf_full {fuel : Nat} {stale : Stale} {fns : Trampolines} {k : Kernel}
    {path : List Byte} {useLinuxAbi : BitVec 32} (h : freeSlot k.disk.fds = none) :
    processCreateElf fuel stale fns k path useLinuxAbi = .ok (k, none) := by
  unfold processCreateElf
  rw [ramdiskOpen_full path h]
  rfl

/-- Without a free slot in the table of open files the same program is not loaded. -/
theorem elf_loading_without_slot :
    ¬ ∀ (image : BootImage) (fns : Trampolines) (ram : PhysMem) (k₀ : Kernel),
      kernelBoot image ram = .ok k₀.vmm → ∀ (calls : List SystemCall) (s : System),
      Run (SystemStep image fns) { kernel := k₀, users := [] } calls s →
      ∀ (path : List Byte) (p : Nat) (file : List Byte),
      StoredFile (s.constructing image).disk path p file → ProgramFile file →
      framesNeeded (filePhdrs file) ≤ (s.constructing image).vmm.pmm.freeSet.card →
      ∀ (stale : Stale) (useLinuxAbi : BitVec 32), ∃ fuel k' new,
        processCreateElf fuel stale fns (s.constructing image) path useLinuxAbi =
            .ok (k', some new) ∧
          LoadedFile (s.constructing image) file k' new := by
  intro hclaim
  obtain ⟨vmm, boot, hcard⟩ := booted_frames
  have hstored := fileKernel_stored vmm smallProgram smallProgram_short
  obtain ⟨fuel, k', new, hok, -⟩ := hclaim bootedImage ⟨0#64, 0#64⟩ (fun _ _ => 0#64)
    (fullKernel vmm) boot [] _ (.nil _) [97] 0 smallProgram
    (hstored.with_fds _) smallProgram_file
    (constructing_frames smallProgram_frames hcard) ⟨fun _ => 0, fun _ _ => 0⟩ 0#32
  rw [processCreateElf_full (k := System.constructing bootedImage
    { kernel := fullKernel vmm, users := [] }) rfl] at hok
  cases hok

end CustomKernel
