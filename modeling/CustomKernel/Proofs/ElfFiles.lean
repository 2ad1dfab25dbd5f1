/-
Module: CustomKernel.Proofs.ElfFiles
Layer: Proofs
Purpose: `process_create_elf` splits into the ramdisk and the memory. What the loader reads depends on
  the file alone, so its run is that of `createElfAddressSpace` on the program headers and contents
  that the file delivers; of the table of open files only the entry of the file is touched.
Imports: CustomKernel.Filesystem.Loader, CustomKernel.Proofs.FileDescriptors
Trusted boundary: as in SystemRuns: the kernel heap, the descriptors and the archive are beside
  physical memory
Main exports: delivered, SameFile, elfFile, elfLoop_segments, elfLoop_ok, processCreateElf_cases
-/
import CustomKernel.Filesystem.Loader
import CustomKernel.Proofs.FileDescriptors

namespace CustomKernel.Filesystem

open CustomKernel.Memory CustomKernel.Syscall Loops

/-! ### Reading at an offset -/

/-- What a seek to `off` and a read of `len` bytes deliver; `none` if the copy does not come back. -/
def delivered (image : Nat → Byte) (f : FdEntry) (off len : Word) : Option (List Byte) :=
  let f := { f with pos := clampPos f off }
  if f.size ≤ f.pos then some []
  else if 2 ^ 64 ≤ f.pos.toNat + (cutLen f len).toNat then none
  else some ((List.range (cutLen f len).toNat).map fun j => image (f.data + f.pos.toNat + j))

/-- The position does not matter. -/
theorem delivered_pos (image : Nat → Byte) (f : FdEntry) (pos off len : Word) :
    delivered image { f with pos := pos } off len = delivered image f off len :=
  rfl

/-- The table of open files with another position in one entry. -/
def SameFile (slot : Nat) (d d' : Ramdisk) : Prop :=
  ∃ pos, d' = d.setEntry slot { d.fds slot with pos := pos }

theorem SameFile.refl (slot : Nat) (d : Ramdisk) : SameFile slot d d :=
  ⟨(d.fds slot).pos, (d.setEntry_self slot).symm⟩

theorem SameFile.trans {slot : Nat} {d d' d'' : Ramdisk} (h : SameFile slot d d')
    (h' : SameFile slot d' d'') : SameFile slot d d'' := by
  obtain ⟨pos, rfl⟩ := h
  obtain ⟨pos', rfl⟩ := h'
  refine ⟨pos', ?_⟩
  rw [setEntry_setEntry, Ramdisk.setEntry_fds_self]

theorem SameFile.image {slot : Nat} {d d' : Ramdisk} (h : SameFile slot d d') :
    d'.image = d.image := by
  obtain ⟨pos, rfl⟩ := h
  rfl

theorem SameFile.delivered {slot : Nat} {d d' : Ramdisk} (h : SameFile slot d d') (off len : Word) :
    Filesystem.delivered d'.image (d'.fds slot) off len =
      Filesystem.delivered d.image (d.fds slot) off len := by
  obtain ⟨pos, rfl⟩ := h
  rw [Ramdisk.setEntry_fds_self, delivered_pos]
  rfl

theorem SameFile.openSlot {slot : Nat} {fd : Int} {d d' : Ramdisk} (h : SameFile slot d d')
    (hopen : Filesystem.openSlot d fd = some slot) : Filesystem.openSlot d' fd = some slot := by
  obtain ⟨pos, rfl⟩ := h
  obtain ⟨hslot, huse⟩ := Option.filter_eq_some_iff.1 hopen
  refine Option.filter_eq_some_iff.2 ⟨hslot, ?_⟩
  rw [Ramdisk.setEntry_fds_self]
  exact huse

theorem orEndless_ok {α : Type} {x : Option α} {a : α} (h : orEndless x = .ok a) : x = some a := by
  cases x with
  | none => cases h
  | some b =>
      cases h
      rfl

/-- A seek and a read, in terms of the file. -/
theorem seekRead_eq {slot : Nat} {fd : Int} {d : Ramdisk} (hopen : openSlot d fd = some slot)
    (off len : Word) :
    match delivered d.image (d.fds slot) off len with
    | none => seekRead d fd off len = .error .endless
    | some bytes => ∃ read, seekRead d fd off len = .ok read ∧ read.bytes = bytes ∧
        SameFile slot d read.disk := by
  have hseek : (ramdiskSeek d fd off seekSet).2 =
      d.setEntry slot { d.fds slot with pos := clampPos (d.fds slot) off } := by
    unfold ramdiskSeek
    rw [hopen]
    rfl
  have hsame : SameFile slot d (ramdiskSeek d fd off seekSet).2 := ⟨_, hseek⟩
  have hopen' := hsame.openSlot hopen
  unfold seekRead
  rw [hseek] at hopen' hsame ⊢
  unfold ramdiskRead
  rw [hopen']
  dsimp only
  rw [Ramdisk.setEntry_fds_self]
  unfold delivered
  dsimp only
  split
  · rename_i heq
    split at heq
    · cases heq
    · rename_i hpos
      rw [if_neg hpos]
      split at heq
      · rename_i hwrap
        rw [if_pos hwrap]
        rfl
      · cases heq
  · rename_i bytes heq
    split at heq
    · rename_i hpos
      rw [if_pos hpos]
      cases heq
      exact ⟨_, rfl, rfl, hsame⟩
    · rename_i hpos
      rw [if_neg hpos]
      split at heq
      · cases heq
      · rename_i hwrap
        rw [if_neg hwrap]
        cases heq
        exact ⟨_, rfl, rfl, _, setEntry_setEntry ..⟩

theorem seekRead_ok {slot : Nat} {fd : Int} {d : Ramdisk} {off len : Word} {read : ReadResult}
    (hopen : openSlot d fd = some slot) (h : seekRead d fd off len = .ok read) :
    delivered d.image (d.fds slot) off len = some read.bytes ∧ SameFile slot d read.disk := by
  have hread := seekRead_eq hopen off len
  cases hd : delivered d.image (d.fds slot) off len with
  | none =>
      rw [hd] at hread
      dsimp only at hread
      rw [h] at hread
      cases hread
  | some bytes =>
      rw [hd] at hread
      obtain ⟨read', hread', hbytes, hsame⟩ := hread
      rw [h] at hread'
      cases hread'
      exact ⟨congrArg some hbytes.symm, hsame⟩

/-- Never more than asked for. -/
theorem delivered_length (image : Nat → Byte) (f : FdEntry) (off len : Word) :
    ((delivered image f off len).getD []).length ≤ len.toNat := by
  unfold delivered
  dsimp only
  split
  · exact Nat.zero_le _
  · split
    · exact Nat.zero_le _
    · rename_i hpos _
      rw [Option.getD_some, List.length_map, List.length_range]
      unfold cutLen
      dsimp only
      split
      · rename_i hcut
        rw [BitVec.le_def] at hpos
        rw [BitVec.lt_def, BitVec.toNat_add] at hcut
        rw [BitVec.toNat_sub]
        have := f.size.isLt
        omega
      · exact Nat.le_refl _

/-! ### The file as the loader reads it -/

/-- Program header number `i`. -/
def header (stale : Stale) (image : Nat → Byte) (f : FdEntry) (ehdr : Ehdr) (i : Nat) : Phdr :=
  Phdr.ofBytes (overwrite (stale.phdr i)
    ((delivered image f (ehdr.ePhoff + BitVec.ofNat 64 (i * phdrSize))
      (BitVec.ofNat 64 phdrSize)).getD []))

/-- The bytes for a segment. -/
def segmentBytes (image : Nat → Byte) (f : FdEntry) (phdr : Phdr) : List Byte :=
  (delivered image f phdr.pOffset phdr.pFilesz).getD []

/-- The program headers and the contents of a file. -/
def elfFile (stale : Stale) (image : Nat → Byte) (f : FdEntry) (ehdr : Ehdr) : ElfFile where
  phdrs := (List.range ehdr.ePhnum.toNat).map (header stale image f ehdr)
  contents := segmentBytes image f
  contents_le phdr _ := delivered_length image f phdr.pOffset phdr.pFilesz

theorem elfFile_phdrs (stale : Stale) (image : Nat → Byte) (f : FdEntry) (ehdr : Ehdr) :
    (elfFile stale image f ehdr).phdrs =
      (List.range' 0 ehdr.ePhnum.toNat).map (header stale image f ehdr) := by
  rw [← List.range_eq_range']
  rfl

/-- One round of `last_vend`. -/
def raiseVend (last : Word) (phdr : Phdr) : Word :=
  if phdr.loadable ∧ last < phdr.vend then phdr.vend else last

section Loop

variable {stale : Stale} {ehdr : Ehdr} {fd : Int} {pageTable : Word} {slot : Nat}

/-- The loop over the program headers is the loop over the headers the file delivers. -/
theorem elfLoop_segments : ∀ (count i : Nat) (st out : ElfLoop),
    openSlot st.disk fd = some slot → st.ok = true →
    elfLoop stale ehdr fd pageTable st.vmm.cr3 count i st = .ok out →
    ∃ load, loadSegments pageTable (segmentBytes st.disk.image (st.disk.fds slot))
        ((List.range' i count).map (header stale st.disk.image (st.disk.fds slot) ehdr)) st.vmm =
        .ok load ∧
      load.vmm = out.vmm ∧ load.ok = out.ok ∧ SameFile slot st.disk out.disk ∧
      (out.ok = true → out.lastVend = ((List.range' i count).map
        (header stale st.disk.image (st.disk.fds slot) ehdr)).foldl raiseVend st.lastVend)
  | 0, i, st, out, hopen, hst, h => by
      cases h
      exact ⟨_, rfl, rfl, hst.symm, .refl _ _, fun _ => rfl⟩
  | count + 1, i, st, out, hopen, hst, h => by
      rw [elfLoop] at h
      obtain ⟨read, hread, h⟩ := bind_ok h
      obtain ⟨hbytes, hsame⟩ := seekRead_ok hopen hread
      have hphdr : Phdr.ofBytes (overwrite (stale.phdr i) read.bytes) =
          header stale st.disk.image (st.disk.fds slot) ehdr i := by
        rw [header, hbytes]
        rfl
      rw [hphdr] at h
      rw [List.range'_succ, List.map_cons, List.foldl_cons, loadSegments]
      -- the file is the same for the rest of the loop
      have hlater : ∀ {d}, SameFile slot st.disk d →
          (List.range' (i + 1) count).map (header stale d.image (d.fds slot) ehdr) =
            (List.range' (i + 1) count).map
              (header stale st.disk.image (st.disk.fds slot) ehdr) ∧
          segmentBytes d.image (d.fds slot) = segmentBytes st.disk.image (st.disk.fds slot) := by
        intro d hd
        refine ⟨List.map_congr_left fun j _ => ?_, funext fun phdr => ?_⟩
        · rw [header, header, hd.delivered]
        · rw [segmentBytes, segmentBytes, hd.delivered]
      generalize header stale st.disk.image (st.disk.fds slot) ehdr i = phdr at h ⊢
      dsimp only at h
      split at h
      · rename_i hload
        rw [if_pos hload]
        have hvend : raiseVend st.lastVend phdr =
            if st.lastVend < phdr.vend then phdr.vend else st.lastVend := by
          simp only [raiseVend, hload, true_and]
        rw [hvend]
        obtain ⟨pages, hpages, h⟩ := bind_ok h
        split at h
        · rename_i hcomplete
          obtain ⟨s₁, hzero, h⟩ := bind_ok h
          obtain ⟨contents, hcontents, h⟩ := bind_ok h
          obtain ⟨s₂, hfill, h⟩ := bind_ok h
          obtain ⟨hbytes', hsame'⟩ := seekRead_ok (hsame.openSlot hopen) hcontents
          have hboth := hsame.trans hsame'
          have hsegment : loadSegment pageTable phdr
              (segmentBytes st.disk.image (st.disk.fds slot) phdr) st.vmm =
              .ok { vmm := vmmSwitchAddressSpace s₂ st.vmm.cr3, frames := pages.frames,
                    ok := true } := by
            have hcontent : segmentBytes st.disk.image (st.disk.fds slot) phdr = contents.bytes := by
              rw [segmentBytes, ← hsame.delivered, hbytes']
              rfl
            rw [loadSegment, hcontent, hpages]
            show (if pages.complete = true then _ else _) = _
            rw [if_pos hcomplete, hzero]
            show (storeBytes _ contents.bytes s₁ >>= _) = _
            rw [hfill]
            rfl
          obtain ⟨load, hrest, hvmm, hok, hdisk, hlast⟩ := elfLoop_segments count (i + 1)
            { vmm := vmmSwitchAddressSpace s₂ st.vmm.cr3
              disk := contents.disk
              lastVend := if st.lastVend < phdr.vend then phdr.vend else st.lastVend
              ok := true } out (hboth.openSlot hopen) rfl h
          obtain ⟨hheaders, hsegments⟩ := hlater hboth
          dsimp only at hrest hlast hdisk
          rw [hheaders] at hrest hlast
          rw [hsegments] at hrest
          refine ⟨{ load with frames := pages.frames ++ load.frames }, ?_, hvmm, hok,
            hboth.trans hdisk, hlast⟩
          rw [hsegment]
          show (loadSegments _ _ _ _ >>= _) = _
          rw [hrest]
          rfl
        · rename_i hcomplete
          cases h
          refine ⟨{ vmm := pages.vmm, frames := pages.frames, ok := false }, ?_, rfl, rfl, hsame,
            fun hc => (nomatch hc)⟩
          rw [loadSegment, hpages]
          show ((if pages.complete = true then _ else _) >>= _) = _
          rw [if_neg hcomplete]
          rfl
      · rename_i hload
        rw [if_neg hload]
        have hvend : raiseVend st.lastVend phdr = st.lastVend := if_neg fun hc => hload hc.1
        rw [hvend]
        obtain ⟨load, hrest, hvmm, hok, hdisk, hlast⟩ := elfLoop_segments count (i + 1)
          { st with disk := read.disk } out (hsame.openSlot hopen) hst h
        obtain ⟨hheaders, hsegments⟩ := hlater hsame
        dsimp only at hrest hlast hdisk
        rw [hheaders] at hrest hlast
        rw [hsegments] at hrest
        exact ⟨load, hrest, hvmm, hok, hsame.trans hdisk, hlast⟩

/-- The loop comes back if the loop over the headers of the file does and the reads of the headers
    and of the loadable segments deliver. -/
theorem elfLoop_ok : ∀ (count i : Nat) (st : ElfLoop) (load : Loading),
    openSlot st.disk fd = some slot →
    (∀ off, delivered st.disk.image (st.disk.fds slot) off (BitVec.ofNat 64 phdrSize) ≠ none) →
    (∀ phdr ∈ (List.range' i count).map (header stale st.disk.image (st.disk.fds slot) ehdr),
      phdr.loadable = true →
      delivered st.disk.image (st.disk.fds slot) phdr.pOffset phdr.pFilesz ≠ none) →
    loadSegments pageTable (segmentBytes st.disk.image (st.disk.fds slot))
      ((List.range' i count).map (header stale st.disk.image (st.disk.fds slot) ehdr)) st.vmm =
      .ok load →
    ∃ out, elfLoop stale ehdr fd pageTable st.vmm.cr3 count i st = .ok out
  | 0, i, st, load, hopen, hheaders, hcontents, h => ⟨_, rfl⟩
  | count + 1, i, st, load, hopen, hheaders, hcontents, h => by
      have hread : ∀ {d} off len, SameFile slot st.disk d →
          delivered st.disk.image (st.disk.fds slot) off len ≠ none → ∃ read, seekRead d fd off len = .ok read ∧
            read.bytes = (delivered st.disk.image (st.disk.fds slot) off len).getD [] ∧
            SameFile slot st.disk read.disk := by
        intro d off len hd hdelivers
        have hread := seekRead_eq (hd.openSlot hopen) off len
        rw [hd.delivered] at hread
        cases hbytes : delivered st.disk.image (st.disk.fds slot) off len with
        | none => exact absurd hbytes hdelivers
        | some bytes =>
            rw [hbytes] at hread
            obtain ⟨read, hread, heq, hsame⟩ := hread
            exact ⟨read, hread, heq, hd.trans hsame⟩
      have hrec : ∀ {d} (vmm : Vmm) (last : Word) (ok : Bool) (load : Loading),
          SameFile slot st.disk d → vmm.cr3 = st.vmm.cr3 →
          loadSegments pageTable (segmentBytes st.disk.image (st.disk.fds slot))
            ((List.range' (i + 1) count).map
              (header stale st.disk.image (st.disk.fds slot) ehdr)) vmm = .ok load →
          ∃ out, elfLoop stale ehdr fd pageTable st.vmm.cr3 count (i + 1)
            { vmm := vmm, disk := d, lastVend := last, ok := ok } = .ok out := by
        intro d vmm last ok load hd hcr3 hload
        have hsegments : segmentBytes d.image (d.fds slot) =
            segmentBytes st.disk.image (st.disk.fds slot) := funext fun phdr => by
          rw [segmentBytes, segmentBytes, hd.delivered]
        have hsame : (List.range' (i + 1) count).map (header stale d.image (d.fds slot) ehdr) =
            (List.range' (i + 1) count).map (header stale st.disk.image (st.disk.fds slot) ehdr) :=
          List.map_congr_left fun j _ => by rw [header, header, hd.delivered]
        rw [← hcr3]
        refine elfLoop_ok count (i + 1) { vmm := vmm, disk := d, lastVend := last, ok := ok } load
          (hd.openSlot hopen) (fun off => ?_) (fun phdr hphdr hload => ?_) ?_
        · rw [hd.delivered]
          exact hheaders off
        · rw [hsame] at hphdr
          rw [hd.delivered]
          refine hcontents phdr ?_ hload
          rw [List.range'_succ, List.map_cons]
          exact List.mem_cons_of_mem _ hphdr
        · rw [hsegments, hsame]
          exact hload
      rw [elfLoop]
      obtain ⟨read, hread₁, hbytes₁, hsame₁⟩ := hread
        (ehdr.ePhoff + BitVec.ofNat 64 (i * phdrSize)) (BitVec.ofNat 64 phdrSize) (.refl slot st.disk)
        (hheaders _)
      rw [hread₁]
      show ∃ out, (if (Phdr.ofBytes (overwrite (stale.phdr i) read.bytes)).loadable = true then _
        else _) = _
      have hphdr : Phdr.ofBytes (overwrite (stale.phdr i) read.bytes) =
          header stale st.disk.image (st.disk.fds slot) ehdr i := by
        rw [header, hbytes₁]
      rw [hphdr]
      rw [List.range'_succ, List.map_cons, loadSegments] at h
      have hfirst := hcontents (header stale st.disk.image (st.disk.fds slot) ehdr i)
        (by rw [List.range'_succ, List.map_cons]; exact List.mem_cons_self ..)
      generalize header stale st.disk.image (st.disk.fds slot) ehdr i = phdr at h hfirst ⊢
      split at h
      · rename_i hload
        rw [if_pos hload]
        obtain ⟨first, hsegment, h⟩ := bind_ok h
        obtain ⟨pages, hpages, hsegment⟩ := bind_ok hsegment
        rw [hpages]
        show ∃ out, (if pages.complete = true then _ else _) = _
        split at hsegment
        · rename_i hcomplete
          rw [if_pos hcomplete]
          obtain ⟨s₁, hzero, hsegment⟩ := bind_ok hsegment
          obtain ⟨s₂, hfill, hsegment⟩ := bind_ok hsegment
          cases hsegment
          rw [if_pos rfl] at h
          obtain ⟨rest, hrest, h⟩ := bind_ok h
          obtain ⟨contents, hread₂, hbytes₂, hsame₂⟩ := hread phdr.pOffset phdr.pFilesz hsame₁
            (hfirst hload)
          rw [hzero]
          show ∃ out, (seekRead read.disk fd phdr.pOffset phdr.pFilesz >>= _) = _
          rw [hread₂]
          show ∃ out, (storeBytes phdr.pVaddr contents.bytes s₁ >>= _) = _
          rw [hbytes₂]
          change storeBytes phdr.pVaddr
            ((delivered st.disk.image (st.disk.fds slot) phdr.pOffset phdr.pFilesz).getD []) s₁ = _
            at hfill
          rw [hfill]
          exact hrec _ _ _ rest hsame₂ rfl hrest
        · rename_i hcomplete
          rw [if_neg hcomplete]
          exact ⟨_, rfl⟩
      · rename_i hload
        rw [if_neg hload]
        exact hrec _ _ _ load hsame₁ rfl h

end Loop

/-! ### The constructor -/

/-- The stages of a load that ends with a process. -/
theorem createElf_stages {s : Vmm} {elf : ElfFile} {r : ElfReturn} {proc : Process}
    (hok : createElfAddressSpace s elf = .ok r) (hproc : r.proc = some proc) :
    ∃ stack load, (vmmCreateAddressSpace s).2 ≠ 0#64 ∧
      mapFreshPages (vmmCreateAddressSpace s).2 userStackPage userPage userStackPages 0
        (vmmCreateAddressSpace s).1 = .ok stack ∧ stack.complete = true ∧
      loadSegments (vmmCreateAddressSpace s).2 elf.contents elf.phdrs stack.vmm = .ok load ∧
      load.ok = true ∧ r.vmm = load.vmm ∧ proc.pageTable = (vmmCreateAddressSpace s).2 ∧
      proc.heapStart = (if lastVend elf.phdrs = 0#64 then userHeapBase else lastVend elf.phdrs) ∧
      proc.heapEnd = proc.heapStart := by
  unfold createElfAddressSpace at hok
  dsimp only at hok
  split at hok
  · cases hok
    cases hproc
  · rename_i hnull
    obtain ⟨stack, hstack, hok⟩ := bind_ok hok
    split at hok
    · rename_i hcomplete
      obtain ⟨load, hload, hok⟩ := bind_ok hok
      split at hok
      · rename_i hloaded
        cases hok
        cases hproc
        exact ⟨stack, load, hnull, hstack, hcomplete, hload, hloaded, rfl, rfl, rfl, rfl⟩
      · cases hok
        cases hproc
    · cases hok
      cases hproc

/-- The entry that `ramdisk_open` makes for the file with its header at `p`. -/
def openedFile (p : Nat) (size : Word) : FdEntry :=
  { data := p + 512, size := size, pos := 0, inUse := true }

/-- The ELF header of a file. -/
def fileHeader (stale : Stale) (image : Nat → Byte) (f : FdEntry) : Ehdr :=
  Ehdr.ofBytes (overwrite stale.ehdr ((delivered image f 0#64 ehdrSize).getD []))

/-- The program that a file holds. -/
def fileProgram (stale : Stale) (image : Nat → Byte) (f : FdEntry) : ElfFile :=
  elfFile stale image f (fileHeader stale image f)

/-- The table of open files is as before, up to what is left in one slot that is free. -/
def FilesKept (d d' : Ramdisk) : Prop :=
  d'.image = d.image ∧ d'.length = d.length ∧ (∀ i, (d'.fds i).inUse = (d.fds i).inUse) ∧
    ∃ slot, ∀ i, i ≠ slot ∨ (d.fds i).inUse = true → d'.fds i = d.fds i

/-- What the new descriptor has of the new address space. -/
def spaceOf (proc : Process) : Word × Word × Word :=
  (proc.pageTable, proc.heapStart, proc.heapEnd)

theorem FilesKept.refl (d : Ramdisk) : FilesKept d d :=
  ⟨rfl, rfl, fun _ => rfl, 0, fun _ _ => rfl⟩

/-- Opening a slot, working on it and closing it. -/
theorem FilesKept.closed {d d' : Ramdisk} {slot : Nat} {f : FdEntry} (hslot : slot < maxFds)
    (hfree : (d.fds slot).inUse = false) (hsame : SameFile slot (d.setEntry slot f) d') :
    FilesKept d (ramdiskClose d' ((slot : Int) + 3)) := by
  obtain ⟨pos, rfl⟩ := hsame
  have hclose : ∀ r : Ramdisk, ramdiskClose r ((slot : Int) + 3) =
      r.setEntry slot { r.fds slot with inUse := false } := by
    intro r
    unfold ramdiskClose
    rw [slotOf_add_three hslot]
    rfl
  rw [hclose, setEntry_setEntry, setEntry_setEntry]
  refine ⟨rfl, rfl, fun i => ?_, slot, fun i hi => ?_⟩
  · by_cases heq : i = slot
    · subst heq
      rw [Ramdisk.setEntry_fds_self]
      exact hfree.symm
    · rw [Ramdisk.setEntry_fds_of_ne _ heq]
  · refine Ramdisk.setEntry_fds_of_ne _ ?_ _
    rintro rfl
    rcases hi with hne | huse
    · exact hne rfl
    · rw [hfree] at huse
      cases huse

section Constructor

variable {fuel : Nat} {stale : Stale} {fns : Trampolines} {useLinuxAbi : BitVec 32} {k k' : Kernel}
  {result : Option NewProcess} {slot : Nat} {fd : Int}

/-- Behind `process_alloc` the constructor is `createElfAddressSpace` on the program in the file. -/
theorem loadElf_cases {ehdr : Ehdr} {p : NewProcess} (hopen : openSlot k.disk fd = some slot)
    (h : loadElf fuel stale fns ehdr fd useLinuxAbi k p = .ok (k', result)) :
    (∃ d, SameFile slot k.disk d ∧ k'.disk = ramdiskClose d fd) ∧
      ∃ r, createElfAddressSpace k.vmm (elfFile stale k.disk.image (k.disk.fds slot) ehdr) = .ok r ∧
        k'.vmm = r.vmm ∧ result.map (fun new => spaceOf new.proc) = r.proc.map spaceOf := by
  unfold loadElf at h
  unfold createElfAddressSpace
  dsimp only at h ⊢
  split at h
  · rename_i hnull
    obtain ⟨k₁, hdestroy, h⟩ := bind_ok h
    obtain ⟨heap₁, -, hdestroy⟩ := bind_ok hdestroy
    obtain ⟨heap₂, -, hdestroy⟩ := bind_ok hdestroy
    cases hdestroy
    cases h
    rw [if_pos hnull]
    exact ⟨⟨k.disk, .refl _ _, rfl⟩, _, rfl, rfl, rfl⟩
  · rename_i hnull
    rw [if_neg hnull]
    obtain ⟨stack, hstack, h⟩ := bind_ok h
    rw [hstack]
    show _ ∧ ∃ r, (if stack.complete = true then _ else _) = _ ∧ _
    split at h
    · rename_i hcomplete
      rw [if_pos hcomplete]
      obtain ⟨st, hloop, h⟩ := bind_ok h
      obtain ⟨load, hload, hvmm, hok, hsame, hlast⟩ := elfLoop_segments _ _
        { vmm := stack.vmm, disk := k.disk, lastVend := 0#64, ok := true } st hopen rfl hloop
      have hload' : loadSegments (vmmCreateAddressSpace k.vmm).2
          (elfFile stale k.disk.image (k.disk.fds slot) ehdr).contents
          (elfFile stale k.disk.image (k.disk.fds slot) ehdr).phdrs stack.vmm = .ok load := by
        rw [elfFile_phdrs]
        exact hload
      rw [hload']
      show _ ∧ ∃ r, (if load.ok = true then _ else _) = _ ∧ _
      rw [hok]
      split at h
      · rename_i hst
        rw [if_pos hst]
        have hvend : st.lastVend = lastVend (elfFile stale k.disk.image (k.disk.fds slot) ehdr).phdrs := by
          rw [hlast hst, elfFile_phdrs]
          rfl
        cases h
        refine ⟨⟨st.disk, hsame, rfl⟩, _, rfl, hvmm.symm, ?_⟩
        rw [← hvend]
        by_cases hzero : st.lastVend = 0#64
        · simp only [Option.map_some, withStack, spaceOf, hzero, ne_eq, not_true, if_false,
            if_true]
        · simp only [Option.map_some, withStack, spaceOf, hzero, ne_eq, not_false_iff, if_false,
            if_true]
      · rename_i hst
        rw [if_neg hst]
        cases h
        exact ⟨⟨st.disk, hsame, rfl⟩, _, rfl, hvmm.symm, rfl⟩
    · rename_i hcomplete
      rw [if_neg hcomplete]
      cases h
      exact ⟨⟨k.disk, .refl _ _, rfl⟩, _, rfl, rfl, rfl⟩

/-- `process_alloc` works on the kernel heap alone. -/
theorem processAlloc_frame {p : Option NewProcess} (h : processAlloc fuel k = .ok (k', p)) :
    k'.vmm = k.vmm ∧ k'.disk = k.disk := by
  unfold processAlloc at h
  obtain ⟨⟨heap, proc⟩, -, h⟩ := bind_ok h
  dsimp only at h
  split at h
  · cases h
    exact ⟨rfl, rfl⟩
  · obtain ⟨⟨heap', kstack⟩, -, h⟩ := bind_ok h
    dsimp only at h
    split at h
    · obtain ⟨heap'', -, h⟩ := bind_ok h
      cases h
      exact ⟨rfl, rfl⟩
    · cases h
      exact ⟨rfl, rfl⟩

theorem openSlot_opened {d : Ramdisk} {p : Nat} {size : Word} (hslot : slot < maxFds) :
    openSlot (d.setEntry slot (openedFile p size)) ((slot : Int) + 3) = some slot := by
  refine openSlot_add_three hslot ?_
  rw [Ramdisk.setEntry_fds_self]
  rfl

theorem clampPos_zero (f : FdEntry) : clampPos f 0#64 = 0#64 := by
  have hpos : ¬ (0#64).toInt < 0 := by decide
  unfold clampPos
  dsimp only
  rw [if_neg hpos]
  exact if_neg BitVec.not_lt_zero

/-- Reading from the start of a file that was just opened. -/
theorem seekRead_opened {d : Ramdisk} {p : Nat} {size len : Word} (hslot : slot < maxFds) :
    seekRead (d.setEntry slot (openedFile p size)) ((slot : Int) + 3) 0#64 len =
      orEndless (ramdiskRead (d.setEntry slot (openedFile p size)) ((slot : Int) + 3) len) := by
  have hseek : (ramdiskSeek (d.setEntry slot (openedFile p size)) ((slot : Int) + 3) 0#64 seekSet).2 =
      d.setEntry slot (openedFile p size) := by
    unfold ramdiskSeek
    rw [openSlot_opened hslot]
    show Ramdisk.setEntry _ slot { Ramdisk.fds _ slot with pos := clampPos (Ramdisk.fds _ slot) 0#64 } = _
    rw [Ramdisk.setEntry_fds_self, clampPos_zero, setEntry_setEntry]
    rfl
  rw [seekRead, hseek]

/-- What the read of the header delivers. -/
theorem read_header {d : Ramdisk} {p : Nat} {size : Word} {read : ReadResult} (hslot : slot < maxFds)
    (h : ramdiskRead (d.setEntry slot (openedFile p size)) ((slot : Int) + 3) ehdrSize = some read) :
    delivered d.image (openedFile p size) 0#64 ehdrSize = some read.bytes ∧
      SameFile slot (d.setEntry slot (openedFile p size)) read.disk := by
  have hread : seekRead (d.setEntry slot (openedFile p size)) ((slot : Int) + 3) 0#64 ehdrSize =
      .ok read := by
    rw [seekRead_opened hslot, h]
    rfl
  have hfile := seekRead_ok (openSlot_opened hslot) hread
  rw [Ramdisk.setEntry_fds_self] at hfile
  exact hfile

/-- The ways in which `process_create_elf` returns: it gives up before there is an address space, or
    it is `createElfAddressSpace` on the program in the file. -/
theorem processCreateElf_cases {path : List Byte}
    (h : processCreateElf fuel stale fns k path useLinuxAbi = .ok (k', result)) :
    FilesKept k.disk k'.disk ∧
      ((k'.vmm = k.vmm ∧ result = none) ∨
        ∃ p size r, findFile k.disk.image k.disk.length path (k.disk.length / 512 + 1) 0 =
            some (p, size) ∧
          createElfAddressSpace k.vmm (fileProgram stale k.disk.image (openedFile p size)) = .ok r ∧
          k'.vmm = r.vmm ∧ result.map (fun new => spaceOf new.proc) = r.proc.map spaceOf) := by
  unfold processCreateElf ramdiskOpen at h
  cases hfind : findFile k.disk.image k.disk.length path (k.disk.length / 512 + 1) 0 with
  | none =>
      rw [hfind] at h
      cases h
      exact ⟨.refl _, .inl ⟨rfl, rfl⟩⟩
  | some file =>
      obtain ⟨p, size⟩ := file
      rw [hfind] at h
      dsimp only at h
      cases hfree : freeSlot k.disk.fds with
      | none =>
          rw [hfree] at h
          cases h
          exact ⟨.refl _, .inl ⟨rfl, rfl⟩⟩
      | some slot =>
          rw [hfree] at h
          dsimp only at h
          obtain ⟨hslot, hunused⟩ := freeSlot_some hfree
          rw [if_neg (by omega)] at h
          obtain ⟨read, hread, h⟩ := bind_ok h
          obtain ⟨hbytes, hsame⟩ := @read_header _ _ p size _ hslot (orEndless_ok hread)
          have hclosed : ∀ {d}, SameFile slot read.disk d →
              FilesKept k.disk (ramdiskClose d ((slot : Int) + 3)) :=
            fun hd => .closed hslot hunused (hsame.trans hd)
          have hheader : Ehdr.ofBytes (overwrite stale.ehdr read.bytes) =
              fileHeader stale k.disk.image (openedFile p size) := by
            rw [fileHeader, hbytes]
            rfl
          rw [hheader] at h
          split at h
          · obtain ⟨⟨k₁, proc⟩, halloc, h⟩ := bind_ok h
            obtain ⟨hvmm, hdisk⟩ := processAlloc_frame halloc
            dsimp only at hvmm hdisk h
            cases proc with
            | none =>
                cases h
                refine ⟨?_, .inl ⟨hvmm, rfl⟩⟩
                show FilesKept k.disk (ramdiskClose k₁.disk _)
                rw [hdisk]
                exact hclosed (.refl _ _)
            | some new =>
                have hopen : openSlot k₁.disk ((slot : Int) + 3) = some slot := by
                  rw [hdisk]
                  exact hsame.openSlot (openSlot_opened hslot)
                obtain ⟨⟨d, hd, hkd⟩, r, hr, hkv, hresult⟩ := loadElf_cases hopen h
                rw [hdisk] at hd hr
                rw [hvmm] at hr
                refine ⟨hkd ▸ hclosed hd, .inr ⟨p, size, r, rfl, ?_, hkv, hresult⟩⟩
                -- the position in the file does not matter
                obtain ⟨pos, hpos⟩ := hsame
                rw [hpos, Ramdisk.setEntry_fds_self, Ramdisk.setEntry_fds_self] at hr
                exact hr
          · cases h
            exact ⟨hclosed (.refl _ _), .inl ⟨rfl, rfl⟩⟩

end Constructor

end CustomKernel.Filesystem
