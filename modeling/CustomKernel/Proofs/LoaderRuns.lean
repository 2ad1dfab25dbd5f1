/-
Module: CustomKernel.Proofs.LoaderRuns
Layer: Proofs
Purpose: When `process_create_elf` comes back with a process. The reads of a file in the archive
  deliver its bytes; if the header is supported, the kernel heap has room and the address space can
  be built, the constructor returns the process of `createElfAddressSpace` on the program that the
  bytes of the file hold.
Imports: CustomKernel.Proofs.Archive, CustomKernel.Proofs.SystemRuns
Trusted boundary: as in SystemRuns: the kernel heap, the descriptors and the archive are beside
  physical memory
Main exports: StoredFile, StoredFile.delivered, StoredFile.header, StoredFile.phdrs,
  processCreateElf_ok, emptyProgram_system, SystemStep.first_page
-/
import CustomKernel.Proofs.Archive
import CustomKernel.Proofs.SystemRuns

namespace CustomKernel.Filesystem

open CustomKernel.Memory CustomKernel.Syscall Loops

/-! ### Files of the archive -/

/-- The path leads to a file with these bytes, whose header is at `p`. -/
structure StoredFile (disk : Ramdisk) (path : List Byte) (p : Nat) (file : List Byte) : Prop where
  found : findFile disk.image disk.length path (disk.length / 512 + 1) 0 =
    some (p, BitVec.ofNat 64 file.length)
  bytes : BytesAt disk.image (p + 512) file
  short : file.length < 8 ^ 11

theorem StoredFile.archive (front : List Member) (m : Member) (rest : List Member) (blocks : Nat)
    (behind : Nat → Byte) (fds : Nat → FdEntry) {path : List Byte} (hpath : ∀ b ∈ path, b ≠ 0)
    (hfront : ∀ b ∈ front, ¬ b.Named path) (hm : m.Named path) :
    StoredFile (archiveDisk (archive (front ++ m :: rest) blocks) behind fds) path
      (front.flatMap Member.bytes).length m.content where
  found := by
    rw [findFile_disk _ blocks behind fds hpath, firstNamed_append hfront hm, Nat.zero_add]
  bytes := content_at front m rest blocks behind fds
  short := m.content_lt

section Reads

variable {disk : Ramdisk} {path : List Byte} {p : Nat} {file : List Byte}

theorem StoredFile.toNat_size (h : StoredFile disk path p file) :
    (BitVec.ofNat 64 file.length).toNat = file.length := by
  have := h.short
  rw [BitVec.toNat_ofNat]
  omega

/-- Seeking to a position inside the file. -/
theorem StoredFile.clampPos_eq (h : StoredFile disk path p file) {off : Word}
    (hoff : off.toNat ≤ file.length) :
    clampPos (openedFile p (BitVec.ofNat 64 file.length)) off = off := by
  have hsize := h.toNat_size
  have hshort := h.short
  have hpos : ¬ off.toInt < 0 := by
    rw [BitVec.toInt_eq_toNat_of_lt (by omega)]
    omega
  have hle : ¬ BitVec.ofNat 64 file.length < off := by
    rw [BitVec.lt_def, hsize]
    omega
  unfold clampPos
  dsimp only
  rw [if_neg hpos]
  exact if_neg hle

/-- Reading a part of the file. -/
theorem StoredFile.delivered (h : StoredFile disk path p file) (off len : Word)
    (hfit : off.toNat + len.toNat ≤ file.length) :
    Filesystem.delivered disk.image (openedFile p (BitVec.ofNat 64 file.length)) off len =
      some ((file.drop off.toNat).take len.toNat) := by
  have hsize := h.toNat_size
  have hshort := h.short
  have hclamp := @StoredFile.clampPos_eq _ _ _ _ h off (by omega)
  have hsum : (off + len).toNat = off.toNat + len.toNat := by
    rw [BitVec.toNat_add]
    omega
  unfold Filesystem.delivered
  rw [hclamp]
  dsimp only [openedFile]
  split
  · rename_i hend
    rw [BitVec.le_def, hsize] at hend
    rw [show len.toNat = 0 by omega, List.take_zero]
  · have hcut : cutLen ⟨p + 512, BitVec.ofNat 64 file.length, off, true⟩ len = len := by
      refine if_neg ?_
      rw [BitVec.lt_def, hsize, hsum]
      omega
    rw [hcut, if_neg (by omega)]
    congr 1
    refine List.ext_getElem (by simp; omega) fun j hj hj' => ?_
    rw [List.getElem_map, List.getElem_range, List.getElem_take, List.getElem_drop, Nat.add_assoc]
    exact h.bytes _ _ (List.getElem?_eq_getElem _)

/-- A read of a short piece delivers, wherever it starts. -/
theorem StoredFile.delivers {off len : Word} (h : StoredFile disk path p file) (hlen : len.toNat < 2 ^ 32) :
    Filesystem.delivered disk.image (openedFile p (BitVec.ofNat 64 file.length)) off len ≠
      none := by
  have hsize := h.toNat_size
  have hshort := h.short
  unfold Filesystem.delivered
  dsimp only [openedFile]
  split
  · exact Option.some_ne_none _
  · rename_i hpos
    rw [BitVec.le_def, hsize] at hpos
    rw [if_neg ?_]
    · exact Option.some_ne_none _
    · unfold cutLen
      dsimp only
      split
      · rw [BitVec.toNat_sub, hsize]
        omega
      · omega

/-! ### The program in a file -/

theorem littleEndian_congr {buf buf' : Nat → Byte} : ∀ {n off : Nat},
    (∀ j, off ≤ j → j < off + n → buf j = buf' j) → littleEndian buf off n = littleEndian buf' off n
  | 0, _, _ => rfl
  | n + 1, off, h => by
      rw [littleEndian, littleEndian, h off (Nat.le_refl _) (by omega),
        littleEndian_congr fun j hlo hhi => h j (by omega) (by omega)]

/-- The fields the loader reads end with `p_memsz`. -/
theorem Phdr.ofBytes_congr {buf buf' : Nat → Byte} (h : ∀ j < 48, buf j = buf' j) :
    Phdr.ofBytes buf = Phdr.ofBytes buf' := by
  have hpart : ∀ {off n}, off + n ≤ 48 → littleEndian buf off n = littleEndian buf' off n :=
    fun hle => littleEndian_congr fun j _ hhi => h j (Nat.lt_of_lt_of_le hhi hle)
  unfold Phdr.ofBytes
  rw [hpart (by decide), hpart (by decide), hpart (by decide), hpart (by decide),
    hpart (by decide)]

/-- The ELF header that the bytes of a file begin with. -/
def fileEhdr (file : List Byte) : Ehdr := Ehdr.ofBytes fun i => file.getD i 0

/-- Program header number `i` of a file. -/
def filePhdr (file : List Byte) (i : Nat) : Phdr :=
  Phdr.ofBytes fun j => file.getD ((fileEhdr file).ePhoff.toNat + i * phdrSize + j) 0

/-- The program headers of a file. -/
def filePhdrs (file : List Byte) : List Phdr :=
  (List.range (fileEhdr file).ePhnum.toNat).map (filePhdr file)

theorem overwrite_take {stale : Nat → Byte} {off n j : Nat} (hfit : off + n ≤ file.length)
    (hj : j < n) : overwrite stale ((file.drop off).take n) j = file.getD (off + j) 0 := by
  have hlen : j < ((file.drop off).take n).length := by
    rw [List.length_take, List.length_drop]
    omega
  rw [overwrite, List.getD_eq_getElem?_getD, List.getD_eq_getElem?_getD,
    List.getElem?_eq_getElem hlen, List.getElem_take, List.getElem_drop,
    List.getElem?_eq_getElem (by omega)]
  rfl

/-- What the loader reads of the header does not depend on what was on the stack. -/
theorem StoredFile.header (h : StoredFile disk path p file) (stale : Stale)
    (hheader : 64 ≤ file.length) :
    ((fileHeader stale disk.image (openedFile p (BitVec.ofNat 64 file.length))).Supported ↔
        (fileEhdr file).Supported) ∧
      (fileHeader stale disk.image (openedFile p (BitVec.ofNat 64 file.length))).ePhoff =
        (fileEhdr file).ePhoff ∧
      (fileHeader stale disk.image (openedFile p (BitVec.ofNat 64 file.length))).ePhnum =
        (fileEhdr file).ePhnum := by
  have hread := h.delivered 0#64 ehdrSize (show 0 + 64 ≤ file.length by omega)
  rw [fileHeader, hread]
  have hbyte : ∀ j < 64, overwrite stale.ehdr ((file.drop 0).take 64) j = file.getD j 0 := by
    intro j hj
    rw [overwrite_take (by omega) hj, Nat.zero_add]
  have hpart : ∀ {off n}, off + n ≤ 64 →
      littleEndian (overwrite stale.ehdr ((file.drop 0).take 64)) off n =
        littleEndian (fun i => file.getD i 0) off n :=
    fun hle => littleEndian_congr fun j _ hhi => hbyte j (Nat.lt_of_lt_of_le hhi hle)
  have hmachine : (Ehdr.ofBytes (overwrite stale.ehdr ((file.drop 0).take 64))).eMachine =
      (fileEhdr file).eMachine := congrArg (BitVec.ofNat 16) (hpart (by decide))
  refine ⟨?_, congrArg (BitVec.ofNat 64) (hpart (by decide)),
    congrArg (BitVec.ofNat 16) (hpart (by decide))⟩
  show Ehdr.Supported (Ehdr.ofBytes (overwrite stale.ehdr ((file.drop 0).take 64))) ↔ _
  unfold Ehdr.Supported
  rw [hmachine]
  show (overwrite stale.ehdr _ 0 = _ ∧ overwrite stale.ehdr _ 1 = _ ∧ overwrite stale.ehdr _ 2 = _ ∧
    overwrite stale.ehdr _ 3 = _ ∧ overwrite stale.ehdr _ 4 = _ ∧ _) ↔ _
  rw [hbyte 0 (by decide), hbyte 1 (by decide), hbyte 2 (by decide), hbyte 3 (by decide),
    hbyte 4 (by decide)]
  rfl

/-- The program headers of a file whose headers lie within it. -/
theorem StoredFile.phdrs (h : StoredFile disk path p file) (stale : Stale)
    (hheader : 64 ≤ file.length)
    (hfit : (fileEhdr file).ePhoff.toNat + (fileEhdr file).ePhnum.toNat * phdrSize ≤ file.length) :
    (fileProgram stale disk.image (openedFile p (BitVec.ofNat 64 file.length))).phdrs =
      filePhdrs file := by
  obtain ⟨-, hphoff, hphnum⟩ := h.header stale hheader
  have hshort := h.short
  show (List.range _).map (Filesystem.header stale disk.image _ _) = _
  rw [hphnum]
  refine List.map_congr_left fun i hi => ?_
  have hlt := List.mem_range.1 hi
  rw [show phdrSize = 56 from rfl] at hfit
  rw [Filesystem.header, hphoff]
  have hoff : ((fileEhdr file).ePhoff + BitVec.ofNat 64 (i * phdrSize)).toNat =
      (fileEhdr file).ePhoff.toNat + i * phdrSize := by
    rw [BitVec.toNat_add, BitVec.toNat_ofNat, show phdrSize = 56 from rfl]
    omega
  have hlen : (BitVec.ofNat 64 phdrSize).toNat = phdrSize := by decide
  have hwithin : (fileEhdr file).ePhoff.toNat + i * phdrSize + phdrSize ≤ file.length := by
    rw [show phdrSize = 56 from rfl]
    omega
  rw [h.delivered _ _ (by rw [hoff, hlen]; exact hwithin), hoff, hlen, Option.getD_some]
  exact Phdr.ofBytes_congr fun j hj => overwrite_take hwithin (Nat.lt_trans hj (by decide))

end Reads

/-! ### The constructor -/

section Constructor

variable {fuel : Nat} {stale : Stale} {fns : Trampolines} {useLinuxAbi : BitVec 32} {k k' : Kernel}
  {slot : Nat} {fd : Int}

/-- `process_alloc` looks at the heap and the next PID alone. -/
theorem processAlloc_heap {new : Option NewProcess} (h : processAlloc fuel k = .ok (k', new))
    (vmm : Vmm) (d : Ramdisk) :
    processAlloc fuel { k with vmm := vmm, disk := d } =
      .ok ({ k' with vmm := vmm, disk := d }, new) := by
  unfold processAlloc at h ⊢
  obtain ⟨⟨heap, proc⟩, hcalloc, h⟩ := bind_ok h
  show (orEndless (kcalloc fuel k.heap 1#64 processSize) >>= _) = _
  rw [hcalloc]
  show (if proc = 0#64 then _ else _) = _
  dsimp only at h
  split at h
  · rename_i hnull
    rw [if_pos hnull]
    cases h
    rfl
  · rename_i hnull
    rw [if_neg hnull]
    obtain ⟨⟨heap', kstack⟩, hkmalloc, h⟩ := bind_ok h
    show (orEndless (kmalloc fuel heap kernelStackSize) >>= _) = _
    rw [hkmalloc]
    show (if kstack = 0#64 then _ else _) = _
    dsimp only at h
    split at h
    · rename_i hnull'
      rw [if_pos hnull']
      obtain ⟨heap'', hkfree, h⟩ := bind_ok h
      show (orEndless (kfree fuel heap' proc) >>= _) = _
      rw [hkfree]
      cases h
      rfl
    · rename_i hnull'
      rw [if_neg hnull']
      cases h
      rfl

theorem processAlloc_disk {new : Option NewProcess} (h : processAlloc fuel k = .ok (k', new))
    (d : Ramdisk) :
    processAlloc fuel { k with disk := d } = .ok ({ k' with disk := d }, new) := by
  obtain ⟨hvmm, -⟩ := processAlloc_frame h
  have hsame := processAlloc_heap h k.vmm d
  rw [← hvmm] at hsame
  rw [← hsame, hvmm]

/-- Behind `process_alloc` the constructor comes back with a process if the address space does. -/
theorem loadElf_ok {ehdr : Ehdr} {p : NewProcess} {r : ElfReturn} {proc : Process}
    (hopen : openSlot k.disk fd = some slot)
    (hheaders : ∀ off, delivered k.disk.image (k.disk.fds slot) off (BitVec.ofNat 64 phdrSize) ≠
      none)
    (hcontents : ∀ phdr ∈ (elfFile stale k.disk.image (k.disk.fds slot) ehdr).phdrs,
      phdr.loadable = true →
      delivered k.disk.image (k.disk.fds slot) phdr.pOffset phdr.pFilesz ≠ none)
    (hspace : createElfAddressSpace k.vmm (elfFile stale k.disk.image (k.disk.fds slot) ehdr) =
      .ok r) (hproc : r.proc = some proc) :
    ∃ k' new, loadElf fuel stale fns ehdr fd useLinuxAbi k p = .ok (k', some new) := by
  unfold createElfAddressSpace at hspace
  unfold loadElf
  dsimp only at hspace ⊢
  split at hspace
  · cases hspace
    cases hproc
  · rename_i hnull
    rw [if_neg hnull]
    obtain ⟨stack, hstack, hspace⟩ := bind_ok hspace
    rw [hstack]
    show ∃ k' new, (if stack.complete = true then _ else _) = _
    split at hspace
    · rename_i hcomplete
      rw [if_pos hcomplete]
      obtain ⟨load, hload, hspace⟩ := bind_ok hspace
      rw [elfFile_phdrs] at hload hcontents
      obtain ⟨st, hst⟩ := elfLoop_ok _ 0
        { vmm := stack.vmm, disk := k.disk, lastVend := 0#64, ok := true } load hopen hheaders
        hcontents hload
      obtain ⟨load', hload', -, hok, -⟩ := elfLoop_segments _ _
        { vmm := stack.vmm, disk := k.disk, lastVend := 0#64, ok := true } st hopen rfl hst
      have hsame : load' = load := by
        have hboth := hload'.symm.trans hload
        cases hboth
        rfl
      rw [hst]
      show ∃ k' new, (if st.ok = true then _ else _) = _
      split at hspace
      · rename_i hloaded
        rw [← hok, hsame, if_pos hloaded]
        exact ⟨_, _, rfl⟩
      · cases hspace
        cases hproc
    · cases hspace
      cases hproc

/-- `process_create_elf` comes back with a process if the file is there, its header is supported, the
    reads deliver, the kernel heap has room and the address space can be built. -/
theorem processCreateElf_ok {path : List Byte} {p : Nat} {size : Word} {new : NewProcess}
    {r : ElfReturn} {proc : Process}
    (hfind : findFile k.disk.image k.disk.length path (k.disk.length / 512 + 1) 0 = some (p, size))
    (hslot : freeSlot k.disk.fds = some slot)
    (hheader : delivered k.disk.image (openedFile p size) 0#64 ehdrSize ≠ none)
    (hsupported : (fileHeader stale k.disk.image (openedFile p size)).Supported)
    (halloc : processAlloc fuel k = .ok (k', some new))
    (hheaders : ∀ off, delivered k.disk.image (openedFile p size) off (BitVec.ofNat 64 phdrSize) ≠
      none)
    (hcontents : ∀ phdr ∈ (fileProgram stale k.disk.image (openedFile p size)).phdrs,
      phdr.loadable = true →
      delivered k.disk.image (openedFile p size) phdr.pOffset phdr.pFilesz ≠ none)
    (hspace : createElfAddressSpace k.vmm (fileProgram stale k.disk.image (openedFile p size)) =
      .ok r) (hproc : r.proc = some proc) :
    ∃ k'' new', processCreateElf fuel stale fns k path useLinuxAbi = .ok (k'', some new') ∧
      k''.vmm = r.vmm ∧ spaceOf new'.proc = spaceOf proc := by
  obtain ⟨hlt, -⟩ := freeSlot_some hslot
  obtain ⟨k'', new', hok⟩ : ∃ k'' new',
      processCreateElf fuel stale fns k path useLinuxAbi = .ok (k'', some new') := by
    unfold processCreateElf ramdiskOpen
    rw [hfind, hslot]
    show ∃ k'' new', (if (slot : Int) + 3 < 0 then _ else _) = _
    rw [if_neg (by omega)]
    obtain ⟨bytes, hbytes⟩ := Option.ne_none_iff_exists'.1 hheader
    have hread := seekRead_eq (@openSlot_opened _ k.disk p size hlt) 0#64 ehdrSize
    rw [Ramdisk.setEntry_fds_self] at hread
    have hbytes' : delivered (k.disk.setEntry slot (openedFile p size)).image (openedFile p size)
        0#64 ehdrSize = some bytes := hbytes
    rw [hbytes'] at hread
    obtain ⟨read, hread, hsame, hfile⟩ := hread
    rw [seekRead_opened hlt] at hread
    show ∃ k'' new', (orEndless (ramdiskRead (k.disk.setEntry slot (openedFile p size))
      ((slot : Int) + 3) ehdrSize) >>= _) = _
    rw [hread]
    have hhdr : Ehdr.ofBytes (overwrite stale.ehdr read.bytes) =
        fileHeader stale k.disk.image (openedFile p size) := by
      rw [fileHeader, hbytes, hsame]
      rfl
    show ∃ k'' new', (if (Ehdr.ofBytes (overwrite stale.ehdr read.bytes)).Supported then _ else _) = _
    rw [hhdr, if_pos hsupported, processAlloc_disk halloc read.disk]
    show ∃ k'' new', loadElf fuel stale fns _ _ useLinuxAbi { k' with disk := read.disk } new = _
    obtain ⟨hvmm, -⟩ := processAlloc_frame halloc
    have hdelivered : ∀ off len, delivered read.disk.image (read.disk.fds slot) off len =
        delivered k.disk.image (openedFile p size) off len := by
      intro off len
      rw [hfile.delivered, Ramdisk.setEntry_fds_self]
      rfl
    have hprogram : elfFile stale read.disk.image (read.disk.fds slot)
        (fileHeader stale k.disk.image (openedFile p size)) =
          fileProgram stale k.disk.image (openedFile p size) := by
      obtain ⟨pos, hpos⟩ := hfile
      rw [hpos, Ramdisk.setEntry_fds_self, Ramdisk.setEntry_fds_self]
      rfl
    refine loadElf_ok (hfile.openSlot (openSlot_opened hlt))
      (fun off => ?_) (fun phdr hphdr hload => ?_) ?_ hproc
    · rw [hdelivered]
      exact hheaders off
    · rw [hdelivered]
      rw [hprogram] at hphdr
      exact hcontents phdr hphdr hload
    · rw [hprogram]
      dsimp only
      rw [hvmm]
      exact hspace
  refine ⟨k'', new', hok, ?_⟩
  obtain ⟨-, ⟨-, hnone⟩ | ⟨p', size', r', hfind', hspace', hvmm, hnew⟩⟩ := processCreateElf_cases hok
  · cases hnone
  · rw [hfind] at hfind'
    cases hfind'
    rw [hspace] at hspace'
    cases hspace'
    rw [hproc] at hnew
    exact ⟨hvmm, Option.some.inj hnew⟩

end Constructor

end CustomKernel.Filesystem

namespace CustomKernel

open Memory Filesystem Syscall Loops StepSystem

/-! ### A system with one program -/

/-- The bytes of an ELF header for x86-64 with its program headers right behind it. -/
def elfHeader (phnum : Byte) : List Byte :=
  [0x7F, 0x45, 0x4C, 0x46, 2] ++ List.replicate 13 0 ++ [0x3E, 0] ++ List.replicate 12 0 ++
    [64] ++ List.replicate 23 0 ++ [phnum, 0] ++ List.replicate 6 0

/-- A kernel before its first process, with one file in its archive, under the path `a`. -/
def fileKernel (vmm : Vmm) (file : List Byte) (hlt : file.length < 8 ^ 11) : Kernel :=
  { firstKernel vmm with
    disk := archiveDisk
      (archive [⟨[97], 48, file, fun _ => 0, by decide, by decide, by decide, hlt⟩] 2)
      (fun _ => 0) fun _ => {} }

theorem fileKernel_stored (vmm : Vmm) (file : List Byte) (hlt : file.length < 8 ^ 11) :
    StoredFile (fileKernel vmm file hlt).disk [97] 0 file :=
  StoredFile.archive [] _ [] 2 _ _ (by decide) (fun _ h => nomatch h) ⟨.inl rfl, rfl⟩

/-- The constructor of the first process of such a kernel. -/
theorem createElf_first {image : BootImage} {fns : Trampolines} {stale : Stale} {vmm : Vmm}
    {file : List Byte} {r : ElfReturn} {proc : Process} (hlt : file.length < 8 ^ 11)
    (hcr3 : vmm.cr3 = image.pml4Table) (hheader : 64 ≤ file.length)
    (hsupported : (fileEhdr file).Supported)
    (hphdrs : (fileEhdr file).ePhoff.toNat + (fileEhdr file).ePhnum.toNat * phdrSize ≤ file.length)
    (hcontents : ∀ phdr ∈ filePhdrs file, phdr.loadable = true →
      phdr.pOffset.toNat + phdr.pFilesz.toNat ≤ file.length)
    (hspace : createElfAddressSpace vmm
      (fileProgram stale (fileKernel vmm file hlt).disk.image
        (openedFile 0 (BitVec.ofNat 64 file.length))) = .ok r) (hproc : r.proc = some proc) :
    ∃ (k : Kernel) (new : NewProcess),
      SystemStep image fns { kernel := fileKernel vmm file hlt, users := [] }
        (.createElf [97] 0#32) { kernel := k, users := [new.proc] } ∧
      k.vmm = r.vmm ∧ spaceOf new.proc = spaceOf proc := by
  have hstored := fileKernel_stored vmm file hlt
  have hstart : System.constructing image { kernel := fileKernel vmm file hlt, users := [] } =
      fileKernel vmm file hlt := by
    rw [System.constructing, ← hcr3]
    rfl
  obtain ⟨k', p, halloc⟩ := processAlloc_first (fileKernel vmm file hlt) rfl
  have hheads := hstored.phdrs stale hheader hphdrs
  obtain ⟨k, new, hok, hvmm, hnew⟩ := @processCreateElf_ok 4 stale fns 0#32
    (fileKernel vmm file hlt) k' 0 [97] 0 (BitVec.ofNat 64 file.length) p r proc hstored.found
    rfl (hstored.delivers (by decide)) ((hstored.header stale hheader).1.2 hsupported) halloc
    (fun _ => hstored.delivers (by decide))
    (fun phdr hphdr hload => by
      rw [hheads] at hphdr
      rw [hstored.delivered _ _ (hcontents phdr hphdr hload)]
      exact Option.some_ne_none _) hspace hproc
  refine ⟨k, new, ⟨4, stale, k, some new, ?_, rfl⟩, hvmm, hnew⟩
  rw [hstart]
  exact hok

/-- A kernel that boots and creates a process from a program without segments, which has its stack
    and nothing else above PML4 index 0. -/
theorem emptyProgram_system (ram : PhysMem) (fns : Trampolines) : ∃ vmm k proc,
    kernelBoot bootedImage ram = .ok vmm ∧
      SystemStep bootedImage fns
        { kernel := fileKernel vmm (elfHeader 0) (by decide), users := [] } (.createElf [97] 0#32)
        { kernel := k, users := [proc] } ∧
      proc.heapStart = userHeapBase ∧ proc.heapEnd = userHeapBase ∧
      50000 ≤ k.vmm.pmm.freeSet.card ∧
      ∀ v, 1 ≤ pml4Index v → (∀ k < userStackPages, walkPath v ≠ walkPath (userStackPage k)) →
        translate k.vmm.mem proc.pageTable v = none := by
  obtain ⟨vmm, s, u, boot, ⟨-, r, hr, hs⟩, hu, hstart, hend, hcard, hclean⟩ := emptyElf_process ram
  obtain ⟨tag, hbooted⟩ := @kernelBoot_spec privateOwner _ _ _ boot
  cases hproc : r.proc with
  | none =>
      rw [hproc] at hs
      subst hs
      cases hu
  | some proc =>
      rw [hproc] at hs
      subst hs
      obtain rfl : (⟨proc, r.frames⟩ : UserProcess) = u := by simpa using hu
      have hempty : ∀ elf : ElfFile, elf.phdrs = [] → createElfAddressSpace vmm elf = .ok r := by
        intro elf helf
        rw [← hr]
        unfold createElfAddressSpace
        rw [helf]
        rfl
      have hstored := fileKernel_stored vmm (elfHeader 0) (by decide)
      have hnone : filePhdrs (elfHeader 0) = [] := by decide
      obtain ⟨k, new, hstep, hvmm, hnew⟩ := @createElf_first bootedImage fns ⟨fun _ => 0, fun _ _ => 0⟩
        vmm (elfHeader 0) r proc (by decide) hbooted.cr3 (by decide) (by decide) (by decide)
        (by rw [hnone]; exact fun _ h => absurd h List.not_mem_nil)
        (hempty _ (by rw [hstored.phdrs _ (by decide) (by decide), hnone])) hproc
      have htable : new.proc.pageTable = proc.pageTable := congrArg Prod.fst hnew
      refine ⟨vmm, k, new.proc, boot, hstep, ?_, ?_, hvmm ▸ hcard, ?_⟩
      · exact (congrArg (fun x => x.2.1) hnew).trans hstart
      · exact (congrArg (fun x => x.2.2) hnew).trans hend
      · rw [htable, hvmm]
        exact hclean

/-- The first process of a system, with an empty program. -/
theorem firstProgram (fns : Trampolines) : ∃ (k : Kernel) (fuel : Nat) (stale : Stale) (k₁ : Kernel)
    (p : NewProcess) (tag : Word → Option Label),
    kernelBoot bootedImage (fun _ _ => 0#64) = .ok k.vmm ∧
      processCreateElf fuel stale fns (System.constructing bootedImage { kernel := k, users := [] })
        [97] 0#32 = .ok (k₁, some p) ∧
      TreeInv bootedImage tag k₁.vmm ∧ UserRoot bootedImage tag p.proc.pageTable ∧
      p.proc.heapStart = userHeapBase ∧ p.proc.heapEnd = userHeapBase ∧
      50000 ≤ k₁.vmm.pmm.freeSet.card := by
  obtain ⟨vmm, k, proc, boot, hstep, hstart, hend, hcard, -⟩ :=
    emptyProgram_system (fun _ _ => 0#64) fns
  obtain ⟨tag, inv⟩ := SystemInv.of_run (k := fileKernel vmm (elfHeader 0) (by decide)) boot
    (.single hstep)
  obtain ⟨fuel, stale, k₁, new, hok, hadd⟩ := hstep
  injection hadd with hk husers
  cases new with
  | none => cases husers
  | some p =>
      obtain rfl : proc = p.proc := (List.cons.inj husers).1
      subst hk
      exact ⟨fileKernel vmm (elfHeader 0) (by decide), fuel, stale, k, p, tag, boot, hok,
        inv.toTreeInv, inv.users _ (List.mem_singleton.2 rfl), hstart, hend, hcard⟩

/-! ### A page of heap -/

section OnePage

variable {s : Vmm} {proc : Process} {out : FreshPages}

/-- An `sbrk` from an empty heap to one page. -/
theorem sysSbrk_first_page (hstart : proc.heapStart = userHeapBase)
    (hend : proc.heapEnd = userHeapBase)
    (hmap : mapFreshPages proc.pageTable (sbrkPage userHeapBase) userPage 1 0 s = .ok out)
    (hcomplete : out.complete = true) :
    sysSbrk s proc 4096#64 = .ok
      { vmm := out.vmm, proc := { proc with heapEnd := userHeapBase + 4096#64 }
        result := userHeapBase, frames := out.frames } := by
  have hpages : sbrkPages userHeapBase userHeapBase = 0 ∧
      sbrkPages userHeapBase (userHeapBase + 4096#64) = 1 := by decide
  unfold sysSbrk
  rw [hstart, hend, if_neg (by decide), if_neg (by decide)]
  simp only [hpages.1, hpages.2, Nat.sub_zero, hmap]
  show (if out.complete = true then _ else _) = _
  rw [if_pos hcomplete]
  rfl

/-- The loop over one page. -/
theorem mapFreshPages_one {pml4 flags : Word} {virt : Nat → Word} (hpos : 0 ∉ s.pmm.freeSet)
    (hok : mapFreshPages pml4 virt flags 1 0 s = .ok out) (hcomplete : out.complete = true) :
    ∃ n ∈ s.pmm.freeSet, vmmMapIn { s with pmm := reserveFrame n s.pmm } pml4 (virt 0) (frameAddr n)
      flags = .ok out.vmm := by
  unfold mapFreshPages at hok
  rcases pmmAlloc_spec s.pmm with ⟨hnull, -⟩ | ⟨n, hn, -, halloc⟩
  · simp only [hnull, if_true] at hok
    cases hok
    cases hcomplete
  · have hne : n * pageSize ≠ 0 :=
      Nat.mul_ne_zero (fun hzero => hpos (hzero ▸ hn)) (by decide)
    simp only [halloc, hne, if_false, frameAddr_eq_pointer] at hok
    obtain ⟨s₁, hmap, hok⟩ := bind_ok hok
    cases hok
    exact ⟨n, hn, hmap⟩

/-- A page of heap is mapped if there are frames for it and its tables. -/
theorem TreeInv.heap_page {image : BootImage} {tag : Word → Option Label} {pml4 : Word}
    (h : TreeInv image tag s) (hroot : UserRoot image tag pml4) (hcard : 4 ≤ s.pmm.freeSet.card) :
    ∃ out n tag', mapFreshPages pml4 (sbrkPage userHeapBase) userPage 1 0 s = .ok out ∧
      out.complete = true ∧ n ∈ s.pmm.freeSet ∧ TreeInv image tag' out.vmm ∧
      FreshMapped pml4 userHeapBase userPage n tag s tag' out.vmm ∧
      s.pmm.freeSet.card ≤ out.vmm.pmm.freeSet.card + 4 := by
  have hfirst : sbrkPage userHeapBase 0 = userHeapBase := by decide
  obtain ⟨out, hmap, hcomplete, hleft⟩ := @mapFreshPages_ok privateOwner pml4 userPage
    (sbrkPage userHeapBase) 1 0 tag s h.tree.tagged hroot.1 hcard
    (fun j _ hj => by
      obtain rfl : j = 0 := by omega
      decide)
  obtain ⟨n, hn, hpage⟩ := mapFreshPages_one h.tree.zero_notMem hmap hcomplete
  rw [hfirst] at hpage
  obtain ⟨tag', htree, m⟩ := h.tree.map_fresh hroot.1 hn userPage_flags hpage
  have hkernel := @extends_update _ _ (slot privateOwner pml4 userHeapBase 0)
    (h.tree.tagged.free_unlabelled hn) _ _ h.tree.kernel
  refine ⟨out, n, tag', hmap, hcomplete, hn, ⟨htree, ?_, ?_⟩, m, hleft⟩
  · exact @KernelClean.mapped _ _ _ { s with pmm := reserveFrame n s.pmm } _ _ _ _ h.clean hkernel
      hroot.2 m.mapped
  · exact h.allocs.trans (mapFreshPages_allocs _ _ _ _ hmap)

/-- The call for the first page of heap of the only process. -/
theorem SystemStep.first_page {image : BootImage} (fns : Trampolines) {tag : Word → Option Label}
    (k : Kernel) (proc : Process) (h : TreeInv image tag k.vmm)
    (hroot : UserRoot image tag proc.pageTable) (hcard : 4 ≤ k.vmm.pmm.freeSet.card)
    (hstart : proc.heapStart = userHeapBase) (hend : proc.heapEnd = userHeapBase) :
    ∃ vmm n tag', SystemStep image fns { kernel := k, users := [proc] } (.user 0 (.sbrk 4096#64))
        { kernel := { k with vmm := vmm }
          users := [{ proc with heapEnd := userHeapBase + 4096#64 }] } ∧
      n ∈ k.vmm.pmm.freeSet ∧ TreeInv image tag' vmm ∧
      FreshMapped proc.pageTable userHeapBase userPage n tag
        (vmmSwitchAddressSpace k.vmm proc.pageTable) tag' vmm ∧
      k.vmm.pmm.freeSet.card ≤ vmm.pmm.freeSet.card + 4 := by
  obtain ⟨out, n, tag', hmap, hcomplete, hn, htree, m, hleft⟩ :=
    (h.switch proc.pageTable).heap_page hroot hcard
  have hcall := sysSbrk_first_page hstart hend hmap hcomplete
  exact ⟨out.vmm, n, tag', ⟨proc, _, rfl, hcall, rfl⟩, hn, htree, m, hleft⟩

end OnePage

end CustomKernel
