/-
Module: CustomKernel.Proofs.TruncatedFiles
Layer: Proofs
Purpose: When the loader depends on the file alone. `process_create_elf` does not look at how much
  `ramdisk_read` delivers, so the headers of a file that is too short keep what the stack held. The
  bytes that are there decide the outcome exactly if they refuse the file, or settle every program
  header it may have.
Imports: CustomKernel.Proofs.LoadedPrograms, CustomKernel.Proofs.FileAccess
Trusted boundary: as in SystemRuns: the kernel heap, the descriptors and the archive are beside
  physical memory
Main exports: fileByte, Refused, Skipped, Present, FileDecides, elf_outcome_decided
-/
import CustomKernel.Proofs.LoadedPrograms
import CustomKernel.Proofs.FileAccess

namespace CustomKernel.Filesystem

open CustomKernel.Memory CustomKernel.Syscall Loops

/-! ### The bytes a read delivers -/

/-- Byte `j` behind a seek to `off`, if the file has it. -/
def fileByte (image : Nat → Byte) (f : FdEntry) (off : Word) (j : Nat) : Option Byte :=
  if (clampPos f off).toNat + j < f.size.toNat then
    some (image (f.data + (clampPos f off).toNat + j))
  else none

section Bytes

variable {image : Nat → Byte} {f : FdEntry} {off len : Word}

/-- A read of a header delivers. -/
theorem delivered_eq (hsize : f.size.toNat < 8 ^ 11) (hlen : len.toNat < 2 ^ 32) :
    delivered image f off len = some ((List.range
      (available { f with pos := clampPos f off } len)).map fun j =>
        image (f.data + (clampPos f off).toNat + j)) := by
  have hinside : clampPos f off ≤ f.size := clampPos_le f off
  have hle := BitVec.le_def.1 hinside
  have hsum : (clampPos f off).toNat + len.toNat < 2 ^ 64 := by omega
  have hcut := @toNat_cutLen { f with pos := clampPos f off } len hinside hsum
  have havail := @available_inside { f with pos := clampPos f off } hinside len
  dsimp only at havail
  unfold delivered
  dsimp only
  split
  · rename_i hend
    have hnone : available { f with pos := clampPos f off } len = 0 :=
      available_end (BitVec.le_antisymm hinside hend) len
    rw [hnone, List.range_zero, List.map_nil]
  · rw [if_neg (by omega), hcut]

/-- A header buffer behind the read: the bytes of the file as far as they go, then the old ones. -/
theorem overwrite_delivered (hsize : f.size.toNat < 8 ^ 11) (hlen : len.toNat < 2 ^ 32)
    (buf : Nat → Byte) {j : Nat} (hj : j < len.toNat) :
    overwrite buf ((delivered image f off len).getD []) j =
      (fileByte image f off j).getD (buf j) := by
  have hle := BitVec.le_def.1 (clampPos_le f off)
  rw [delivered_eq hsize hlen, Option.getD_some, overwrite, List.getD_eq_getElem?_getD,
    List.getElem?_map]
  unfold fileByte available
  dsimp only
  split
  · rw [List.getElem?_range (by omega)]
    rfl
  · rw [List.getElem?_eq_none (by rw [List.length_range]; omega)]
    rfl

end Bytes

/-! ### What the bytes of a file decide -/

section Decides

variable (image : Nat → Byte) (f : FdEntry)

/-- The bytes of the header that are checked: the magic number, `ELFCLASS64` and `EM_X86_64`. -/
def identification : List (Nat × Byte) :=
  [(0, 0x7F), (1, 0x45), (2, 0x4C), (3, 0x46), (4, 2), (18, 0x3E), (19, 0)]

/-- One of them is there, and is wrong. -/
def Refused : Prop :=
  ∃ e ∈ identification, ∃ b, fileByte image f 0#64 e.1 = some b ∧ b ≠ e.2

/-- `e_phoff`, where the file has it. -/
def filePhoff : Word := BitVec.ofNat 64 (littleEndian (fun j => image (f.data + j)) 32 8)

/-- The largest `e_phnum` with the bytes that are there. -/
def maxPhnum : Nat := littleEndian (fun j => (fileByte image f 0#64 j).getD 0xFF) 56 2

/-- Byte `j` of program header number `i`. -/
def phdrByte (i j : Nat) : Option Byte :=
  fileByte image f (filePhoff image f + BitVec.ofNat 64 (i * phdrSize)) j

/-- Byte `j` of `PT_LOAD`. -/
def ptLoadByte (j : Nat) : Byte := if j = 0 then 1 else 0

/-- The bytes that are there make the loader skip the program header: the type is another one, or
    nothing is to be loaded. -/
def Skipped (i : Nat) : Prop :=
  (∃ j < 4, ∃ b, phdrByte image f i j = some b ∧ b ≠ ptLoadByte j) ∨
    ∀ j < 8, phdrByte image f i (40 + j) = some 0

/-- All that the loader reads of the program header is there. -/
def Present (i : Nat) : Prop := ∃ b, phdrByte image f i 47 = some b

/-- The bytes of the file leave nothing open: they refuse it, or they have `e_entry` and `e_phoff`
    and every program header there may be is skipped, or is there, with their number. -/
def FileDecides : Prop :=
  Refused image f ∨
    (40 ≤ f.size.toNat ∧ ∀ i < maxPhnum image f,
      Skipped image f i ∨ (58 ≤ f.size.toNat ∧ Present image f i))

end Decides

/-! ### The ELF header -/

section Header

variable {image : Nat → Byte} {f : FdEntry}

/-- What the loader reads of the header. -/
structure Ehdr.Same (ehdr ehdr' : Ehdr) : Prop where
  supported : ehdr.Supported ↔ ehdr'.Supported
  entry : ehdr.eEntry = ehdr'.eEntry
  phoff : ehdr.ePhoff = ehdr'.ePhoff

theorem Ehdr.supported_iff (buf : Nat → Byte) :
    (Ehdr.ofBytes buf).Supported ↔ ∀ e ∈ identification, buf e.1 = e.2 := by
  have hmachine : (Ehdr.ofBytes buf).eMachine = 0x3E ↔ buf 18 = 0x3E ∧ buf 19 = 0 := by
    show BitVec.ofNat 16 ((buf 18).toNat + 256 * ((buf 19).toNat + 256 * 0)) = 0x3E ↔ _
    have h₁ := (buf 18).isLt
    have h₂ := (buf 19).isLt
    rw [← BitVec.toNat_inj, ← BitVec.toNat_inj, ← BitVec.toNat_inj, BitVec.toNat_ofNat,
      show BitVec.toNat (0x3E : BitVec 16) = 0x3E from rfl,
      show BitVec.toNat (0x3E : Byte) = 0x3E from rfl, show BitVec.toNat (0 : Byte) = 0 from rfl]
    omega
  unfold Ehdr.Supported
  rw [hmachine]
  simp [identification, Ehdr.ofBytes]

theorem fileByte_zero (j : Nat) :
    fileByte image f 0#64 j = if j < f.size.toNat then some (image (f.data + j)) else none := by
  unfold fileByte
  rw [clampPos_zero, BitVec.toNat_ofNat, Nat.zero_mod, Nat.zero_add, Nat.add_zero]

/-- The header buffer. -/
def headerBuffer (stale : Stale) (image : Nat → Byte) (f : FdEntry) (j : Nat) : Byte :=
  (fileByte image f 0#64 j).getD (stale.ehdr j)

/-- A number in the header. -/
theorem header_littleEndian (hsize : f.size.toNat < 8 ^ 11) (stale : Stale) {off n : Nat}
    (h : off + n ≤ 64) :
    littleEndian (overwrite stale.ehdr ((delivered image f 0#64 ehdrSize).getD [])) off n =
      littleEndian (headerBuffer stale image f) off n :=
  littleEndian_congr fun _ _ hhi =>
    overwrite_delivered hsize (by decide) _ (Nat.lt_of_lt_of_le hhi h)

theorem fileHeader_supported (hsize : f.size.toNat < 8 ^ 11) (stale : Stale) :
    (fileHeader stale image f).Supported ↔
      ∀ e ∈ identification, headerBuffer stale image f e.1 = e.2 := by
  rw [fileHeader, Ehdr.supported_iff]
  refine forall₂_congr fun e he => ?_
  have hlt : e.1 < ehdrSize.toNat := by
    revert e
    decide
  rw [overwrite_delivered hsize (by decide) _ hlt]
  rfl

/-- A wrong byte settles the check. -/
theorem Refused.not_supported (hsize : f.size.toNat < 8 ^ 11) (h : Refused image f) (stale : Stale) :
    ¬ (fileHeader stale image f).Supported := by
  intro hsupported
  obtain ⟨e, he, b, hbyte, hne⟩ := h
  have heq := (fileHeader_supported hsize stale).1 hsupported e he
  rw [headerBuffer, hbyte] at heq
  exact hne heq

/-- With 40 bytes of the file the check, `e_entry` and `e_phoff` are settled. -/
theorem headerBuffer_of_lt (stale : Stale) {j : Nat} (hj : j < f.size.toNat) :
    headerBuffer stale image f j = image (f.data + j) := by
  rw [headerBuffer, fileByte_zero, if_pos hj]
  rfl

theorem header_settled (stale : Stale) {off n : Nat} (h : off + n ≤ f.size.toNat) :
    littleEndian (headerBuffer stale image f) off n =
      littleEndian (fun j => image (f.data + j)) off n :=
  littleEndian_congr fun _ _ hhi => headerBuffer_of_lt stale (Nat.lt_of_lt_of_le hhi h)

theorem fileHeader_phoff (hsize : f.size.toNat < 8 ^ 11) (hlong : 40 ≤ f.size.toNat)
    (stale : Stale) : (fileHeader stale image f).ePhoff = filePhoff image f :=
  congrArg (BitVec.ofNat 64)
    ((header_littleEndian hsize stale (by decide)).trans (header_settled stale hlong))

theorem fileHeader_same (hsize : f.size.toNat < 8 ^ 11) (hlong : 40 ≤ f.size.toNat)
    (stale stale' : Stale) :
    (fileHeader stale image f).Same (fileHeader stale' image f) := by
  have hentry : ∀ stale : Stale, (fileHeader stale image f).eEntry =
      BitVec.ofNat 64 (littleEndian (fun j => image (f.data + j)) 24 8) := fun stale =>
    congrArg (BitVec.ofNat 64) ((header_littleEndian hsize stale (by decide)).trans
      (header_settled stale (by omega)))
  refine ⟨?_, (hentry stale).trans (hentry stale').symm,
    (fileHeader_phoff hsize hlong stale).trans (fileHeader_phoff hsize hlong stale').symm⟩
  rw [fileHeader_supported hsize, fileHeader_supported hsize]
  refine forall₂_congr fun e he => ?_
  have hlt : e.1 < 40 := by
    revert e
    decide
  rw [headerBuffer_of_lt stale (by omega), headerBuffer_of_lt stale' (by omega)]

theorem littleEndian_two (buf : Nat → Byte) (off : Nat) :
    littleEndian buf off 2 = (buf off).toNat + 256 * (buf (off + 1)).toNat := by
  simp [littleEndian]

theorem fileHeader_phnum (hsize : f.size.toNat < 8 ^ 11) (stale : Stale) :
    (fileHeader stale image f).ePhnum.toNat = littleEndian (headerBuffer stale image f) 56 2 := by
  show (BitVec.ofNat 16 _).toNat = _
  rw [header_littleEndian hsize stale (by decide), BitVec.toNat_ofNat, littleEndian_two]
  have h₁ := (headerBuffer stale image f 56).isLt
  have h₂ := (headerBuffer stale image f (56 + 1)).isLt
  omega

/-- No header has more program headers. -/
theorem fileHeader_phnum_le (hsize : f.size.toNat < 8 ^ 11) (stale : Stale) :
    (fileHeader stale image f).ePhnum.toNat ≤ maxPhnum image f := by
  have hbyte : ∀ j, (headerBuffer stale image f j).toNat ≤
      ((fileByte image f 0#64 j).getD 0xFF).toNat := by
    intro j
    unfold headerBuffer
    cases fileByte image f 0#64 j with
    | some b => exact Nat.le_refl _
    | none => exact Nat.le_of_lt_succ (stale.ehdr j).isLt
  rw [fileHeader_phnum hsize, maxPhnum, littleEndian_two, littleEndian_two]
  have h₁ := hbyte 56
  have h₂ := hbyte (56 + 1)
  omega

/-- The number of program headers is settled with 58 bytes. -/
theorem fileHeader_phnum_eq (hsize : f.size.toNat < 8 ^ 11) (hlong : 58 ≤ f.size.toNat)
    (stale : Stale) : (fileHeader stale image f).ePhnum.toNat = maxPhnum image f := by
  rw [fileHeader_phnum hsize, maxPhnum]
  refine littleEndian_congr fun j _ hhi => ?_
  rw [headerBuffer, fileByte_zero, if_pos (by omega)]
  rfl

end Header

/-! ### The program headers -/

section ProgramHeaders

variable {image : Nat → Byte} {f : FdEntry} {i : Nat}

/-- The buffer of program header number `i`. -/
def phdrBuffer (stale : Stale) (image : Nat → Byte) (f : FdEntry) (i j : Nat) : Byte :=
  (phdrByte image f i j).getD (stale.phdr i j)

theorem header_eq (hsize : f.size.toNat < 8 ^ 11) (stale : Stale) {ehdr : Ehdr}
    (hphoff : ehdr.ePhoff = filePhoff image f) (i : Nat) :
    header stale image f ehdr i = Phdr.ofBytes (phdrBuffer stale image f i) := by
  rw [header, hphoff]
  exact Phdr.ofBytes_congr fun j hj =>
    overwrite_delivered hsize (by decide) _ (Nat.lt_trans hj (by decide))

theorem Phdr.pType_eq_iff (buf : Nat → Byte) :
    (Phdr.ofBytes buf).pType = ptLoad ↔ ∀ j < 4, buf j = ptLoadByte j := by
  have hvalue : (Phdr.ofBytes buf).pType.toNat = (buf 0).toNat + 256 * ((buf 1).toNat +
      256 * ((buf 2).toNat + 256 * (buf 3).toNat)) := by
    show (BitVec.ofNat 32 ((buf 0).toNat + 256 * ((buf 1).toNat +
      256 * ((buf 2).toNat + 256 * ((buf 3).toNat + 256 * 0))))).toNat = _
    rw [BitVec.toNat_ofNat]
    have h₀ := (buf 0).isLt
    have h₁ := (buf 1).isLt
    have h₂ := (buf 2).isLt
    have h₃ := (buf 3).isLt
    omega
  have hone : (1 : Byte).toNat = 1 := rfl
  have hzero : (0 : Byte).toNat = 0 := rfl
  rw [← BitVec.toNat_inj, hvalue, ptLoad, BitVec.toNat_ofNat]
  constructor
  · intro h j hj
    apply BitVec.eq_of_toNat_eq
    match j, hj with
    | 0, _ => show (buf 0).toNat = 1; omega
    | 1, _ => show (buf 1).toNat = 0; omega
    | 2, _ => show (buf 2).toNat = 0; omega
    | 3, _ => show (buf 3).toNat = 0; omega
  · intro h
    have h₀ : buf 0 = 1 := h 0 (by decide)
    have h₁ : buf 1 = 0 := h 1 (by decide)
    have h₂ : buf 2 = 0 := h 2 (by decide)
    have h₃ : buf 3 = 0 := h 3 (by decide)
    rw [h₀, h₁, h₂, h₃]
    rfl

theorem littleEndian_zero {buf : Nat → Byte} : ∀ {n off : Nat},
    (∀ j, off ≤ j → j < off + n → buf j = 0) → littleEndian buf off n = 0
  | 0, _, _ => rfl
  | n + 1, off, h => by
      rw [littleEndian, h off (Nat.le_refl _) (by omega),
        littleEndian_zero fun j hlo hhi => h j (by omega) (by omega)]
      rfl

/-- Whatever the stack held, the header is skipped. -/
theorem Skipped.not_loadable (h : Skipped image f i) (stale : Stale) :
    (Phdr.ofBytes (phdrBuffer stale image f i)).loadable = false := by
  rcases h with ⟨j, hj, b, hbyte, hne⟩ | hzero
  · have htype : (Phdr.ofBytes (phdrBuffer stale image f i)).pType ≠ ptLoad := by
      intro htype
      have heq := (Phdr.pType_eq_iff _).1 htype j hj
      rw [phdrBuffer, hbyte] at heq
      exact hne heq
    simp [Phdr.loadable, htype]
  · have hmemsz : (Phdr.ofBytes (phdrBuffer stale image f i)).pMemsz = 0#64 := by
      refine congrArg (BitVec.ofNat 64) (littleEndian_zero fun j hlo hhi => ?_)
      obtain ⟨d, rfl⟩ := Nat.exists_eq_add_of_le hlo
      rw [phdrBuffer, hzero d (by omega)]
      rfl
    simp [Phdr.loadable, hmemsz]

/-- The bytes in front of one that is there are there. -/
theorem Present.byte (h : Present image f i) {j : Nat} (hj : j < 48) :
    ∃ b, phdrByte image f i j = some b := by
  obtain ⟨b, hb⟩ := h
  unfold phdrByte fileByte at hb ⊢
  split at hb
  · rw [if_pos (by omega)]
    exact ⟨_, rfl⟩
  · cases hb

theorem Present.same (h : Present image f i) (stale stale' : Stale) :
    Phdr.ofBytes (phdrBuffer stale image f i) = Phdr.ofBytes (phdrBuffer stale' image f i) := by
  refine Phdr.ofBytes_congr fun j hj => ?_
  obtain ⟨b, hb⟩ := h.byte hj
  rw [phdrBuffer, phdrBuffer, hb]
  rfl

end ProgramHeaders

/-! ### The outcome -/

section Outcome

variable {stale stale' : Stale} {ehdr ehdr' : Ehdr} {fd : Int} {pageTable cr3 : Word} {slot : Nat}

/-- Two runs of the loop over as many program headers: each is the same in both, or is skipped in
    both. -/
theorem elfLoop_same (hphoff : ehdr.ePhoff = ehdr'.ePhoff) : ∀ (count i : Nat) (st : ElfLoop),
    openSlot st.disk fd = some slot →
    (∀ j, i ≤ j → j < i + count →
      header stale st.disk.image (st.disk.fds slot) ehdr j =
          header stale' st.disk.image (st.disk.fds slot) ehdr' j ∨
        ((header stale st.disk.image (st.disk.fds slot) ehdr j).loadable = false ∧
          (header stale' st.disk.image (st.disk.fds slot) ehdr' j).loadable = false)) →
    elfLoop stale ehdr fd pageTable cr3 count i st = elfLoop stale' ehdr' fd pageTable cr3 count i st
  | 0, i, st, _, _ => rfl
  | count + 1, i, st, hopen, h => by
      rw [elfLoop, elfLoop, ← hphoff]
      refine bind_congr_ok fun read hread => ?_
      obtain ⟨hbytes, hsame⟩ := seekRead_ok hopen hread
      -- the rest of the loop, on the same file
      have hrest : ∀ {d : Ramdisk} (vmm : Vmm) (last : Word) (ok : Bool),
          SameFile slot st.disk d →
          elfLoop stale ehdr fd pageTable cr3 count (i + 1) ⟨vmm, d, last, ok⟩ =
            elfLoop stale' ehdr' fd pageTable cr3 count (i + 1) ⟨vmm, d, last, ok⟩ := by
        intro d vmm last ok hd
        refine elfLoop_same hphoff count (i + 1) ⟨vmm, d, last, ok⟩ (hd.openSlot hopen)
          fun j hlo hhi => ?_
        have hj := h j (by omega) (by omega)
        rw [header, header, hd.delivered, hd.delivered]
        exact hj
      have hfirst := h i (Nat.le_refl _) (by omega)
      rw [header, header, ← hphoff, hbytes, Option.getD_some] at hfirst
      dsimp only
      rcases hfirst with heq | ⟨hskip, hskip'⟩
      · rw [heq]
        split
        · refine bind_congr fun pages => ?_
          split
          · refine bind_congr fun s₁ => bind_congr_ok fun contents hcontents => ?_
            obtain ⟨-, hsame'⟩ := seekRead_ok (hsame.openSlot hopen) hcontents
            exact bind_congr fun s₂ => hrest _ _ _ (hsame.trans hsame')
          · rfl
        · exact hrest _ _ _ hsame
      · rw [if_neg (Bool.eq_false_iff.1 hskip), if_neg (Bool.eq_false_iff.1 hskip')]
        exact hrest _ _ _ hsame

/-- A loop that skips every program header leaves the position in the file behind. -/
theorem elfLoop_skips : ∀ (count i : Nat) (st : ElfLoop), openSlot st.disk fd = some slot →
    (st.disk.fds slot).size.toNat < 8 ^ 11 →
    (∀ j, i ≤ j → j < i + count →
      (header stale st.disk.image (st.disk.fds slot) ehdr j).loadable = false) →
    ∃ d, elfLoop stale ehdr fd pageTable cr3 count i st = .ok { st with disk := d }
  | 0, i, st, _, _, _ => ⟨_, rfl⟩
  | count + 1, i, st, hopen, hsize, h => by
      have hread := seekRead_eq hopen (ehdr.ePhoff + BitVec.ofNat 64 (i * phdrSize))
        (BitVec.ofNat 64 phdrSize)
      have hfirst := h i (Nat.le_refl _) (by omega)
      rw [header] at hfirst
      rw [delivered_eq hsize (by decide)] at hread hfirst
      obtain ⟨read, hread, hbytes, hsame⟩ := hread
      rw [Option.getD_some, ← hbytes] at hfirst
      have hsize' : (read.disk.fds slot).size.toNat < 8 ^ 11 := by
        obtain ⟨pos, hpos⟩ := hsame
        rw [hpos, Ramdisk.setEntry_fds_self]
        exact hsize
      obtain ⟨d, hd⟩ := elfLoop_skips count (i + 1) { st with disk := read.disk }
        (hsame.openSlot hopen) hsize' fun j hlo hhi => by
          have hj := h j (by omega) (by omega)
          rw [header] at hj ⊢
          rw [hsame.delivered]
          exact hj
      refine ⟨d, ?_⟩
      rw [elfLoop, hread]
      show (if (Phdr.ofBytes (overwrite (stale.phdr i) read.bytes)).loadable = true then _ else _) = _
      rw [hfirst]
      exact hd

/-- What comes of a call, the table of open files aside: whether there is a process, its descriptor,
    the machine with its page tables and the kernel heap with the first stack frame. -/
def elfOutcome (r : Except Halt (Kernel × Option NewProcess)) :
    Except Halt (Vmm × KernelHeap × BitVec 32 × Option NewProcess) :=
  r.map fun x => (x.1.vmm, x.1.heap, x.1.nextPid, x.2)

/-- The loop, the table of open files aside. -/
def loopOutcome (r : Except Halt ElfLoop) : Except Halt (Vmm × Word × Bool) :=
  r.map fun st => (st.vmm, st.lastVend, st.ok)

theorem elfOutcome_bind {α : Type} (x : Except Halt α)
    {g g' : α → Except Halt (Kernel × Option NewProcess)}
    (h : ∀ a, x = .ok a → elfOutcome (g a) = elfOutcome (g' a)) :
    elfOutcome (x >>= g) = elfOutcome (x >>= g') := by
  cases x with
  | error e => rfl
  | ok a => exact h a rfl

theorem elfOutcome_loop {x x' : Except Halt ElfLoop}
    {g g' : ElfLoop → Except Halt (Kernel × Option NewProcess)} (hloop : loopOutcome x = loopOutcome x')
    (h : ∀ st disk, elfOutcome (g st) = elfOutcome (g' { st with disk := disk })) :
    elfOutcome (x >>= g) = elfOutcome (x' >>= g') := by
  cases x with
  | error e =>
      cases x' with
      | error e' =>
          cases hloop
          rfl
      | ok st' => cases hloop
  | ok st =>
      cases x' with
      | error e' => cases hloop
      | ok st' =>
          obtain ⟨vmm, disk, last, ok⟩ := st
          obtain ⟨vmm', disk', last', ok'⟩ := st'
          cases hloop
          exact h _ disk'

/-- Behind `process_alloc` the outcome depends on the loop and on `e_entry`. -/
theorem loadElf_outcome {fuel : Nat} {fns : Trampolines} {useLinuxAbi : BitVec 32} {k : Kernel}
    {p : NewProcess} (hentry : ehdr.eEntry = ehdr'.eEntry)
    (hloop : ∀ pageTable cr3 vmm,
      loopOutcome (elfLoop stale ehdr fd pageTable cr3 ehdr.ePhnum.toNat 0 ⟨vmm, k.disk, 0#64, true⟩) =
        loopOutcome (elfLoop stale' ehdr' fd pageTable cr3 ehdr'.ePhnum.toNat 0
          ⟨vmm, k.disk, 0#64, true⟩)) :
    elfOutcome (loadElf fuel stale fns ehdr fd useLinuxAbi k p) =
      elfOutcome (loadElf fuel stale' fns ehdr' fd useLinuxAbi k p) := by
  unfold loadElf
  dsimp only
  split
  · rfl
  · refine elfOutcome_bind _ fun stack _ => ?_
    split
    · refine elfOutcome_loop (hloop _ _ _) fun st disk => ?_
      rw [hentry]
      split
      · rfl
      · rfl
    · rfl

variable {image : Nat → Byte} {f : FdEntry}

/-- The loops of two calls on a file that is decided. -/
theorem elfLoop_decided (hsize : f.size.toNat < 8 ^ 11) (hlong : 40 ≤ f.size.toNat)
    (hall : ∀ i < maxPhnum image f,
      Skipped image f i ∨ (58 ≤ f.size.toNat ∧ Present image f i)) {d : Ramdisk} (pos : Word)
    (himage : d.image = image) (hfds : d.fds slot = { f with pos := pos })
    (hopen : openSlot d fd = some slot) (vmm : Vmm) :
    loopOutcome (elfLoop stale (fileHeader stale image f) fd pageTable cr3
        (fileHeader stale image f).ePhnum.toNat 0 ⟨vmm, d, 0#64, true⟩) =
      loopOutcome (elfLoop stale' (fileHeader stale' image f) fd pageTable cr3
        (fileHeader stale' image f).ePhnum.toNat 0 ⟨vmm, d, 0#64, true⟩) := by
  have hheader : ∀ stale i, header stale d.image (d.fds slot) (fileHeader stale image f) i =
      Phdr.ofBytes (phdrBuffer stale image f i) := by
    intro stale i
    rw [himage, hfds, ← header_eq hsize stale (fileHeader_phoff hsize hlong stale), header, header,
      delivered_pos]
  by_cases hnum : 58 ≤ f.size.toNat
  · -- the same number of program headers
    rw [fileHeader_phnum_eq hsize hnum, fileHeader_phnum_eq hsize hnum]
    refine congrArg loopOutcome (elfLoop_same (fileHeader_same hsize hlong _ _).phoff _ _ _ hopen
      fun j _ hj => ?_)
    rw [hheader, hheader]
    rcases hall j (by omega) with hskip | ⟨-, hpresent⟩
    · exact .inr ⟨hskip.not_loadable _, hskip.not_loadable _⟩
    · exact .inl (hpresent.same _ _)
  · -- as many as there may be, all of them skipped
    have hskips : ∀ stale : Stale, ∃ d', elfLoop stale (fileHeader stale image f) fd pageTable cr3
        (fileHeader stale image f).ePhnum.toNat 0 ⟨vmm, d, 0#64, true⟩ =
          .ok ⟨vmm, d', 0#64, true⟩ := by
      intro stale
      refine elfLoop_skips _ _ _ hopen (by rw [hfds]; exact hsize) fun j _ hj => ?_
      have hle := @fileHeader_phnum_le image f hsize stale
      rcases hall j (by omega) with hskip | ⟨hnum', -⟩
      · rw [hheader]
        exact hskip.not_loadable _
      · exact absurd hnum' hnum
    obtain ⟨d₁, h₁⟩ := hskips stale
    obtain ⟨d₂, h₂⟩ := hskips stale'
    rw [h₁, h₂]
    rfl

end Outcome

/-- Where the call gets to the file, the file decides. -/
def LoadDecided (k : Kernel) (path : List Byte) : Prop :=
  ∀ p size, findFile k.disk.image k.disk.length path (k.disk.length / 512 + 1) 0 = some (p, size) →
    freeSlot k.disk.fds ≠ none → FileDecides k.disk.image (openedFile p size)

/-- Two calls that differ in what the stack held have the same outcome. -/
theorem processCreateElf_decided {k : Kernel} {path : List Byte} (h : LoadDecided k path)
    (fuel : Nat) (stale stale' : Stale) (fns : Trampolines) (useLinuxAbi : BitVec 32) :
    elfOutcome (processCreateElf fuel stale fns k path useLinuxAbi) =
      elfOutcome (processCreateElf fuel stale' fns k path useLinuxAbi) := by
  unfold processCreateElf ramdiskOpen
  cases hfind : findFile k.disk.image k.disk.length path (k.disk.length / 512 + 1) 0 with
  | none =>
      dsimp only
      rw [if_pos (by decide), if_pos (by decide)]
  | some file =>
      obtain ⟨p, size⟩ := file
      cases hfree : freeSlot k.disk.fds with
      | none =>
          dsimp only
          rw [if_pos (by decide), if_pos (by decide)]
      | some slot =>
          have hdecides := h p size hfind (by rw [hfree]; exact Option.some_ne_none _)
          have hsize : (openedFile p size).size.toNat < 8 ^ 11 := findFile_size _ _ hfind
          obtain ⟨hslot, -⟩ := freeSlot_some hfree
          dsimp only
          rw [if_neg (by omega), if_neg (by omega)]
          refine elfOutcome_bind _ fun read hread => ?_
          obtain ⟨hbytes, hsame⟩ := @read_header _ _ p size _ hslot (orEndless_ok hread)
          have hheader : ∀ stale : Stale, Ehdr.ofBytes (overwrite stale.ehdr read.bytes) =
              fileHeader stale k.disk.image (openedFile p size) := by
            intro stale
            rw [fileHeader, hbytes]
            rfl
          rw [hheader, hheader]
          rcases hdecides with hrefused | ⟨hlong, hall⟩
          · rw [if_neg (hrefused.not_supported hsize stale),
              if_neg (hrefused.not_supported hsize stale')]
          · have hboth := @fileHeader_same k.disk.image _ hsize hlong stale stale'
            by_cases hsupported :
                (fileHeader stale k.disk.image (openedFile p size)).Supported
            · rw [if_pos hsupported, if_pos (hboth.supported.1 hsupported)]
              refine elfOutcome_bind _ fun alloc halloc => ?_
              obtain ⟨k₁, proc⟩ := alloc
              obtain ⟨-, hdisk⟩ := processAlloc_frame halloc
              cases proc with
              | none => rfl
              | some new =>
                  refine loadElf_outcome hboth.entry fun pageTable cr3 vmm => ?_
                  have hopen : openSlot k₁.disk ((slot : Int) + 3) = some slot := by
                    rw [hdisk]
                    exact hsame.openSlot (openSlot_opened hslot)
                  obtain ⟨pos, hpos⟩ := hsame
                  refine elfLoop_decided hsize hlong hall pos ?_ ?_ hopen vmm
                  · rw [hdisk]
                    show read.disk.image = _
                    rw [hpos]
                    rfl
                  · rw [hdisk]
                    show read.disk.fds slot = _
                    rw [hpos, Ramdisk.setEntry_fds_self, Ramdisk.setEntry_fds_self]
            · rw [if_neg hsupported, if_neg fun h => hsupported (hboth.supported.2 h)]

/-! ### Files that leave something open -/

section Open

theorem littleEndian_lt (buf : Nat → Byte) : ∀ (n off : Nat), littleEndian buf off n < 256 ^ n
  | 0, _ => Nat.one_pos
  | n + 1, off => by
      have hrest := littleEndian_lt buf n (off + 1)
      have hfirst := (buf off).isLt
      rw [littleEndian, Nat.pow_succ]
      omega

/-- The last byte is the highest one. -/
theorem littleEndian_last (buf : Nat → Byte) : ∀ (n off : Nat),
    littleEndian buf off (n + 1) = littleEndian buf off n + 256 ^ n * (buf (off + n)).toNat
  | 0, off => by simp [littleEndian]
  | n + 1, off => by
      rw [littleEndian, littleEndian_last buf n (off + 1), littleEndian, Nat.pow_succ,
        show off + 1 + n = off + (n + 1) by omega]
      ring

theorem littleEndian_eq_zero {buf : Nat → Byte} : ∀ {n off : Nat}, littleEndian buf off n = 0 →
    ∀ j < n, buf (off + j) = 0
  | n + 1, off, h, j, hj => by
      rw [littleEndian] at h
      cases j with
      | zero => exact BitVec.eq_of_toNat_eq (show (buf off).toNat = 0 by omega)
      | succ j =>
          have hrest := @littleEndian_eq_zero buf n (off + 1) (by omega) j (by omega)
          rwa [Nat.add_assoc, Nat.add_comm 1 j] at hrest

theorem toNat_ofNat_littleEndian (buf : Nat → Byte) (off : Nat) :
    (BitVec.ofNat 64 (littleEndian buf off 8)).toNat = littleEndian buf off 8 := by
  have hlt := littleEndian_lt buf 8 off
  rw [BitVec.toNat_ofNat]
  exact Nat.mod_eq_of_lt hlt

variable {image : Nat → Byte} {f : FdEntry} {i : Nat} {off : Word}

/-- A program header for more memory than there are addresses. -/
def hugeHeader (j : Nat) : Byte := if j < 4 then ptLoadByte j else 0xFF

/-- Where the bytes that are there do not say otherwise and the end of `p_memsz` is missing, the stack
    may hold the rest of such a header. -/
theorem huge_loadable {buf : Nat → Byte}
    (hbuf : ∀ j < 48, buf j = (fileByte image f off j).getD (hugeHeader j))
    (htype : ∀ j < 4, ∀ b, fileByte image f off j = some b → b = ptLoadByte j)
    (hend : fileByte image f off 47 = none) :
    (Phdr.ofBytes buf).loadable = true ∧ 2 ^ 48 < (Phdr.ofBytes buf).pMemsz.toNat := by
  have hload : (Phdr.ofBytes buf).pType = ptLoad := by
    rw [Phdr.pType_eq_iff]
    intro j hj
    rw [hbuf j (by omega)]
    cases hbyte : fileByte image f off j with
    | some b => exact htype j hj b hbyte
    | none => exact if_pos hj
  have hmemsz : 2 ^ 48 < (Phdr.ofBytes buf).pMemsz.toNat := by
    show 2 ^ 48 < (BitVec.ofNat 64 (littleEndian buf 40 8)).toNat
    have hbyte : (buf (40 + 7)).toNat = 255 := by
      rw [hbuf _ (by decide), hend]
      rfl
    rw [toNat_ofNat_littleEndian, littleEndian_last buf 7 40, hbyte]
    omega
  have hne : (Phdr.ofBytes buf).pMemsz ≠ 0#64 := by
    intro hzero
    rw [hzero] at hmemsz
    exact absurd hmemsz (by decide)
  refine ⟨?_, hmemsz⟩
  rw [Phdr.loadable, hload, Bool.and_eq_true]
  exact ⟨rfl, by simpa using hne⟩

/-- A header that is there and is not skipped is loaded. -/
theorem Present.loadable (h : Present image f i) (hskip : ¬ Skipped image f i) (stale : Stale) :
    (Phdr.ofBytes (phdrBuffer stale image f i)).loadable = true := by
  have hload : (Phdr.ofBytes (phdrBuffer stale image f i)).pType = ptLoad := by
    rw [Phdr.pType_eq_iff]
    intro j hj
    obtain ⟨b, hb⟩ := h.byte (show j < 48 by omega)
    rw [phdrBuffer, hb]
    by_contra hne
    exact hskip (.inl ⟨j, hj, b, hb, hne⟩)
  have hne : (Phdr.ofBytes (phdrBuffer stale image f i)).pMemsz ≠ 0#64 := by
    intro hzero
    have hvalue : littleEndian (phdrBuffer stale image f i) 40 8 = 0 := by
      rw [← toNat_ofNat_littleEndian]
      exact congrArg BitVec.toNat hzero
    refine hskip (.inr fun j hj => ?_)
    obtain ⟨b, hb⟩ := h.byte (show 40 + j < 48 by omega)
    have hbyte := littleEndian_eq_zero hvalue j hj
    rw [phdrBuffer, hb] at hbyte
    rw [hb]
    exact congrArg some hbyte
  rw [Phdr.loadable, hload, Bool.and_eq_true]
  exact ⟨rfl, by simpa using hne⟩

theorem clampPos_cases (f : FdEntry) (off : Word) :
    clampPos f off = 0#64 ∨ clampPos f off = f.size ∨ clampPos f off = off := by
  unfold clampPos
  dsimp only
  by_cases hneg : off.toInt < 0
  · rw [if_pos hneg]
    exact .inl (if_neg BitVec.not_lt_zero)
  · rw [if_neg hneg]
    split
    · exact .inr (.inl rfl)
    · exact .inr (.inr rfl)

/-- Nothing is left behind the end of the file. -/
theorem fileByte_behind (hoff : off.toNat < 2 ^ 63) (hend : f.size.toNat ≤ off.toNat) (j : Nat) :
    fileByte image f off j = none := by
  have hpos : ¬ off.toInt < 0 := by
    rw [BitVec.toInt_eq_toNat_of_lt (by omega)]
    omega
  have hclamp : (clampPos f off).toNat = f.size.toNat := by
    unfold clampPos
    dsimp only
    rw [if_neg hpos]
    split
    · rfl
    · rename_i hlt
      rw [BitVec.lt_def] at hlt
      omega
  unfold fileByte
  rw [hclamp, if_neg (by omega)]

/-- In a file of less than 58 bytes a header that is loaded is the last one inside the file: it does
    not start with the magic number, and what follows it lies behind the end. -/
theorem Present.next (hlong : 40 ≤ f.size.toNat) (hshort : f.size.toNat < 58)
    (hrefused : ¬ Refused image f) (h : Present image f i) (hskip : ¬ Skipped image f i) :
    ¬ Skipped image f (i + 1) ∧ ¬ Present image f (i + 1) := by
  have hmagic : image f.data = 0x7F := by
    by_contra hne
    refine hrefused ⟨(0, 0x7F), by decide, image f.data, ?_, hne⟩
    rw [fileByte_zero, if_pos (by omega), Nat.add_zero]
  -- the offset of the header, which is not that of the magic number
  have hstart : ∀ o : Nat, (clampPos f (filePhoff image f + BitVec.ofNat 64 (i * phdrSize))).toNat =
      o → o ≠ 0 := by
    rintro o ho rfl
    refine hskip (.inl ⟨0, by decide, 0x7F, ?_, by decide⟩)
    unfold phdrByte fileByte
    rw [ho, if_pos (by omega), Nat.add_zero, hmagic]
  obtain ⟨b, hb⟩ := h
  unfold phdrByte fileByte at hb
  split at hb
  · rename_i hinside
    have hne := hstart _ rfl
    have hvalue : (clampPos f (filePhoff image f + BitVec.ofNat 64 (i * phdrSize))).toNat =
        (filePhoff image f + BitVec.ofNat 64 (i * phdrSize)).toNat := by
      rcases clampPos_cases f (filePhoff image f + BitVec.ofNat 64 (i * phdrSize)) with
        hzero | hsize | hself
      · rw [hzero] at hne
        exact absurd rfl hne
      · rw [hsize] at hinside
        omega
      · rw [hself]
    rw [hvalue] at hinside hne
    have hnext : (filePhoff image f + BitVec.ofNat 64 ((i + 1) * phdrSize)).toNat =
        (filePhoff image f + BitVec.ofNat 64 (i * phdrSize)).toNat + 56 := by
      rw [Nat.add_mul, BitVec.ofNat_add, ← BitVec.add_assoc, BitVec.toNat_add,
        show (BitVec.ofNat 64 (1 * phdrSize)).toNat = 56 from rfl]
      omega
    have hnone : ∀ j, phdrByte image f (i + 1) j = none :=
      fileByte_behind (by omega) (by omega)
    constructor
    · rintro (⟨j, -, c, hc, -⟩ | hzero)
      · rw [hnone] at hc
        cases hc
      · have := hzero 0 (by decide)
        rw [hnone] at this
        cases this
    · rintro ⟨c, hc⟩
      rw [hnone] at hc
      cases hc
  · cases hb

end Open

/-! ### Loads that end with a process -/

section Loads

variable {image : BootImage} {window : Word → Prop} {pml4 cr3 : Word}
  {tag₀ tag : Word → Option Label} {contents : Phdr → List (BitVec 8)} {s : Vmm}

/-- No segment is longer than the addresses the processor accepts. -/
theorem loadSegments_short : ∀ (phdrs : List Phdr) (s : Vmm) (load : Loading),
    loadSegments pml4 contents phdrs s = .ok load → load.ok = true →
    ∀ phdr ∈ phdrs, phdr.loadable = true → phdr.pMemsz.toNat ≤ 2 ^ 48
  | [], _, _, _, _ => fun _ hmem => by cases hmem
  | first :: phdrs, s, load, h, hok => by
      rw [loadSegments] at h
      intro phdr hmem hload
      split at h
      · obtain ⟨load₁, hfirst, h⟩ := bind_ok h
        split at h
        · rename_i hok₁
          obtain ⟨rest, hrest, h⟩ := bind_ok h
          cases h
          rcases List.mem_cons.1 hmem with rfl | hmem
          · obtain ⟨pages, -, hfirst⟩ := bind_ok hfirst
            split at hfirst
            · obtain ⟨s₁, hzero, -⟩ := bind_ok hfirst
              have hcanon := storeBytes_canonical _ _ _ _ hzero
              rw [List.length_replicate] at hcanon
              exact canonical_run hcanon
            · cases hfirst
              cases hok₁
          · exact loadSegments_short phdrs _ rest hrest hok phdr hmem hload
        · rename_i hok₁
          cases h
          exact absurd hok hok₁
      · rename_i hskip
        rcases List.mem_cons.1 hmem with rfl | hmem
        · exact absurd hload hskip
        · exact loadSegments_short phdrs s load h hok phdr hmem hload

/-- A load of two lists of program headers, one after the other. -/
theorem loadSegments_append : ∀ (phdrs more : List Phdr) (s : Vmm) (load : Loading),
    loadSegments pml4 contents (phdrs ++ more) s = .ok load → load.ok = true →
    ∃ load₁ load₂, loadSegments pml4 contents phdrs s = .ok load₁ ∧ load₁.ok = true ∧
      loadSegments pml4 contents more load₁.vmm = .ok load₂ ∧ load₂.ok = true ∧
      load₂.vmm = load.vmm
  | [], more, s, load, h, hok => ⟨_, load, rfl, rfl, h, hok, rfl⟩
  | phdr :: phdrs, more, s, load, h, hok => by
      rw [List.cons_append, loadSegments] at h
      rw [loadSegments]
      split at h
      · rename_i hload
        rw [if_pos hload]
        obtain ⟨first, hfirst, h⟩ := bind_ok h
        rw [hfirst]
        split at h
        · rename_i hok₁
          obtain ⟨rest, hrest, h⟩ := bind_ok h
          cases h
          obtain ⟨load₁, load₂, h₁, hok₁', h₂, hok₂, hvmm⟩ :=
            loadSegments_append phdrs more first.vmm rest hrest hok
          refine ⟨{ load₁ with frames := first.frames ++ load₁.frames }, load₂, ?_, hok₁', h₂, hok₂,
            hvmm⟩
          show (if first.ok = true then _ else _) = _
          rw [if_pos hok₁, h₁]
          rfl
        · rename_i hok₁
          cases h
          exact absurd hok hok₁
      · rename_i hload
        rw [if_neg hload]
        exact loadSegments_append phdrs more s load h hok

/-- A loop over at least one page takes a frame. -/
theorem mapFreshPages_takes {flags : Word} {virt : Nat → Word} {count i : Nat} {out : FreshPages}
    (hpos : 0 < count) (h : mapFreshPages pml4 virt flags count i s = .ok out)
    (hcomplete : out.complete = true) : out.vmm.pmm.freeSet.card < s.pmm.freeSet.card := by
  obtain ⟨count, rfl⟩ := Nat.exists_eq_succ_of_ne_zero (Nat.ne_of_gt hpos)
  unfold mapFreshPages at h
  dsimp only at h
  split at h
  · cases h
    cases hcomplete
  · rename_i hframe
    obtain ⟨s₁, hmap, h⟩ := bind_ok h
    obtain ⟨rest, hrest, h⟩ := bind_ok h
    cases h
    have hlater := (vmmMapIn_allocs hmap).trans (mapFreshPages_allocs _ _ _ _ hrest)
    rcases pmmAlloc_spec s.pmm with ⟨hnone, -⟩ | ⟨n, hn, -, hsome⟩
    · rw [hnone] at hframe
      exact absurd rfl hframe
    · have hle := Finset.card_le_card hlater.free
      dsimp only at hle
      rw [hsome, freeSet_reserveFrame, Finset.card_erase_of_mem hn] at hle
      have hcard : 0 < s.pmm.freeSet.card := Finset.card_pos.2 ⟨n, hn⟩
      show rest.vmm.pmm.freeSet.card < _
      omega

/-- Program headers one of which is loadable take a frame. -/
theorem LoadState.segments_take : ∀ (phdrs : List Phdr) (tag : Word → Option Label) (s : Vmm)
    (load : Loading), LoadState image window pml4 (fun _ _ => True) tag₀ cr3 tag s →
    translate s.mem pml4 topPage = none →
    loadSegments pml4 contents phdrs s = .ok load → load.ok = true →
    (∃ phdr ∈ phdrs, phdr.loadable = true) → load.vmm.pmm.freeSet.card < s.pmm.freeSet.card
  | [], _, _, _, _, _, _, _, ⟨_, hmem, _⟩ => by cases hmem
  | phdr :: phdrs, tag, s, load, hstate, htop, h, hok, hsome => by
      rw [loadSegments] at h
      split at h
      · rename_i hload
        obtain ⟨first, hfirst, h⟩ := bind_ok h
        split at h
        · obtain ⟨rest, hrest, h⟩ := bind_ok h
          cases h
          have hrestle := Finset.card_le_card (loadSegments_allocs _ _ _ hrest).free
          obtain ⟨pages, hpages, hfirst⟩ := bind_ok hfirst
          split at hfirst
          · rename_i hcomplete
            obtain ⟨s₁, hzero, hfirst⟩ := bind_ok hfirst
            obtain ⟨s₂, hfill, hfirst⟩ := bind_ok hfirst
            cases hfirst
            have hcanon := storeBytes_canonical _ _ _ _ hzero
            rw [List.length_replicate] at hcanon
            obtain ⟨hpos, -⟩ := segment_start hstate.tree htop (Phdr.loadable_memsz hload) hcanon
              hpages hcomplete (List.length_replicate ..) hzero
            have htaken := mapFreshPages_takes hpos hpages hcomplete
            have hpmm₁ : s₁.pmm = pages.vmm.pmm := (storeBytes_pmm _ _ _ _ hzero).1
            have hpmm₂ : s₂.pmm = s₁.pmm := (storeBytes_pmm _ _ _ _ hfill).1
            replace hrestle : rest.vmm.pmm.freeSet.card ≤ s₂.pmm.freeSet.card := hrestle
            rw [hpmm₂, hpmm₁] at hrestle
            exact Nat.lt_of_le_of_lt hrestle htaken
          · rename_i hok₁
            cases hfirst
            cases ‹false = true›
        · rename_i hok₁
          cases h
          exact absurd hok hok₁
      · rename_i hload
        obtain ⟨other, hmem, hother⟩ := hsome
        rcases List.mem_cons.1 hmem with rfl | hmem
        · exact absurd hother hload
        · exact LoadState.segments_take phdrs tag s load hstate htop h hok ⟨other, hmem, hother⟩

/-- The address space that a new process starts with. -/
theorem TreeInv.created (inv : TreeInv image tag s) (hcr3 : s.cr3 = image.pml4Table)
    (hnull : (vmmCreateAddressSpace s).2 ≠ 0#64) :
    ∃ tag', LoadState image (ReservedFrame image) (vmmCreateAddressSpace s).2 (fun _ _ => True)
        tag' s.cr3 tag' (vmmCreateAddressSpace s).1 ∧
      translate (vmmCreateAddressSpace s).1.mem (vmmCreateAddressSpace s).2 topPage = none := by
  have hroot : tag s.cr3 = some .root := by rw [hcr3, inv.tree.kernel]
  have hclean := inv.clean
  unfold KernelClean at hclean
  rw [← hcr3] at hclean
  rcases vmmCreateAddressSpace_spec inv.tree.tagged hroot (privateOwner_shared hclean) with
    ⟨-, hnone⟩ | ⟨n, hn, -, s₁, hcreate, c⟩
  · rw [hnone] at hnull
    exact absurd rfl hnull
  · obtain ⟨htree, htop⟩ := LoadTree.created inv.tree hroot hclean hn c
    rw [hcreate]
    exact ⟨_, ⟨htree, True.intro, fun _ _ ht => ht, c.cr3⟩, htop⟩

/-- With more program headers, one of them loadable, fewer frames are left. -/
theorem createElf_more (inv : TreeInv image tag s) (hcr3 : s.cr3 = image.pml4Table)
    {elf elf' : ElfFile} {more : List Phdr} (hcontents : elf'.contents = elf.contents)
    (hphdrs : elf'.phdrs = elf.phdrs ++ more) (hmore : ∃ phdr ∈ more, phdr.loadable = true)
    {r r' : ElfReturn} {proc proc' : Process} (hr : createElfAddressSpace s elf = .ok r)
    (hproc : r.proc = some proc) (hr' : createElfAddressSpace s elf' = .ok r')
    (hproc' : r'.proc = some proc') :
    r'.vmm.pmm.freeSet.card < r.vmm.pmm.freeSet.card := by
  obtain ⟨stack, load, hnull, hstack, -, hload, hok, hvmm, -⟩ := createElf_stages hr hproc
  obtain ⟨stack', load', -, hstack', -, hload', hok', hvmm', -⟩ := createElf_stages hr' hproc'
  obtain rfl : stack = stack' := Except.ok.inj (hstack.symm.trans hstack')
  rw [hphdrs, hcontents] at hload'
  obtain ⟨load₁, load₂, h₁, -, h₂, hok₂, hsame⟩ := loadSegments_append _ _ _ _ hload' hok'
  obtain rfl : load = load₁ := Except.ok.inj (hload.symm.trans h₁)
  obtain ⟨tag₁, hstart, htop⟩ := TreeInv.created inv hcr3 hnull
  obtain ⟨tag₂, hmapped, htop₂⟩ := hstart.stack .trivial htop (fun _ _ => True.intro) hstack
  obtain ⟨tag₃, hloaded, htop₃⟩ := LoadState.segments .trivial _ tag₂ _ load hmapped htop₂
    (fun _ _ _ _ _ => True.intro) hload
  rw [hvmm', hvmm, ← hsame]
  exact LoadState.segments_take more tag₃ _ load₂ hloaded (htop₃ hok) h₂ hok₂ hmore

end Loads

/-! ### When the outcome depends on the file alone -/

section Necessary

variable {fuel : Nat} {fns : Trampolines} {k : Kernel} {path : List Byte} {useLinuxAbi : BitVec 32}
  {stale stale' : Stale} {k' : Kernel} {new : NewProcess} {p : Nat} {size : Word}

/-- The program of a call that ends with a process. -/
theorem processCreateElf_program
    (hfind : findFile k.disk.image k.disk.length path (k.disk.length / 512 + 1) 0 = some (p, size))
    (h : processCreateElf fuel stale fns k path useLinuxAbi = .ok (k', some new)) :
    ∃ r proc, createElfAddressSpace k.vmm (fileProgram stale k.disk.image (openedFile p size)) =
        .ok r ∧ r.proc = some proc ∧ k'.vmm = r.vmm := by
  obtain ⟨-, ⟨-, hnone⟩ | ⟨p', size', r, hfind', hr, hvmm, hproc⟩⟩ := processCreateElf_cases h
  · cases hnone
  · rw [hfind] at hfind'
    cases hfind'
    cases hp : r.proc with
    | none =>
        rw [hp] at hproc
        cases hproc
    | some proc => exact ⟨r, proc, hr, hp, hvmm⟩

/-- A program header for more than there are addresses does not give a process. -/
theorem processCreateElf_huge
    (hfind : findFile k.disk.image k.disk.length path (k.disk.length / 512 + 1) 0 = some (p, size))
    (h : processCreateElf fuel stale fns k path useLinuxAbi = .ok (k', some new)) {i : Nat}
    (hi : i < (fileHeader stale k.disk.image (openedFile p size)).ePhnum.toNat)
    (hload : (header stale k.disk.image (openedFile p size)
      (fileHeader stale k.disk.image (openedFile p size)) i).loadable = true) :
    (header stale k.disk.image (openedFile p size)
      (fileHeader stale k.disk.image (openedFile p size)) i).pMemsz.toNat ≤ 2 ^ 48 := by
  obtain ⟨r, proc, hr, hproc, -⟩ := processCreateElf_program hfind h
  obtain ⟨stack, load, -, -, -, hsegments, hok, -⟩ := createElf_stages hr hproc
  exact loadSegments_short _ _ load hsegments hok _
    (List.mem_map.2 ⟨i, List.mem_range.2 hi, rfl⟩) hload

/-- The same outcome of another call is a process too, with the same machine. -/
theorem process_of_outcome
    (h : processCreateElf fuel stale fns k path useLinuxAbi = .ok (k', some new))
    (hsame : elfOutcome (processCreateElf fuel stale fns k path useLinuxAbi) =
      elfOutcome (processCreateElf fuel stale' fns k path useLinuxAbi)) :
    ∃ k₁, processCreateElf fuel stale' fns k path useLinuxAbi = .ok (k₁, some new) ∧
      k₁.vmm = k'.vmm := by
  rw [h] at hsame
  generalize processCreateElf fuel stale' fns k path useLinuxAbi = r at hsame ⊢
  cases r with
  | error e => cases hsame
  | ok x =>
      obtain ⟨k₁, new'⟩ := x
      have hparts := Except.ok.inj hsame
      dsimp only at hparts
      obtain ⟨hvmm, -, -, rfl⟩ := Prod.mk.inj hparts |>.imp_right fun h =>
        (Prod.mk.inj h).imp_right Prod.mk.inj
      exact ⟨k₁, rfl, hvmm.symm⟩

/-- What the stack may hold: the largest number of program headers, behind the end of the file, each
    of them for more memory than there are addresses. -/
def hostileStale : Stale where
  ehdr j := if j = 39 then 0x7F else 0xFF
  phdr _ := hugeHeader

/-- The same program headers, but fewer of them. -/
def fewerStale : Stale where
  ehdr j := if j = 39 then 0x7F else if j = 57 then 0 else 0xFF
  phdr _ := hugeHeader

theorem hostile_phnum {image : Nat → Byte} {f : FdEntry} (hsize : f.size.toNat < 8 ^ 11) :
    (fileHeader hostileStale image f).ePhnum.toNat = maxPhnum image f := by
  rw [fileHeader_phnum hsize, maxPhnum, littleEndian_two, littleEndian_two]
  rfl

/-- Without the last byte of `e_phnum` it is anybody's guess. -/
theorem maxPhnum_short {image : Nat → Byte} {f : FdEntry} (hsize : f.size.toNat < 8 ^ 11)
    (hshort : f.size.toNat < 58) :
    255 * 256 ≤ maxPhnum image f ∧ (fileHeader fewerStale image f).ePhnum.toNat < 256 := by
  have hnone : fileByte image f 0#64 (56 + 1) = none := by
    rw [fileByte_zero, if_neg (by omega)]
  rw [fileHeader_phnum hsize, maxPhnum, littleEndian_two, littleEndian_two, headerBuffer,
    headerBuffer, hnone, Option.getD_none, Option.getD_none, show (0xFF : Byte).toNat = 255 from rfl,
    show (fewerStale.ehdr (56 + 1)).toNat = 0 from rfl]
  have := ((fileByte image f 0#64 56).getD (fewerStale.ehdr 56)).isLt
  omega

/-- With the hostile stack a program header that the bytes leave open ends the call without a
    process. -/
theorem hostile_closed
    (hfind : findFile k.disk.image k.disk.length path (k.disk.length / 512 + 1) 0 = some (p, size))
    (h : processCreateElf fuel hostileStale fns k path useLinuxAbi = .ok (k', some new)) {i : Nat}
    {off : Word} (hi : i < maxPhnum k.disk.image (openedFile p size))
    (hoff : (fileHeader hostileStale k.disk.image (openedFile p size)).ePhoff +
      BitVec.ofNat 64 (i * phdrSize) = off)
    (htype : ∀ j < 4, ∀ b, fileByte k.disk.image (openedFile p size) off j = some b →
      b = ptLoadByte j) : fileByte k.disk.image (openedFile p size) off 47 ≠ none := by
  intro hend
  have hsize : (openedFile p size).size.toNat < 8 ^ 11 := findFile_size _ _ hfind
  obtain ⟨hload, hmemsz⟩ := @huge_loadable _ _ off (overwrite hugeHeader
    ((delivered k.disk.image (openedFile p size) off (BitVec.ofNat 64 phdrSize)).getD []))
    (fun j hj => overwrite_delivered hsize (by decide) _ (Nat.lt_trans hj (by decide))) htype hend
  rw [← hoff] at hload hmemsz
  rw [← hostile_phnum hsize] at hi
  have hle := processCreateElf_huge hfind h hi hload
  exact absurd hmemsz (Nat.not_lt.2 hle)

/-- Without all of `e_phoff` the stack may put the program headers behind the end of the file. -/
theorem hostile_phoff
    (hfind : findFile k.disk.image k.disk.length path (k.disk.length / 512 + 1) 0 = some (p, size))
    (h : processCreateElf fuel hostileStale fns k path useLinuxAbi = .ok (k', some new)) :
    40 ≤ (openedFile p size).size.toNat := by
  have hsize : (openedFile p size).size.toNat < 8 ^ 11 := findFile_size _ _ hfind
  by_contra hshort
  have hbyte : (headerBuffer hostileStale k.disk.image (openedFile p size) (32 + 7)).toNat = 0x7F := by
    rw [headerBuffer, fileByte_zero, if_neg (by omega)]
    rfl
  have hoff : (fileHeader hostileStale k.disk.image (openedFile p size)).ePhoff.toNat =
      littleEndian (headerBuffer hostileStale k.disk.image (openedFile p size)) 32 7 +
        256 ^ 7 * 0x7F := by
    show (BitVec.ofNat 64 _).toNat = _
    rw [header_littleEndian hsize _ (by decide), toNat_ofNat_littleEndian, littleEndian_last, hbyte]
  have hlow := littleEndian_lt (headerBuffer hostileStale k.disk.image (openedFile p size)) 7 32
  have hnone : ∀ j, fileByte k.disk.image (openedFile p size)
      (fileHeader hostileStale k.disk.image (openedFile p size)).ePhoff j = none :=
    fileByte_behind (by omega) (by omega)
  have hcount := (@maxPhnum_short k.disk.image _ hsize (by omega)).1
  refine hostile_closed hfind h (show 0 < _ by omega) (BitVec.add_zero _)
    (fun j _ b hb => ?_) (hnone 47)
  rw [hnone] at hb
  cases hb

/-- A file of less than 58 bytes with a program header that is loaded: with the hostile stack it is
    the last one, and with fewer program headers it is not there. -/
theorem fewer_frames {image : BootImage} {tag : Word → Option Label} (inv : TreeInv image tag k.vmm)
    (hcr3 : k.vmm.cr3 = image.pml4Table)
    (hfind : findFile k.disk.image k.disk.length path (k.disk.length / 512 + 1) 0 = some (p, size))
    (hlong : 40 ≤ (openedFile p size).size.toNat) (hshort : (openedFile p size).size.toNat < 58)
    {i : Nat} (hlast : i + 1 = maxPhnum k.disk.image (openedFile p size))
    (hpresent : Present k.disk.image (openedFile p size) i)
    (hskip : ¬ Skipped k.disk.image (openedFile p size) i) {k₁ k₂ : Kernel} {new₁ new₂ : NewProcess}
    (h₁ : processCreateElf fuel hostileStale fns k path useLinuxAbi = .ok (k₁, some new₁))
    (h₂ : processCreateElf fuel fewerStale fns k path useLinuxAbi = .ok (k₂, some new₂)) :
    k₁.vmm.pmm.freeSet.card < k₂.vmm.pmm.freeSet.card := by
  have hsize : (openedFile p size).size.toNat < 8 ^ 11 := findFile_size _ _ hfind
  obtain ⟨r₁, proc₁, hr₁, hproc₁, hvmm₁⟩ := processCreateElf_program hfind h₁
  obtain ⟨r₂, proc₂, hr₂, hproc₂, hvmm₂⟩ := processCreateElf_program hfind h₂
  obtain ⟨hmany, hfew⟩ := @maxPhnum_short k.disk.image _ hsize hshort
  rw [hvmm₁, hvmm₂]
  generalize hf : openedFile p size = f at *
  let g := fun j => Phdr.ofBytes (phdrBuffer hostileStale k.disk.image f j)
  have hmax : (fileProgram hostileStale k.disk.image f).phdrs =
      (List.range (maxPhnum k.disk.image f)).map g := by
    show (List.range (fileHeader hostileStale k.disk.image f).ePhnum.toNat).map _ = _
    rw [hostile_phnum hsize]
    exact List.map_congr_left fun j _ =>
      header_eq hsize hostileStale (fileHeader_phoff hsize hlong hostileStale) j
  have hmin : (fileProgram fewerStale k.disk.image f).phdrs =
      (List.range (fileHeader fewerStale k.disk.image f).ePhnum.toNat).map g :=
    List.map_congr_left fun j _ =>
      header_eq hsize fewerStale (fileHeader_phoff hsize hlong fewerStale) j
  obtain ⟨d, hd⟩ := Nat.exists_eq_add_of_le
    (show (fileHeader fewerStale k.disk.image f).ePhnum.toNat ≤ maxPhnum k.disk.image f by omega)
  have hmore : (fileProgram hostileStale k.disk.image f).phdrs =
      (fileProgram fewerStale k.disk.image f).phdrs ++ (List.range d).map fun j =>
        g ((fileHeader fewerStale k.disk.image f).ePhnum.toNat + j) := by
    rw [hmax, hmin, hd, List.range_add, List.map_append, List.map_map]
    rfl
  have hcontents : (fileProgram hostileStale k.disk.image f).contents =
      (fileProgram fewerStale k.disk.image f).contents := rfl
  refine createElf_more inv hcr3 hcontents hmore ⟨g i, ?_, ?_⟩ hr₂ hproc₂ hr₁ hproc₁
  · refine List.mem_map.2 ⟨i - (fileHeader fewerStale k.disk.image f).ePhnum.toNat,
      List.mem_range.2 (by omega), ?_⟩
    rw [Nat.add_sub_cancel' (by omega)]
  · exact hpresent.loadable hskip hostileStale

/-- Where some call ends with a process and all have the same outcome, the file decides. -/
theorem fileDecides_of_same {image : BootImage} {tag : Word → Option Label}
    (inv : TreeInv image tag k.vmm) (hcr3 : k.vmm.cr3 = image.pml4Table)
    (hfind : findFile k.disk.image k.disk.length path (k.disk.length / 512 + 1) 0 = some (p, size))
    (h : processCreateElf fuel stale fns k path useLinuxAbi = .ok (k', some new))
    (hsame : ∀ stale', elfOutcome (processCreateElf fuel stale fns k path useLinuxAbi) =
      elfOutcome (processCreateElf fuel stale' fns k path useLinuxAbi)) :
    FileDecides k.disk.image (openedFile p size) := by
  have hsize : (openedFile p size).size.toNat < 8 ^ 11 := findFile_size _ _ hfind
  obtain ⟨k₁, h₁, hvmm₁⟩ := process_of_outcome h (hsame hostileStale)
  obtain ⟨k₂, h₂, hvmm₂⟩ := process_of_outcome h (hsame fewerStale)
  have hlong := hostile_phoff hfind h₁
  have hphoff := @fileHeader_phoff k.disk.image _ hsize hlong hostileStale
  by_cases hrefused : Refused k.disk.image (openedFile p size)
  · exact .inl hrefused
  refine .inr ⟨hlong, fun i hi => ?_⟩
  have hpresent : ∀ j < maxPhnum k.disk.image (openedFile p size),
      ¬ Skipped k.disk.image (openedFile p size) j → Present k.disk.image (openedFile p size) j := by
    intro j hj hskip
    refine Option.ne_none_iff_exists'.1
      (hostile_closed hfind h₁ hj (by rw [hphoff]) fun n hn b hb => ?_)
    by_contra hne
    exact hskip (.inl ⟨n, hn, b, hb, hne⟩)
  by_contra hopen
  have hskip : ¬ Skipped k.disk.image (openedFile p size) i := fun hs => hopen (.inl hs)
  have hshort : (openedFile p size).size.toNat < 58 :=
    Nat.lt_of_not_le fun hnum => hopen (.inr ⟨hnum, hpresent i hi hskip⟩)
  obtain ⟨hskip', habsent⟩ := (hpresent i hi hskip).next hlong hshort hrefused hskip
  have hlast : i + 1 = maxPhnum k.disk.image (openedFile p size) := by
    by_contra hne
    exact habsent (hpresent (i + 1) (by omega) hskip')
  have hlt := fewer_frames inv hcr3 hfind hlong hshort hlast (hpresent i hi hskip) hskip h₁ h₂
  rw [hvmm₁, hvmm₂] at hlt
  exact absurd hlt (Nat.lt_irrefl _)

end Necessary

/-- Two calls of `process_create_elf` that differ in what the stack held have the same outcome if the
    file decides it. In a kernel whose page tables are in order, and where some call ends with a
    process, this is the only way. -/
theorem elf_outcome_decided (fuel : Nat) (fns : Trampolines) (k : Kernel) (path : List Byte)
    (useLinuxAbi : BitVec 32) :
    (LoadDecided k path → ∀ stale stale',
      elfOutcome (processCreateElf fuel stale fns k path useLinuxAbi) =
        elfOutcome (processCreateElf fuel stale' fns k path useLinuxAbi)) ∧
    ∀ (image : BootImage) (tag : Word → Option Label), TreeInv image tag k.vmm →
      k.vmm.cr3 = image.pml4Table →
      (∃ stale k' new, processCreateElf fuel stale fns k path useLinuxAbi = .ok (k', some new)) →
      (∀ stale stale', elfOutcome (processCreateElf fuel stale fns k path useLinuxAbi) =
        elfOutcome (processCreateElf fuel stale' fns k path useLinuxAbi)) → LoadDecided k path := by
  constructor
  · intro h stale stale'
    exact processCreateElf_decided h fuel stale stale' fns useLinuxAbi
  · rintro image tag inv hcr3 ⟨stale, k', new, h⟩ hsame p size hfind -
    exact fileDecides_of_same inv hcr3 hfind h (hsame stale)

theorem StoredFile.fileByte {disk : Ramdisk} {path : List Byte} {p : Nat} {file : List Byte}
    (h : StoredFile disk path p file) (j : Nat) :
    fileByte disk.image (openedFile p (BitVec.ofNat 64 file.length)) 0#64 j = file[j]? := by
  have hsize : (openedFile p (BitVec.ofNat 64 file.length)).size.toNat = file.length := h.toNat_size
  rw [fileByte_zero, hsize]
  split
  · rename_i hj
    rw [List.getElem?_eq_getElem hj]
    exact congrArg some (h.bytes j _ (List.getElem?_eq_getElem hj))
  · rename_i hj
    rw [List.getElem?_eq_none (Nat.not_lt.1 hj)]

/-- A booted kernel makes a process of a header without program headers, wherever it comes from. -/
theorem noSegments_process (file : List Byte) (hlt : file.length < 8 ^ 11) :
    ∃ vmm, kernelBoot bootedImage (fun _ _ => 0#64) = .ok vmm ∧ ∀ stale : Stale,
      (fileHeader stale (fileKernel vmm file hlt).disk.image
        (openedFile 0 (BitVec.ofNat 64 file.length))).Supported →
      (fileHeader stale (fileKernel vmm file hlt).disk.image
        (openedFile 0 (BitVec.ofNat 64 file.length))).ePhnum.toNat = 0 →
      ∃ k new, processCreateElf 4 stale ⟨0, 0⟩ (fileKernel vmm file hlt) [97] 0#32 =
        .ok (k, some new) := by
  obtain ⟨vmm, s, u, boot, ⟨-, r, hr, hs⟩, hu, -⟩ := emptyElf_process fun _ _ => 0#64
  refine ⟨vmm, boot, fun stale hsupported hnone => ?_⟩
  have hstored := fileKernel_stored vmm file hlt
  have hphdrs : (fileProgram stale (fileKernel vmm file hlt).disk.image
      (openedFile 0 (BitVec.ofNat 64 file.length))).phdrs = [] := by
    show (List.range (Ehdr.ePhnum _).toNat).map _ = []
    rw [hnone]
    rfl
  have hspace : createElfAddressSpace vmm (fileProgram stale (fileKernel vmm file hlt).disk.image
      (openedFile 0 (BitVec.ofNat 64 file.length))) = .ok r := by
    rw [← hr]
    unfold createElfAddressSpace
    rw [hphdrs]
    rfl
  cases hproc : r.proc with
  | none =>
      rw [hproc] at hs
      subst hs
      cases hu
  | some proc =>
      obtain ⟨k', new, halloc⟩ := processAlloc_first (fileKernel vmm file hlt) rfl
      obtain ⟨k, new', hok, -⟩ := @processCreateElf_ok 4 stale ⟨0, 0⟩ 0#32 (fileKernel vmm file hlt)
        k' 0 [97] 0 (BitVec.ofNat 64 file.length) new r proc hstored.found rfl
        (hstored.delivers (by decide)) hsupported halloc (fun _ => hstored.delivers (by decide))
        (by rw [hphdrs]; exact fun _ hmem => absurd hmem List.not_mem_nil) hspace hproc
      exact ⟨k, new', hok⟩

/-- A file with all its headers decides by itself. -/
theorem fileDecides_of_sound {disk : Ramdisk} {path : List Byte} {p : Nat} {file : List Byte}
    (h : SoundFile file) (stored : StoredFile disk path p file) :
    FileDecides disk.image (openedFile p (BitVec.ofNat 64 file.length)) := by
  have hsize : (openedFile p (BitVec.ofNat 64 file.length)).size.toNat = file.length :=
    stored.toNat_size
  have hshort := stored.short
  have hheader := h.header
  have hlt : (openedFile p (BitVec.ofNat 64 file.length)).size.toNat < 8 ^ 11 := by rwa [hsize]
  obtain ⟨-, hphoff, hphnum⟩ := stored.header hostileStale h.header
  rw [fileHeader_phoff hlt (by omega)] at hphoff
  refine .inr ⟨by omega, fun i hi => .inr ⟨by omega, ?_⟩⟩
  rw [← hostile_phnum hlt, hphnum] at hi
  have hphdrs := h.phdrs
  rw [show phdrSize = 56 from rfl] at hphdrs
  have hoff : ((fileEhdr file).ePhoff + BitVec.ofNat 64 (i * phdrSize)).toNat =
      (fileEhdr file).ePhoff.toNat + i * 56 := by
    rw [BitVec.toNat_add, BitVec.toNat_ofNat, show phdrSize = 56 from rfl]
    omega
  have hclamp := @StoredFile.clampPos_eq _ _ _ _ stored
    ((fileEhdr file).ePhoff + BitVec.ofNat 64 (i * phdrSize)) (by omega)
  rw [Present, phdrByte, hphoff, Filesystem.fileByte, hclamp, hoff, hsize, if_pos (by omega)]
  exact ⟨_, rfl⟩

/-- The small program in a booted kernel. -/
theorem elf_outcome_decided_small : ∃ k k' new,
    kernelBoot bootedImage (fun _ _ => 0#64) = .ok k.vmm ∧
      processCreateElf 4 hostileStale ⟨0, 0⟩
        (System.constructing bootedImage { kernel := k, users := [] }) [97] 0#32 =
        .ok (k', some new) ∧
      (∀ stale stale',
        elfOutcome (processCreateElf 4 stale ⟨0, 0⟩
          (System.constructing bootedImage { kernel := k, users := [] }) [97] 0#32) =
        elfOutcome (processCreateElf 4 stale' ⟨0, 0⟩
          (System.constructing bootedImage { kernel := k, users := [] }) [97] 0#32)) ∧
      LoadDecided (System.constructing bootedImage { kernel := k, users := [] }) [97] := by
  obtain ⟨vmm, k', new, boot, hok⟩ := smallProgram_file.created (fun _ => smallProgram_file.fits)
    smallProgram_short smallProgram_frames hostileStale ⟨0, 0⟩
  have hstored : StoredFile (System.constructing bootedImage
      { kernel := fileKernel vmm smallProgram smallProgram_short, users := [] }).disk [97] 0
      smallProgram := fileKernel_stored vmm smallProgram smallProgram_short
  have hloaded : LoadDecided (System.constructing bootedImage
      { kernel := fileKernel vmm smallProgram smallProgram_short, users := [] }) [97] := by
    intro p size hfind _
    rw [hstored.found] at hfind
    cases hfind
    exact fileDecides_of_sound smallProgram_file.toSoundFile hstored
  obtain ⟨tag, inv⟩ := SystemInv.boot (k := fileKernel vmm smallProgram smallProgram_short) boot
  have hsame := (elf_outcome_decided 4 ⟨0, 0⟩ (System.constructing bootedImage
    { kernel := fileKernel vmm smallProgram smallProgram_short, users := [] }) [97] 0#32).1 hloaded
  exact ⟨_, k', new, boot, hok, hsame, (elf_outcome_decided 4 ⟨0, 0⟩ _ [97] 0#32).2 bootedImage tag
    (inv.toTreeInv.switch bootedImage.pml4Table) rfl ⟨hostileStale, k', new, hok⟩ hsame⟩

/-- The bytes of an ELF header left on the stack. -/
def leftHeader : Stale where
  ehdr j := (elfHeader 0).getD j 0
  phdr _ _ := 0

/-- An empty file: with an ELF header left on the stack it is a program. -/
theorem elf_outcome_of_stack : ∃ vmm, kernelBoot bootedImage (fun _ _ => 0#64) = .ok vmm ∧
    elfOutcome (processCreateElf 4 leftHeader ⟨0, 0⟩ (fileKernel vmm [] (by decide)) [97] 0#32) ≠
      elfOutcome (processCreateElf 4 hostileStale ⟨0, 0⟩ (fileKernel vmm [] (by decide)) [97]
        0#32) := by
  obtain ⟨vmm, boot, hprocess⟩ := noSegments_process [] (by decide)
  refine ⟨vmm, boot, fun hsame => ?_⟩
  have hsize : (openedFile 0 (BitVec.ofNat 64 ([] : List Byte).length)).size.toNat < 8 ^ 11 := by
    decide
  have hstored := fileKernel_stored vmm [] (by decide)
  have hbuffer : ∀ j, headerBuffer leftHeader (fileKernel vmm [] (by decide)).disk.image
      (openedFile 0 (BitVec.ofNat 64 ([] : List Byte).length)) j = (elfHeader 0).getD j 0 := by
    intro j
    rw [headerBuffer, hstored.fileByte]
    rfl
  have hsupported : ∀ e ∈ identification, (elfHeader 0).getD e.1 0 = e.2 := by decide
  obtain ⟨k', new, hok⟩ := hprocess leftHeader
    ((fileHeader_supported hsize leftHeader).2 fun e he => (hbuffer e.1).trans (hsupported e he))
    (by
      rw [fileHeader_phnum hsize, littleEndian_two, hbuffer, hbuffer]
      rfl)
  obtain ⟨k₁, h₁, -⟩ := process_of_outcome hok hsame
  exact absurd (hostile_phoff hstored.found h₁) (by decide)

end CustomKernel.Filesystem
