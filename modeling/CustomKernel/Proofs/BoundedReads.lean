/-
Module: CustomKernel.Proofs.BoundedReads
Layer: Proofs
Purpose: A read stays inside its file. `ramdisk_read` compares `pos + len` with the size in 64 bits,
  so the length is cut down to what is left unless the sum wraps around; then it is not cut down at
  all. Every call keeps the positions of the open files inside the files, whatever its arguments,
  which carries the bound along every run.
Imports: CustomKernel.Proofs.FileDescriptors
Trusted boundary: as in Ramdisk: buffers are apart from the table of open files and from the archive
Main exports: PosInside, BoundedRead, ReadsInside, DiskCall, DiskReached, ramdiskRead_bounded,
  reads_bounded
-/
import CustomKernel.Proofs.FileDescriptors

namespace CustomKernel.Filesystem

/-! ### One read -/

/-- How much of the file a read of `len` bytes may deliver. -/
def available (f : FdEntry) (len : Word) : Nat := min len.toNat (f.size.toNat - f.pos.toNat)

/-- `m` bytes of the file, from the position on. -/
def fileSlice (image : Nat → Byte) (f : FdEntry) (m : Nat) : List Byte :=
  (List.range m).map fun j => image (f.data + f.pos.toNat + j)

/-- The read of `len` bytes from slot `i` comes back with what the file has of them, and with the
    position behind them and nothing else of the table changed. -/
def ReadsInside (r : Ramdisk) (i : Nat) (len : Word) (value : Int → Prop) : Prop :=
  let f := r.fds i
  let m := available f len
  f.pos.toNat + m ≤ f.size.toNat ∧
    ∃ v, value v ∧ ramdiskRead r ((i : Int) + 3) len =
      some ⟨v, fileSlice r.image f m, r.setEntry i { f with pos := BitVec.ofNat 64 (f.pos.toNat + m) }⟩

/-- It returns their number too. -/
def BoundedRead (r : Ramdisk) (i : Nat) (len : Word) : Prop :=
  ReadsInside r i len fun v => v = available (r.fds i) len

/-- The sum of position and length is right, or is not looked at. -/
def NoWrap (f : FdEntry) (len : Word) : Prop :=
  f.pos = f.size ∨ f.pos.toNat + len.toNat < 2 ^ 64

/-- The slot is open, and its position is inside the file. -/
structure OpenInside (r : Ramdisk) (i : Nat) : Prop where
  slot : i < maxFds
  inUse : (r.fds i).inUse = true
  inside : (r.fds i).pos ≤ (r.fds i).size

section OneRead

variable {r : Ramdisk} {i : Nat} {f : FdEntry} {len : Word}

theorem toNat_cutLen (hinside : f.pos ≤ f.size) (hsum : f.pos.toNat + len.toNat < 2 ^ 64) :
    (cutLen f len).toNat = available f len := by
  rw [BitVec.le_def] at hinside
  unfold cutLen available
  split
  · rename_i hcut
    rw [BitVec.lt_def, BitVec.toNat_add, Nat.mod_eq_of_lt hsum] at hcut
    rw [BitVec.toNat_sub]
    have := f.size.isLt
    omega
  · rename_i hcut
    rw [BitVec.lt_def, BitVec.toNat_add, Nat.mod_eq_of_lt hsum] at hcut
    omega

/-- Where the sum wraps around it is below the position, and `len` stays as it is. -/
theorem cutLen_wrapped (hinside : f.pos ≤ f.size) (hsum : 2 ^ 64 ≤ f.pos.toNat + len.toNat) :
    cutLen f len = len := by
  rw [BitVec.le_def] at hinside
  unfold cutLen
  rw [if_neg]
  rw [BitVec.lt_def, BitVec.toNat_add]
  have := f.pos.isLt
  have := len.isLt
  omega

theorem available_inside (hinside : f.pos ≤ f.size) (len : Word) :
    f.pos.toNat + available f len ≤ f.size.toNat := by
  rw [BitVec.le_def] at hinside
  unfold available
  omega

/-- Nothing is left at the end of the file. -/
theorem available_end (h : f.pos = f.size) (len : Word) : available f len = 0 := by
  rw [available, h, Nat.sub_self, Nat.min_zero]

theorem toInt32_of_lt {v : Word} (h : v.toNat < 2 ^ 31) : toInt32 v = v.toNat := by
  have hset : (v.setWidth 32).toNat = v.toNat := by
    rw [BitVec.toNat_setWidth]
    exact Nat.mod_eq_of_lt (Nat.lt_trans h (by decide))
  rw [toInt32, BitVec.toInt_eq_toNat_of_lt (by omega), hset]

/-- A read that meets the condition, with the value it returns. -/
theorem ramdiskRead_inside (hopen : OpenInside r i) (hwrap : NoWrap (r.fds i) len) :
    ReadsInside r i len fun v =>
      v = toInt32 (BitVec.ofNat 64 (available (r.fds i) len)) := by
  have hslot := openSlot_add_three hopen.slot hopen.inUse
  refine ⟨available_inside hopen.inside len, _, rfl, ?_⟩
  unfold ramdiskRead
  rw [hslot]
  dsimp only
  by_cases hend : (r.fds i).size ≤ (r.fds i).pos
  · -- at the end of the file
    have heq : (r.fds i).pos = (r.fds i).size := BitVec.le_antisymm hopen.inside hend
    rw [if_pos hend, available_end heq, Nat.add_zero, BitVec.ofNat_toNat, BitVec.setWidth_eq,
      Ramdisk.setEntry_self]
    rfl
  · have hsum : (r.fds i).pos.toNat + len.toNat < 2 ^ 64 := by
      cases hwrap with
      | inl heq => exact absurd (BitVec.le_of_eq heq.symm) hend
      | inr hsum => exact hsum
    have hcut := toNat_cutLen hopen.inside hsum
    have hle := available_inside hopen.inside len
    have hsize := (r.fds i).size.isLt
    have hword : cutLen (r.fds i) len = BitVec.ofNat 64 (available (r.fds i) len) := by
      rw [← hcut, BitVec.ofNat_toNat, BitVec.setWidth_eq]
    have hpos : (r.fds i).pos + cutLen (r.fds i) len =
        BitVec.ofNat 64 ((r.fds i).pos.toNat + available (r.fds i) len) := by
      rw [BitVec.ofNat_add, BitVec.ofNat_toNat, BitVec.setWidth_eq, hword]
    rw [if_neg hend, if_neg (by omega), hpos, hcut, hword]
    rfl

/-- The other way round, the copy of a length that wraps around does not come back. -/
theorem ramdiskRead_endless (hopen : OpenInside r i) (hwrap : ¬ NoWrap (r.fds i) len) :
    ramdiskRead r ((i : Int) + 3) len = none := by
  have hslot := openSlot_add_three hopen.slot hopen.inUse
  have hne : (r.fds i).pos ≠ (r.fds i).size := fun h => hwrap (.inl h)
  have hsum : 2 ^ 64 ≤ (r.fds i).pos.toNat + len.toNat := Nat.le_of_not_lt fun h => hwrap (.inr h)
  have hend : ¬ (r.fds i).size ≤ (r.fds i).pos := fun h => hne (BitVec.le_antisymm hopen.inside h)
  unfold ramdiskRead
  rw [hslot]
  dsimp only
  rw [if_neg hend, cutLen_wrapped hopen.inside hsum, if_pos hsum]

theorem ReadsInside.noWrap {value : Int → Prop} (hopen : OpenInside r i)
    (h : ReadsInside r i len value) : NoWrap (r.fds i) len := by
  by_contra hwrap
  obtain ⟨-, v, -, hread⟩ := h
  rw [ramdiskRead_endless hopen hwrap] at hread
  cases hread

/-- With files of less than 2 GiB the value returned is the number of bytes. -/
theorem ramdiskRead_bounded (hopen : OpenInside r i) (hsize : (r.fds i).size.toNat < 2 ^ 31)
    (hwrap : NoWrap (r.fds i) len) : BoundedRead r i len := by
  obtain ⟨hle, v, rfl, hread⟩ := ramdiskRead_inside hopen hwrap
  refine ⟨hle, _, ?_, hread⟩
  have hword : (BitVec.ofNat 64 (available (r.fds i) len)).toNat = available (r.fds i) len := by
    rw [BitVec.toNat_ofNat]
    exact Nat.mod_eq_of_lt (by omega)
  rw [toInt32_of_lt (by omega), hword]

end OneRead

/-! ### Runs -/

/-- The calls on the ramdisk, with any arguments. -/
inductive DiskCall where
  | openFile (path : List Byte)
  | read (fd : Int) (len : Word)
  | seek (fd : Int) (off : Word) (whence : Int)
  | close (fd : Int)
deriving DecidableEq, Repr

/-- What a call makes of the ramdisk; `none` if it does not come back. -/
def diskCall (r : Ramdisk) : DiskCall → Option Ramdisk
  | .openFile path => some (ramdiskOpen r path).2
  | .read fd len => (ramdiskRead r fd len).map ReadResult.disk
  | .seek fd off whence => some (ramdiskSeek r fd off whence).2
  | .close fd => some (ramdiskClose r fd)

/-- A read, if it is one, does not wrap around. -/
def DiskCall.Fits (r : Ramdisk) : DiskCall → Prop
  | .read fd len => ∀ i, openSlot r fd = some i → NoWrap (r.fds i) len
  | .openFile _ | .seek _ _ _ | .close _ => True

/-- The ramdisks that calls whose reads do not wrap around lead to. -/
inductive DiskReached (start : Ramdisk) : Ramdisk → Prop
  | start : DiskReached start start
  | call {r r' : Ramdisk} {call : DiskCall} :
      DiskReached start r → call.Fits r → diskCall r call = some r' → DiskReached start r'

/-- The positions of the open files are inside the files. -/
def PosInside (r : Ramdisk) : Prop :=
  ∀ i, (r.fds i).inUse = true → (r.fds i).pos ≤ (r.fds i).size

section Runs

variable {r r' : Ramdisk} {i : Nat} {f : FdEntry} {fd : Int} {len : Word}

/-- One entry is replaced by one that is all right. -/
theorem PosInside.set (h : PosInside r) (hf : f.inUse = true → f.pos ≤ f.size) :
    PosInside (r.setEntry i f) := by
  intro j huse
  by_cases hj : j = i
  · subst hj
    rw [Ramdisk.setEntry_fds_self] at huse ⊢
    exact hf huse
  · rw [Ramdisk.setEntry_fds_of_ne _ hj] at huse ⊢
    exact h j huse

/-- Wherever a seek goes, it ends inside the file. -/
theorem clampPos_le (f : FdEntry) (np : Word) : clampPos f np ≤ f.size := by
  have hcut : ∀ np : Word, (if f.size < np then f.size else np) ≤ f.size := by
    intro np
    split
    · exact BitVec.le_refl _
    · rename_i h
      exact BitVec.not_lt.1 h
  exact hcut _

theorem openSlot_some (h : openSlot r fd = some i) :
    i < maxFds ∧ (r.fds i).inUse = true ∧ fd = (i : Int) + 3 := by
  obtain ⟨hslot, huse⟩ := Option.filter_eq_some_iff.1 h
  unfold slotOf at hslot
  split at hslot
  · cases hslot
  · cases hslot
    exact ⟨by omega, by simpa using huse, by omega⟩

theorem PosInside.read (h : PosInside r) (hfits : (DiskCall.read fd len).Fits r)
    (hcall : diskCall r (.read fd len) = some r') : PosInside r' := by
  cases hslot : openSlot r fd with
  | none =>
      have hread : ramdiskRead r fd len = some ⟨-1, [], r⟩ := by rw [ramdiskRead, hslot]
      rw [diskCall, hread] at hcall
      cases hcall
      exact h
  | some i =>
      obtain ⟨hi, huse, rfl⟩ := openSlot_some hslot
      obtain ⟨hle, v, -, hread⟩ := ramdiskRead_inside ⟨hi, huse, h i huse⟩ (hfits i hslot)
      rw [diskCall, hread] at hcall
      cases hcall
      apply h.set
      intro _
      show BitVec.ofNat 64 _ ≤ (r.fds i).size
      rw [BitVec.le_def, BitVec.toNat_ofNat]
      exact Nat.le_trans (Nat.mod_le _ _) hle

theorem PosInside.seek (h : PosInside r) (off : Word) (whence : Int) :
    PosInside (ramdiskSeek r fd off whence).2 := by
  unfold ramdiskSeek
  split
  · exact h
  · dsimp only
    split
    · exact h
    · exact h.set fun _ => clampPos_le ..

theorem PosInside.openFile (h : PosInside r) (path : List Byte) :
    PosInside (ramdiskOpen r path).2 := by
  unfold ramdiskOpen
  split
  · exact h
  · split
    · exact h
    · exact h.set fun _ => BitVec.not_lt.1 BitVec.not_lt_zero

theorem PosInside.close (h : PosInside r) (fd : Int) : PosInside (ramdiskClose r fd) := by
  unfold ramdiskClose
  split
  · exact h
  · exact h.set fun huse => by cases huse

theorem PosInside.call {call : DiskCall} (h : PosInside r) (hfits : call.Fits r)
    (hcall : diskCall r call = some r') : PosInside r' := by
  cases call with
  | openFile path =>
      cases hcall
      exact h.openFile path
  | read fd len => exact h.read hfits hcall
  | seek fd off whence =>
      cases hcall
      exact h.seek off whence
  | close fd =>
      cases hcall
      exact h.close fd

theorem PosInside.run {start : Ramdisk} (h : PosInside start) (hreached : DiskReached start r) :
    PosInside r := by
  induction hreached with
  | start => exact h
  | call _ hfits hcall ih => exact ih.call hfits hcall

end Runs

/-- The read of any length from an open file of less than 2 GiB with its position inside delivers
    what is left of the file, and no more, exactly if `pos + len` does not wrap around or nothing is
    left. In every run whose reads all meet this, the positions stay inside the files, and a read of
    any file stays inside it on the same condition. -/
theorem reads_bounded (r : Ramdisk) (i : Nat) (hi : i < maxFds) (huse : (r.fds i).inUse = true) :
    ((r.fds i).pos ≤ (r.fds i).size → (r.fds i).size.toNat < 2 ^ 31 → ∀ len : Word,
      (BoundedRead r i len ↔
        (r.fds i).pos = (r.fds i).size ∨ (r.fds i).pos.toNat + len.toNat < 2 ^ 64)) ∧
    (∀ start : Ramdisk, PosInside start → DiskReached start r →
      (r.fds i).pos ≤ (r.fds i).size ∧ ∀ len, (ReadsInside r i len (fun _ => True) ↔
        (r.fds i).pos = (r.fds i).size ∨ (r.fds i).pos.toNat + len.toNat < 2 ^ 64)) := by
  constructor
  · intro hinside hsize len
    constructor
    · exact ReadsInside.noWrap ⟨hi, huse, hinside⟩
    · exact ramdiskRead_bounded ⟨hi, huse, hinside⟩ hsize
  · intro start hstart hreached
    have hinside := hstart.run hreached i huse
    refine ⟨hinside, fun len => ⟨ReadsInside.noWrap ⟨hi, huse, hinside⟩, fun hwrap => ?_⟩⟩
    obtain ⟨hle, v, -, hread⟩ := ramdiskRead_inside ⟨hi, huse, hinside⟩ hwrap
    exact ⟨hle, v, trivial, hread⟩

/-- The file of `oneFile` opened, with its position at the second of its three bytes. -/
def secondByte : Ramdisk :=
  oneFile.setEntry 0 { data := 512, size := 3, pos := 1, inUse := true }

theorem secondByte_reached : DiskReached oneFile secondByte := by
  have hfind : findFile oneFile.image oneFile.length [97] (oneFile.length / 512 + 1) 0 =
      some (0, 3#64) := by decide +kernel
  let opened := oneFile.setEntry 0 { data := 512, size := 3, pos := 0, inUse := true }
  have hopen : diskCall oneFile (.openFile [97]) = some opened := by
    rw [diskCall, ramdiskOpen, hfind]
    rfl
  have hseek : diskCall opened (.seek 3 1 0) = some secondByte := by
    show some (opened.setEntry 0 { data := 512, size := 3, pos := 1, inUse := true }) = _
    rw [secondByte, setEntry_setEntry]
  have hreached : DiskReached oneFile opened :=
    .call .start (show (DiskCall.openFile [97]).Fits oneFile from trivial) hopen
  exact .call hreached (show (DiskCall.seek 3 1 0).Fits opened from trivial) hseek

/-- Two bytes are left, and a read of them all is one of the reads of a run. -/
theorem reads_bounded_second_byte :
    BoundedRead secondByte 0 100 ∧ ReadsInside secondByte 0 100 fun _ => True := by
  have hstart : PosInside oneFile := fun _ huse => by cases huse
  have hbounded := reads_bounded secondByte 0 (by decide) rfl
  constructor
  · exact (hbounded.1 (by decide) (by decide) 100).2 (by decide)
  · exact ((hbounded.2 oneFile hstart secondByte_reached).2 100).2 (by decide)

/-- A read of the largest length from there does not stop at the end of the file. -/
theorem read_past_end : DiskReached oneFile secondByte ∧
    secondByte.fds 0 = { data := 512, size := 3, pos := 1, inUse := true } ∧
    ramdiskRead secondByte 3 0xFFFFFFFFFFFFFFFF#64 = none ∧
    ¬ BoundedRead secondByte 0 0xFFFFFFFFFFFFFFFF#64 := by
  have hopen : OpenInside secondByte 0 := ⟨by decide, rfl, by decide⟩
  have hwrap : ¬ NoWrap (secondByte.fds 0) 0xFFFFFFFFFFFFFFFF#64 := by
    unfold NoWrap
    decide
  exact ⟨secondByte_reached, rfl, ramdiskRead_endless hopen hwrap, fun h => hwrap (h.noWrap hopen)⟩

end CustomKernel.Filesystem
