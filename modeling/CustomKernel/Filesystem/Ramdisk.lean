/-
Module: CustomKernel.Filesystem.Ramdisk
Layer: Filesystem
Purpose: The ramdisk `src/filesystem/ramdisk.c`: the walk over the USTAR archive linked into the
  kernel and the table of open files. Positions in the archive are offsets from
  `_binary_initrd_tar_start`. A path is the bytes of a C string without its terminator.
Imports: CustomKernel.Process.Process
Trusted boundary: the translation of the source; a buffer that is read into is apart from the table
  of open files and from the archive
Main exports: FdEntry, Ramdisk, octal, pathMatch, findFile, ramdiskInit, ramdiskOpen, ramdiskRead,
  ramdiskSeek, ramdiskClose, ramdiskSize
-/
import CustomKernel.Process.Process

namespace CustomKernel.Filesystem

abbrev Byte := BitVec 8

/-- `fd_entry_t`. -/
structure FdEntry where
  /-- Where the contents start. -/
  data : Nat := 0
  size : Word := 0
  pos : Word := 0
  inUse : Bool := false
deriving DecidableEq, Repr, Inhabited

/-- `MAX_FDS`. -/
abbrev maxFds : Nat := 64

/-- The archive and the table of open files. -/
structure Ramdisk where
  /-- Memory from `_binary_initrd_tar_start` on. Nothing writes to the archive, and no bytes behind
      it are read unless its headers are wrong. -/
  image : Nat → Byte
  /-- The distance to `_binary_initrd_tar_end`. -/
  length : Nat
  fds : Nat → FdEntry

/-! ### The archive -/

/-- `octal`, with the digits read so far in `v`. -/
def octal (image : Nat → Byte) : (s n : Nat) → (v : Word) → Word
  | _, 0, v => v
  | s, n + 1, v =>
      -- from '0' to '7'
      if 48 ≤ image s ∧ image s ≤ 55 then
        octal image (s + 1) n (v * 8 + (image s - 48).setWidth 64)
      else v

/-- The loop of `path_match` and the test behind it. -/
def pathMatchLoop (image : Nat → Byte) : (arc : Nat) → (want : List Byte) → Bool
  | arc, [] => image arc = 0
  | arc, w :: want =>
      if image arc ≠ 0 ∧ w ≠ 0 ∧ image arc = w then pathMatchLoop image (arc + 1) want
      else image arc = 0 ∧ w = 0

/-- `path_match`: a leading `./` of the archive's name and a leading `/` of the path do not count. -/
def pathMatch (image : Nat → Byte) (arc : Nat) (want : List Byte) : Bool :=
  pathMatchLoop image
    (if image arc = 46 ∧ image (arc + 1) = 47 then arc + 2 else arc)
    (if want.head? = some 47 then want.tail else want)

/-- The walk of `ramdisk_open`: the header of the first regular file with the path, and its size.
    Every round moves on by a header at least. -/
def findFile (image : Nat → Byte) (length : Nat) (path : List Byte) :
    (budget p : Nat) → Option (Nat × Word)
  | 0, _ => none
  | budget + 1, p =>
      if p + 512 ≤ length ∧ image p ≠ 0 then
        let size := octal image (p + 124) 11 0
        let type := image (p + 156)
        if (type = 48 ∨ type = 0) ∧ pathMatch image p path then some (p, size)
        else findFile image length path budget (p + (512 + ((size + 511) &&& ~~~511)).toNat)
      else none

/-! ### Open files -/

/-- `ramdisk_init`. -/
def ramdiskInit (r : Ramdisk) : Ramdisk :=
  { r with fds := fun i => if i < maxFds then { r.fds i with inUse := false } else r.fds i }

/-- The search for a free slot. -/
def freeSlot (fds : Nat → FdEntry) : Option Nat :=
  (List.range maxFds).find? fun i => (fds i).inUse = false

/-- `ramdisk_open`. -/
def ramdiskOpen (r : Ramdisk) (path : List Byte) : Int × Ramdisk :=
  match findFile r.image r.length path (r.length / 512 + 1) 0 with
  | none => (-1, r)
  | some (p, size) =>
      match freeSlot r.fds with
      | none => (-1, r)
      | some i =>
          (i + 3,
            { r with
              fds := Function.update r.fds i
                { data := p + 512, size := size, pos := 0, inUse := true } })

/-- The slot of a descriptor: `fd -= 3` and the range check. -/
def slotOf (fd : Int) : Option Nat :=
  if fd - 3 < 0 ∨ fd - 3 ≥ maxFds then none else some (fd - 3).toNat

/-- The slot of a descriptor that is open. -/
def openSlot (r : Ramdisk) (fd : Int) : Option Nat :=
  (slotOf fd).filter fun i => (r.fds i).inUse

/-- The conversion to `int`. -/
def toInt32 (v : Word) : Int := (v.setWidth 32).toInt

/-- What a read returns, and the bytes it stores in the buffer. -/
structure ReadResult where
  value : Int
  bytes : List Byte
  disk : Ramdisk

/-- `len` cut down to what is left of the file. -/
def cutLen (f : FdEntry) (len : Word) : Word :=
  if f.size < f.pos + len then f.size - f.pos else len

/-- `ramdisk_read`. Where `f->pos + len` wraps around, `len` is not cut down, and the copy runs
    through the whole address space: it does not come back. -/
def ramdiskRead (r : Ramdisk) (fd : Int) (len : Word) : Option ReadResult :=
  match openSlot r fd with
  | none => some ⟨-1, [], r⟩
  | some i =>
      let f := r.fds i
      if f.size ≤ f.pos then some ⟨0, [], r⟩
      else if 2 ^ 64 ≤ f.pos.toNat + (cutLen f len).toNat then none
      else
        some
          { value := toInt32 (cutLen f len)
            bytes := (List.range (cutLen f len).toNat).map fun j =>
              r.image (f.data + f.pos.toNat + j)
            disk := { r with
              fds := Function.update r.fds i { f with pos := f.pos + cutLen f len } } }

/-- The position a seek asks for, as a 64-bit integer. -/
def seekTarget (f : FdEntry) (off : Word) (whence : Int) : Option Word :=
  if whence = 0 then some off
  else if whence = 1 then some (f.pos + off)
  else if whence = 2 then some (f.size + off)
  else none

/-- The position it gets: not in front of the file and not behind it. -/
def clampPos (f : FdEntry) (np : Word) : Word :=
  let np := if np.toInt < 0 then 0 else np
  if f.size < np then f.size else np

/-- `ramdisk_seek`. -/
def ramdiskSeek (r : Ramdisk) (fd : Int) (off : Word) (whence : Int) : Int × Ramdisk :=
  match openSlot r fd with
  | none => (-1, r)
  | some i =>
      let f := r.fds i
      match seekTarget f off whence with
      | none => (-1, r)
      | some np =>
          (toInt32 (clampPos f np),
            { r with fds := Function.update r.fds i { f with pos := clampPos f np } })

/-- `ramdisk_close`. -/
def ramdiskClose (r : Ramdisk) (fd : Int) : Ramdisk :=
  match slotOf fd with
  | none => r
  | some i => { r with fds := Function.update r.fds i { r.fds i with inUse := false } }

/-- `ramdisk_size`. -/
def ramdiskSize (r : Ramdisk) (fd : Int) : Int :=
  match openSlot r fd with
  | none => -1
  | some i => (r.fds i).size.toInt

end CustomKernel.Filesystem
