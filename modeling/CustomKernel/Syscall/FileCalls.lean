/-
Module: CustomKernel.Syscall.FileCalls
Layer: Syscall
Purpose: The reads of `src/syscall/syscall.c`, with what they store: `sys_fread`, which is Linux call
  0, and the loop of Linux call 19, `readv`. The vector `readv` walks is given as the list of its
  entries: a buffer that overlaps the vector itself is not modelled.
Imports: CustomKernel.Filesystem.Ramdisk, CustomKernel.Library.ByteMemory
Trusted boundary: the translation of the source; no buffer overlaps the vector, the table of open
  files or the archive
Main exports: storeList, FileReturn, sysFread, LinuxIov, readvLoop, linuxReadv
-/
import CustomKernel.Filesystem.Ramdisk
import CustomKernel.Library.ByteMemory

namespace CustomKernel.Syscall

open CustomKernel.Filesystem ByteMemory

/-- The copy loop of `ramdisk_read`: bytes stored one after the other. -/
def storeList : (addr : Nat) → List Byte → ByteMem → ByteMem
  | _, [], mem => mem
  | addr, byte :: bytes, mem => storeList (addr + 1) bytes (Function.update mem addr byte)

/-- What a call returns, and the user's memory and the ramdisk behind it. -/
structure FileReturn where
  value : Int
  mem : ByteMem
  disk : Ramdisk

/-- `sys_fread`. -/
def sysFread (r : Ramdisk) (mem : ByteMem) (fd buf n : Word) : Option FileReturn := do
  let read ← ramdiskRead r (toInt32 fd) n
  some { value := read.value, mem := storeList buf.toNat read.bytes mem, disk := read.disk }

/-- `struct linux_iov`. -/
structure LinuxIov where
  base : Word
  len : Word
deriving DecidableEq, Repr

/-- The loop of `readv` over the rest of the vector. -/
def readvLoop (fd : Word) :
    List LinuxIov → (total : Int) → ByteMem → Ramdisk → Option FileReturn
  | [], total, mem, r => some { value := total, mem := mem, disk := r }
  | iov :: iovs, total, mem, r =>
      if iov.len = 0 then readvLoop fd iovs total mem r
      else do
        let read ← sysFread r mem fd iov.base iov.len
        if read.value ≤ 0 then
          some { read with value := if total = 0 then -1 else total }
        else if BitVec.ofInt 64 read.value < iov.len then
          some { read with value := total + read.value }
        else readvLoop fd iovs (total + read.value) read.mem read.disk

/-- Linux call 19, `readv`: the loop runs while `i < (int)arg3`. -/
def linuxReadv (r : Ramdisk) (mem : ByteMem) (fd : Word) (iov : List LinuxIov) (cnt : Word) :
    Option FileReturn :=
  readvLoop fd (iov.take (toInt32 cnt).toNat) 0 mem r

end CustomKernel.Syscall
