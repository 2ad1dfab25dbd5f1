/-
Module: CustomKernel.Syscall.Dispatch
Layer: Syscall
Purpose: The two dispatch tables of `src/syscall/syscall.c`: which handler a call number reaches, and
  with which of the three arguments, under the kernel's own numbers and under those of Linux. The
  cases of the Linux table that have their code in the table itself count as handlers. The line
  printed at the first Linux call is left out.
Imports: CustomKernel.Process.Process
Trusted boundary: the translation of the source
Main exports: HandlerCall, nativeSyscallDispatch, linuxSyscallDispatch, syscallDispatch
-/
import CustomKernel.Process.Process

namespace CustomKernel.Syscall

/-- A call of a handler, with its arguments. -/
inductive HandlerCall where
  | sysWrite (strPtr len : Word)
  | sysExit (exitCode : Word)
  | sysYield
  | sysGetpid
  | sysSleep (ticks : Word)
  | sysRead (bufPtr len : Word)
  | sysMapFb
  | sysGetkey
  | sysOpen (path : Word)
  | sysFread (fd buf n : Word)
  | sysFseek (fd off w : Word)
  | sysFclose (fd : Word)
  | sysFsize (fd : Word)
  | sysSbrk (increment : Word)
  | sysGettime
  | sysSetpalette (ptr : Word)
  | sysSetFsBase (base : Word)
  | sysGetRawKey (bufPtr : Word)
  /-- Linux call 9. -/
  | mmap (len : Word)
  /-- Linux call 12. -/
  | brk (target : Word)
  /-- Linux call 19. -/
  | readv (fd iov cnt : Word)
  /-- Linux call 20. -/
  | writev (iov cnt : Word)
  /-- No handler: the table returns a value of its own. -/
  | value (result : Word)
deriving DecidableEq, Repr

/-- `linux_syscall_dispatch`. -/
def linuxSyscallDispatch (num arg1 arg2 arg3 : Word) : HandlerCall :=
  match num.toNat with
  | 0 => .sysFread arg1 arg2 arg3
  | 1 => .sysWrite arg2 arg3
  | 2 => .sysOpen arg1
  | 3 => .sysFclose arg1
  | 5 => .value (-1)
  | 7 => .value 0
  | 8 => .sysFseek arg1 arg2 arg3
  | 9 => .mmap arg2
  | 10 => .value 0
  | 11 => .value 0
  | 12 => .brk arg1
  | 16 => .value 0
  | 19 => .readv arg1 arg2 arg3
  | 20 => .writev arg2 arg3
  | 28 => .value 0
  -- `arch_prctl` with `ARCH_SET_FS`
  | 158 => if arg1 = 0x1002 then .sysSetFsBase arg2 else .value (-1)
  | 202 => .value 0
  | 60 => .sysExit arg1
  | 231 => .sysExit arg1
  | 257 => .sysOpen arg2
  | 4 => .sysSleep arg1
  | 6 => .sysMapFb
  | 177 => .sysGetkey
  | 13 => .sysSbrk arg1
  | 14 => .sysGettime
  | 15 => .sysSetpalette arg1
  | 18 => .sysGetRawKey arg1
  | _ => .value (-1)

/-- The `switch` of `syscall_dispatch`. -/
def nativeSyscallDispatch (num arg1 arg2 arg3 : Word) : HandlerCall :=
  match num.toNat with
  | 0 => .sysWrite arg1 arg2
  | 1 => .sysExit arg1
  | 2 => .sysYield
  | 3 => .sysGetpid
  | 4 => .sysSleep arg1
  | 5 => .sysRead arg1 arg2
  | 6 => .sysMapFb
  | 177 => .sysGetkey
  | 8 => .sysOpen arg1
  | 9 => .sysFread arg1 arg2 arg3
  | 10 => .sysFseek arg1 arg2 arg3
  | 11 => .sysFclose arg1
  | 12 => .sysFsize arg1
  | 13 => .sysSbrk arg1
  | 14 => .sysGettime
  | 15 => .sysSetpalette arg1
  | 16 => .sysSetFsBase arg1
  | _ => .value (-1)

/-- `syscall_dispatch`: `useLinuxAbi` is the field of `scheduler_current()`, if there is a current
    process. -/
def syscallDispatch (useLinuxAbi : Option (BitVec 8)) (num arg1 arg2 arg3 : Word) : HandlerCall :=
  match useLinuxAbi with
  | some abi =>
      if abi ≠ 0 then linuxSyscallDispatch num arg1 arg2 arg3
      else nativeSyscallDispatch num arg1 arg2 arg3
  | none => nativeSyscallDispatch num arg1 arg2 arg3

end CustomKernel.Syscall
