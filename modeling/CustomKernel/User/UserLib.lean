/-
Module: CustomKernel.User.UserLib
Layer: User
Purpose: The system call wrappers of `src/user/user_lib.c`, as the registers they load before the
  `syscall` instruction. A register that a wrapper does not name keeps what it had.
Imports: CustomKernel.Process.Cpu, CustomKernel.Syscall.Dispatch
Trusted boundary: the translation of the source
Main exports: UserCall, UserCall.number, UserCall.load, UserCall.reaches
-/
import CustomKernel.Process.Cpu
import CustomKernel.Syscall.Dispatch

namespace CustomKernel.User

open CustomKernel.Syscall

/-- A call of a wrapper; an `int` has 32 bits. -/
inductive UserCall where
  | uWrite (buf len : Word)
  | uSleep (ticks : Word)
  | uRead (buf len : Word)
  | uYield
  | uExit
  | uMapFb
  | uGetkey
  | uOpen (path : Word)
  | uFread (fd : BitVec 32) (buf len : Word)
  | uFseek (fd : BitVec 32) (off : Word) (whence : BitVec 32)
  | uFclose (fd : BitVec 32)
  | uFsize (fd : BitVec 32)
  | uSbrk (increment : Word)
  | uGettime
  | uSetpalette (palette768 : Word)
  | uSetFsBase (base : Word)
  | uGetRawKey (event : Word)
deriving DecidableEq, Repr

/-- The number a wrapper moves into `rax`. -/
def UserCall.number : UserCall → Word
  | .uWrite .. => 0
  | .uSleep .. => 4
  | .uRead .. => 5
  | .uYield => 2
  | .uExit => 1
  | .uMapFb => 6
  | .uGetkey => 177
  | .uOpen .. => 8
  | .uFread .. => 9
  | .uFseek .. => 10
  | .uFclose .. => 11
  | .uFsize .. => 12
  | .uSbrk .. => 13
  | .uGettime => 14
  | .uSetpalette .. => 15
  | .uSetFsBase .. => 158
  | .uGetRawKey .. => 18

/-- The argument registers of a wrapper. -/
def UserCall.arguments (c : Cpu) : UserCall → Cpu
  | .uWrite buf len => { c with rdi := buf, rsi := len }
  | .uSleep ticks => { c with rdi := ticks }
  | .uRead buf len => { c with rdi := buf, rsi := len }
  | .uYield => c
  | .uExit => c
  | .uMapFb => c
  | .uGetkey => c
  | .uOpen path => { c with rdi := path }
  | .uFread fd buf len => { c with rdi := fd.signExtend 64, rsi := buf, rdx := len }
  | .uFseek fd off whence =>
      { c with rdi := fd.signExtend 64, rsi := off, rdx := whence.signExtend 64 }
  | .uFclose fd => { c with rdi := fd.signExtend 64 }
  | .uFsize fd => { c with rdi := fd.signExtend 64 }
  | .uSbrk increment => { c with rdi := increment }
  | .uGettime => c
  | .uSetpalette palette768 => { c with rdi := palette768 }
  | .uSetFsBase base => { c with rdi := 0x1002, rsi := base }
  | .uGetRawKey event => { c with rdi := event }

/-- The registers at the `syscall` instruction of a wrapper. -/
def UserCall.load (call : UserCall) (c : Cpu) : Cpu := { call.arguments c with rax := call.number }

/-- The handler that a wrapper reaches, through `syscall`, `syscall_entry` and `syscall_dispatch`:
    `next` and `ret` are the addresses behind the `syscall` and behind the call of the
    dispatcher. -/
def UserCall.reaches (call : UserCall) (useLinuxAbi : Option (BitVec 8)) (m : Machine)
    (next ret : Word) : HandlerCall :=
  let m := (Machine.syscall { m with cpu := call.load m.cpu } next).syscallEntry ret
  syscallDispatch useLinuxAbi m.cpu.rdi m.cpu.rsi m.cpu.rdx m.cpu.rcx

end CustomKernel.User
