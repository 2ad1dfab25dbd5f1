/-
Module: CustomKernel.Proofs.SyscallAbis
Layer: Proofs
Purpose: The user library under the two system call tables. `syscall_entry` hands `rax`, `rdi`, `rsi`
  and `rdx` to the dispatcher as they are, so a wrapper reaches what its number stands for in the
  table of its process; the numbers on which the tables agree are those of six wrappers.
Imports: CustomKernel.User.UserLib, CustomKernel.Proofs.SyscallFrame
Trusted boundary: none (fully proved)
Main exports: UserCall.reaches_eq, user_lib_abis_agree_iff
-/
import CustomKernel.User.UserLib
import CustomKernel.Proofs.SyscallFrame

namespace CustomKernel.User

open CustomKernel.Syscall

/-- A wrapper reaches the entry of the table for its number and its argument registers. -/
theorem UserCall.reaches_eq (call : UserCall) (useLinuxAbi : Option (BitVec 8)) (m : Machine)
    (next ret : Word) :
    call.reaches useLinuxAbi m next ret = syscallDispatch useLinuxAbi call.number
      (call.arguments m.cpu).rdi (call.arguments m.cpu).rsi (call.arguments m.cpu).rdx := by
  obtain ⟨hnum, harg₁, harg₂, harg₃⟩ := Machine.syscallEntry_arguments
    (Machine.syscall { m with cpu := call.load m.cpu } next) ret
  unfold UserCall.reaches
  dsimp only
  rw [hnum, harg₁, harg₂, harg₃]
  rfl

/-- The numbers under which both tables reach the same handler with the same arguments. -/
def sharedNumbers : List Word := [4, 6, 13, 14, 15, 177]

theorem linux_eq_native {num : Word} (hnum : num ∈ sharedNumbers) (arg1 arg2 arg3 : Word) :
    linuxSyscallDispatch num arg1 arg2 arg3 = nativeSyscallDispatch num arg1 arg2 arg3 := by
  simp only [sharedNumbers, List.mem_cons, List.not_mem_nil, or_false] at hnum
  rcases hnum with rfl | rfl | rfl | rfl | rfl | rfl <;> rfl

/-- A wrapper reaches the same handler with the same arguments under both tables exactly if its
    number is one of the shared ones: `u_sleep`, `u_map_fb`, `u_getkey`, `u_sbrk`, `u_gettime` and
    `u_setpalette`. -/
theorem user_lib_abis_agree_iff (call : UserCall) (m : Machine) (next ret : Word) :
    call.reaches (some 1) m next ret = call.reaches (some 0) m next ret ↔
      call.number ∈ sharedNumbers := by
  rw [UserCall.reaches_eq, UserCall.reaches_eq]
  refine ⟨fun h => ?_, fun h => linux_eq_native h _ _ _⟩
  change linuxSyscallDispatch call.number _ _ _ = nativeSyscallDispatch call.number _ _ _ at h
  cases call with
  | uSleep ticks => exact (by decide : (4 : Word) ∈ sharedNumbers)
  | uMapFb => exact (by decide : (6 : Word) ∈ sharedNumbers)
  | uGetkey => exact (by decide : (177 : Word) ∈ sharedNumbers)
  | uSbrk increment => exact (by decide : (13 : Word) ∈ sharedNumbers)
  | uGettime => exact (by decide : (14 : Word) ∈ sharedNumbers)
  | uSetpalette palette768 => exact (by decide : (15 : Word) ∈ sharedNumbers)
  -- in all other cases the two handlers differ, whatever their arguments are
  | _ => cases h

/-- `u_write` of a process of Linux kind reads from a file whose descriptor is the buffer. -/
theorem user_lib_write_reads :
    ¬ ∀ (call : UserCall) (m : Machine) (next ret : Word),
      call.reaches (some 1) m next ret = call.reaches (some 0) m next ret := by
  intro hall
  have h := hall (.uWrite 0x8000300000 12) ⟨{}, fun _ => 0, 0xC0010000, 0⟩ 0x8000200010 0x100010
  rw [UserCall.reaches_eq, UserCall.reaches_eq] at h
  cases h

end CustomKernel.User
