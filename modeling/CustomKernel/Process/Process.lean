/-
Module: CustomKernel.Process.Process
Layer: Process
Purpose: The process descriptor `process_t` of `src/process/process.h`. A pointer to a descriptor is a
  `Nat`, with 0 for `NULL`; the descriptors themselves are kept in a map from addresses, the way the
  kernel heap keeps them. The pid, the saved registers and the user stack pointer are not read by
  the functions modelled here and are left out.
Imports: Mathlib.Tactic
Trusted boundary: the translation of the source
Main exports: Word, ProcessState, WaitReason, Process
-/
import Mathlib.Tactic

namespace CustomKernel

/-- A 64-bit machine word. -/
abbrev Word := BitVec 64

/-- `process_state_t`. -/
inductive ProcessState where
  | ready
  | running
  | blocked
  | dead
deriving DecidableEq, Repr, Inhabited

/-- `wait_reason_t`. -/
inductive WaitReason where
  | none
  | sleep
  | key
deriving DecidableEq, Repr, Inhabited

/-- `process_t`. -/
structure Process where
  state : ProcessState := .ready
  /-- Top of the process's own kernel stack. -/
  kernelStack : Word := 0
  /-- Physical address of its PML4, or 0 for a kernel process. -/
  pageTable : Word := 0
  wakeTick : Word := 0
  waitReason : WaitReason := .none
  next : Nat := 0
  heapStart : Word := 0
  heapEnd : Word := 0
deriving DecidableEq, Repr, Inhabited

/-- Storing through a descriptor pointer. -/
def setProcess (procs : Nat → Process) (p : Nat) (proc : Process) : Nat → Process :=
  Function.update procs p proc

@[simp] theorem setProcess_self (procs : Nat → Process) (p : Nat) (proc : Process) :
    setProcess procs p proc p = proc :=
  Function.update_self ..

@[simp] theorem setProcess_of_ne {procs : Nat → Process} {p q : Nat} (h : q ≠ p)
    (proc : Process) : setProcess procs p proc q = procs q :=
  Function.update_of_ne h ..

end CustomKernel
