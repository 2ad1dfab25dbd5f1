/-
Module: CustomKernel.Proofs.AllocationSizes
Layer: Proofs
Purpose: The size of what the user allocator hands out, in a process that also calls `mmap` and `brk`.
  A request that neither wraps around nor becomes negative as an increment of `u_sbrk` gets a block of
  its size in memory obtained from `u_sbrk`, and the break does not move down; the largest request
  gets a block of no bytes.
Imports: CustomKernel.Proofs.MallocCoexistence, CustomKernel.Proofs.ReallocContents
Trusted boundary: a `brk` that lowers the break is not a step of these runs
Main exports: MallocCall.request, call_sizes, AnyCoexistStep, RequestsFit, AllocationHolds,
  user_allocation_sizes
-/
import CustomKernel.Proofs.MallocCoexistence
import CustomKernel.Proofs.ReallocContents

namespace CustomKernel.User

open ByteMemory BlockList StepSystem CustomKernel.Memory CustomKernel.Syscall

/-! ### The allocator alone -/

/-- The number of bytes an allocation is asked for, as an integer. -/
def MallocCall.request : MallocCall → Option Nat
  | .malloc size => some size.toNat
  | .calloc nmemb size => some (nmemb.toNat * size.toNat)
  | .realloc _ size => some size.toNat
  | .free _ => none
  | .write _ _ => none

section Sizes

variable {κ : Type} {Env : κ → Nat → Prop} {sbrk : Sbrk κ} {lo fuel n : Nat} {h h' : UserHeap κ}
  {s s' : BlockHeap} {size ptr : Word}

/-- A step does not move the break down. -/
theorem BlockStep.top_le {event : BlockEvent} (step : BlockStep s event s') : s.top ≤ s'.top := by
  rcases step.owned with ⟨htop, -⟩ | ⟨-, htop, -⟩ <;> omega

/-- What an allocation of the machine returns is a live block. -/
theorem allocated_payload (hne : ptr ≠ 0#64) (hn : n ≤ (align8 size).toNat)
    (h : (ptr = 0#64 ∧ Sim Env lo h' s) ∨ ∃ a s', BlockStep s (.allocate a) s' ∧
      ptr.toNat = a + 32 ∧ Sim Env lo h' s' ∧ s'.Holds a (align8 size).toNat) :
    ∃ m, n ≤ m ∧ h'.Payload ptr m := by
  rcases h with ⟨hzero, -⟩ | ⟨a, s', -, hptr, hsim, c, hc, rfl, hused, hbig⟩
  · exact absurd hzero hne
  · exact ⟨c.size, Nat.le_trans hn hbig,
      (hsim.payload_iff ptr _).2 ⟨c, mem_inUse.2 ⟨hc, hused⟩, hptr, rfl⟩⟩

theorem le_align8 (hsize : size.toNat + 39 < 2 ^ 63) : size.toNat ≤ (align8 size).toNat := by
  rw [toNat_align8 hsize]
  omega

/-- A request that fits gets its size. -/
theorem call_sizes {program program' : MallocState κ} {call : MallocCall} (law : SbrkLaw Env sbrk)
    (sim : Sim Env lo program.heap s) (hlive : LivePointers program.live s)
    (hallowed : call.Allowed program) (hrun : call.run sbrk fuel program = some (program', ptr))
    (hrequest : call.request = some n) (hne : ptr ≠ 0#64) :
    ∃ m, n ≤ m ∧ program'.heap.Payload ptr m := by
  cases call with
  | malloc size =>
      cases hrequest
      obtain ⟨⟨heap, ptr'⟩, hmalloc, hrun⟩ := Option.bind_eq_some_iff.1 hrun
      cases hrun
      exact allocated_payload hne (le_align8 hallowed) (malloc_sim law sim hallowed hmalloc)
  | calloc nmemb size =>
      cases hrequest
      obtain ⟨⟨heap, ptr'⟩, hcalloc, hrun⟩ := Option.bind_eq_some_iff.1 hrun
      cases hrun
      have hfits : nmemb.toNat * size.toNat + 39 < 2 ^ 63 := hallowed
      have htotal : (nmemb * size).toNat = nmemb.toNat * size.toNat := by
        rw [BitVec.toNat_mul, Nat.mod_eq_of_lt (by omega)]
      refine allocated_payload hne ?_ (calloc_sim law sim hallowed hcalloc)
      rw [← htotal]
      exact le_align8 (by omega)
  | realloc old size =>
      cases hrequest
      obtain ⟨⟨heap, ptr'⟩, hrealloc, hrun⟩ := Option.bind_eq_some_iff.1 hrun
      cases hrun
      obtain ⟨hold, hsize⟩ := hallowed
      by_cases hnull : old = 0#64
      · rw [realloc, if_pos hnull] at hrealloc
        exact allocated_payload hne (le_align8 hsize) (malloc_sim law sim hsize hrealloc)
      by_cases hzero : size = 0#64
      · -- the call frees the block and returns `NULL`
        rw [realloc, if_neg hnull, if_pos hzero] at hrealloc
        cases hrealloc
        exact absurd rfl hne
      obtain ⟨_, ⟨c, hc, rfl⟩, haddr⟩ := (hlive old).1 (hold.resolve_left hnull)
      exact (realloc_keeps law sim hsize hzero hc haddr hrealloc).fits hne
  | free old => cases hrequest
  | write addr byte => cases hrequest

end Sizes

/-! ### In a process with `mmap` and `brk` -/

/-- The process after a call of the allocator, with what the call obtained from `u_sbrk`. -/
def Coexistence.called (s : Coexistence) (program : MallocState HeapKernel) : Coexistence :=
  { s with
    program := program
    obtained := if s.brk < program.heap.kernel.brk then
        (s.brk, program.heap.kernel.brk) :: s.obtained
      else s.obtained }

/-- A call that returns, with requests of any size; `brk` raises the break. -/
def AnyCoexistStep (s : Coexistence) : ProcessCall → Coexistence → Prop
  | .heap call, s' => call.OnLive s.program ∧ ∃ fill fuel program result,
      call.run (kernelSbrk fill) fuel s.program = some (program, result) ∧ s' = s.called program
  | .mmap len, s' => CoexistStep s (.mmap len) s'
  | .brk target, s' => CoexistStep s (.brk target) s'
  | .write addr byte, s' => CoexistStep s (.write addr byte) s'

/-- The request fits, and the call keeps the allocator to its memory. -/
def RequestsFit (s : Coexistence) (call : ProcessCall) : Prop :=
  (∀ request, call = .heap request → request.Fits) ∧ KeepsApart s call

theorem AnyCoexistStep.coexist {s s' : Coexistence} {call : ProcessCall} (hfits : RequestsFit s call)
    (step : AnyCoexistStep s call s') : CoexistStep s call s' := by
  cases call with
  | heap call =>
      obtain ⟨hlive, fill, fuel, program, result, hrun, rfl⟩ := step
      exact ⟨MallocCall.allowed hlive (hfits.1 call rfl), fill, fuel, program, result, hrun, rfl⟩
  | mmap len => exact step
  | brk target => exact step
  | write addr byte => exact step

/-- A call of the allocator in this state does not move the break down, and what it returns is a live
    block with room for the request, all of it in memory obtained from `u_sbrk`. -/
def AllocationHolds (s : Coexistence) (call : MallocCall) : Prop :=
  ∀ fill fuel program ptr, call.OnLive s.program →
    call.run (kernelSbrk fill) fuel s.program = some (program, ptr) →
    s.brk ≤ program.heap.kernel.brk ∧
      ∀ n, call.request = some n → ptr ≠ 0#64 →
        ∃ m, n ≤ m ∧ program.heap.Payload ptr m ∧
          ∀ x, ptr.toNat ≤ x → x < ptr.toNat + m → InRegions (s.called program).obtained x

theorem CoexistInv.allocationHolds {lo : Nat} {s : Coexistence} {b : BlockHeap}
    (inv : CoexistInv lo s b) {call : MallocCall} (hfits : RequestsFit s (.heap call)) :
    AllocationHolds s call := by
  intro fill fuel program ptr hlive hrun
  have hallowed := MallocCall.allowed hlive (hfits.1 call rfl)
  have hstep : CoexistStep s (.heap call) (s.called program) :=
    ⟨hallowed, fill, fuel, program, ptr, hrun, rfl⟩
  constructor
  · obtain ⟨events, b', run, hsim, -, -⟩ :=
      call_sim (kernelSbrk_law fill) inv.sim inv.live hallowed hrun
    have htop := run.invariant (fun t => b.top ≤ t.top) (fun _ _ _ h step => Nat.le_trans h step.top_le)
      (Nat.le_refl _)
    have hbrk : program.heap.kernel.brk = b'.top := hsim.env.2
    rw [hbrk, inv.brk_eq]
    exact htop
  · intro n hrequest hne
    obtain ⟨m, hm, hpayload⟩ :=
      call_sizes (kernelSbrk_law fill) inv.sim inv.live hallowed hrun hrequest hne
    refine ⟨m, hm, hpayload, fun x hlo hhi => ?_⟩
    obtain ⟨b', inv'⟩ := inv.heapCall hfits.2 hstep
    obtain ⟨c, hc, hptr, rfl⟩ := (inv'.sim.payload_iff ptr m).1 hpayload
    rw [← inv'.owned]
    refine inv'.covered c (mem_inUse.1 hc).1 x (by omega) ?_
    unfold Block.stop
    omega

/-- In every sequence of calls whose requests fit, and in which what is freed touches the free blocks
    next to it, a further such call of the allocator returns a block of the size asked for. -/
theorem user_allocation_sizes (image : BootImage) (ram : PhysMem) (vmm₀ : Vmm)
    (boot : kernelBoot image ram = .ok vmm₀) (setup : List SpaceCall) (spaces : Spaces)
    (hsetup : Run (SpaceStep image) ⟨vmm₀, []⟩ setup spaces) (proc : Process)
    (hspace : proc.pageTable ∈ spaces.created) (hstart : proc.heapEnd = proc.heapStart)
    (haligned : proc.heapStart.toNat % 4096 = 0)
    (hindex : 2 ^ 39 ≤ proc.heapStart.toNat ∧ proc.heapStart.toNat < 2 ^ 40) (mem : ByteMem)
    (calls : List ProcessCall) (s : Coexistence)
    (run : Run (Guarded RequestsFit AnyCoexistStep) ⟨⟨⟨⟨spaces.vmm, proc⟩, mem, 0#64⟩, []⟩, [], []⟩
      calls s) (call : MallocCall) (hfits : RequestsFit s (.heap call)) : AllocationHolds s call := by
  have hinv := HeapInv.init boot hsetup hspace hstart ⟨haligned, hindex.1, hindex.2⟩
  obtain ⟨b, inv⟩ := run.invariant (fun s => ∃ b, CoexistInv (HeapKernel.mk spaces.vmm proc).brk s b)
    (fun _ _ _ ⟨_, inv⟩ step => inv.step ⟨step.1.2, step.2.coexist step.1⟩)
    ⟨_, .init (k := ⟨spaces.vmm, proc⟩) hinv mem⟩
  exact inv.allocationHolds hfits

/-! ### Concrete requests -/

theorem CoexistStep.any {s s' : Coexistence} {call : ProcessCall}
    (step : Guarded KeepsApart CoexistStep s call s') : Guarded RequestsFit AnyCoexistStep s call s' := by
  obtain ⟨hguard, step⟩ := step
  cases call with
  | heap call =>
      obtain ⟨hallowed, hrest⟩ := step
      have hboth : call.OnLive s.program ∧ call.Fits := by
        cases call with
        | malloc size => exact ⟨trivial, hallowed⟩
        | calloc nmemb size => exact ⟨trivial, hallowed⟩
        | realloc ptr size => exact hallowed
        | free ptr => exact ⟨hallowed, trivial⟩
        | write addr byte => exact ⟨hallowed, trivial⟩
      exact ⟨⟨fun _ heq => by cases heq; exact hboth.2, hguard⟩, hboth.1, hrest⟩
  | mmap len => exact ⟨⟨fun _ heq => (nomatch heq), hguard⟩, step⟩
  | brk target => exact ⟨⟨fun _ heq => (nomatch heq), hguard⟩, step⟩
  | write addr byte => exact ⟨⟨fun _ heq => (nomatch heq), hguard⟩, step⟩

/-- A small request behind two blocks and a mapping. -/
theorem user_allocation_sizes_two_blocks :
    ∃ k : HeapKernel, AllocationHolds (twoBlocks k) (.malloc 8#64) := by
  obtain ⟨vmm₀, spaces, proc, k, boot, hsetup, hspace, hend, hstart, run⟩ := twoBlocks_reached
  refine ⟨k, user_allocation_sizes bootedImage (fun _ _ => 0#64) vmm₀ boot [.create] spaces hsetup
    proc hspace hend (by rw [hstart]; decide) (by rw [hstart]; decide) _ _ _
    (run.imp fun _ _ _ => CoexistStep.any) _ ⟨fun _ heq => ?_, fun _ _ hrelease => hrelease.elim⟩⟩
  cases heq
  show (8#64 : Word).toNat + 39 < 2 ^ 63
  decide

/-- The largest request is rounded to 0, and the first block of the heap has no bytes. -/
theorem largest_request_gets_nothing :
    ∃ (vmm₀ : Vmm) (spaces : Spaces) (proc : Process),
      kernelBoot bootedImage (fun _ _ => 0#64) = .ok vmm₀ ∧
      Run (SpaceStep bootedImage) ⟨vmm₀, []⟩ [.create] spaces ∧ proc.pageTable ∈ spaces.created ∧
      proc.heapEnd = proc.heapStart ∧ proc.heapStart = runBase ∧
      ¬ AllocationHolds ⟨⟨⟨⟨spaces.vmm, proc⟩, fun _ => 0, 0#64⟩, []⟩, [], []⟩
        (.malloc 0xFFFFFFFFFFFFFFFF#64) := by
  obtain ⟨vmm₀, ⟨vmm₁, created⟩, proc, boot, hsetup, hspace, hend, hstart, hinv, hcard⟩ :=
    booted_process
  refine ⟨vmm₀, _, proc, boot, hsetup, hspace, hend, hstart, fun hall => ?_⟩
  dsimp only at hinv hcard hall
  obtain ⟨k, hsbrk, -, -, -⟩ := kernelSbrk_ok (k := ⟨vmm₁, proc⟩)
    (blkSizeof + align8 0xFFFFFFFFFFFFFFFF#64) hinv (by decide) (Nat.le_trans (by decide) hcard)
    (fun _ => 0) (fun _ => 0)
  have hbrk : (HeapKernel.mk vmm₁ proc).brk = runBase.toNat := by
    show proc.heapEnd.toNat = _
    rw [hend, hstart]
  rw [hbrk] at hsbrk
  simp only [hend.trans hstart] at hsbrk
  have hmalloc := @malloc_extends _ _ 1 0xFFFFFFFFFFFFFFFF#64 _ _ 0#64 0#64 _ _ _
    (by decide) rfl hsbrk (by decide) (by decide)
  rw [if_pos rfl] at hmalloc
  obtain ⟨-, hroom⟩ := hall _ 1 _ _ trivial (Option.bind_eq_some_iff.2 ⟨_, hmalloc, rfl⟩)
  obtain ⟨m, hm, ⟨c, hc, -, hsize⟩, -⟩ := hroom _ rfl (by decide)
  have hblocks : inUse (readBlks (writeBlk runBase (align8 0xFFFFFFFFFFFFFFFF#64)
      (refill runBase.toNat (fun _ => 0) (fun _ => 0))) (2 ^ 64) runBase) =
        [⟨runBase.toNat, 0, false⟩] := by
    decide +kernel
  have hc' := hblocks ▸ hc
  rw [List.mem_singleton.1 hc'] at hsize
  change 0 = m at hsize
  rw [← hsize] at hm
  revert hm
  decide

end CustomKernel.User
