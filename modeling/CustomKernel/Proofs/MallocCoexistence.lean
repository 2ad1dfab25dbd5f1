/-
Module: CustomKernel.Proofs.MallocCoexistence
Layer: Proofs
Purpose: The user allocator in a process that also calls `mmap` and `brk`. All three move one break,
  so neighbours in the allocator's list need not touch in memory. As long as no `free` joins blocks
  that do not touch, every payload lies in memory that the allocator obtained from `u_sbrk`; the
  allocator does not check this, and a run of six calls hands out memory that `mmap` returned.
Imports: CustomKernel.Proofs.MallocSimulation, CustomKernel.Proofs.HeapCalls
Trusted boundary: a `brk` that lowers the break is not a step of these runs
Main exports: kernelSbrk, CoexistStep, FreeNeighboursTouch, malloc_owns_payloads
-/
import CustomKernel.Proofs.MallocSimulation
import CustomKernel.Proofs.HeapCalls

namespace CustomKernel.User

open ByteMemory BlockList StepSystem CustomKernel.Memory CustomKernel.Syscall

/-! ### The process -/

/-- The part of the kernel that the heap calls of a process work on. -/
structure HeapKernel where
  vmm : Vmm
  proc : Process

/-- The break. -/
def HeapKernel.brk (k : HeapKernel) : Nat := k.proc.heapEnd.toNat

/-- The memory of the process after the break was moved up from `brk`: the new pages hold what their
    frames held before. -/
def refill (brk : Nat) (fill mem : ByteMem) : ByteMem := fun a => if a < brk then mem a else fill a

/-- `u_sbrk` on this kernel: call 13, which both dispatchers pass to `sys_sbrk`. -/
def kernelSbrk (fill : ByteMem) : Sbrk HeapKernel := fun k mem increment =>
  match sysSbrk k.vmm k.proc increment with
  | .ok r => some (⟨r.vmm, r.proc⟩, refill k.brk fill mem, r.result)
  | .error _ => none

/-- What the process does: calls of the allocator and stores into its blocks, `mmap` and `brk`, and
    stores into the memory that those returned. -/
inductive ProcessCall where
  | heap (call : MallocCall)
  | mmap (len : Word)
  | brk (target : Word)
  | write (addr : Nat) (byte : BitVec 8)
deriving DecidableEq, Repr

/-- The process, the regions the allocator obtained from `u_sbrk`, and those that `mmap` and `brk`
    returned. -/
structure Coexistence where
  program : MallocState HeapKernel
  obtained : List (Nat × Nat)
  returned : List (Nat × Nat)

/-- The break of the process. -/
def Coexistence.brk (s : Coexistence) : Nat := s.program.heap.kernel.brk

/-- The process after the kernel did `r`. -/
def Coexistence.resume (s : Coexistence) (fill : ByteMem) (r : HeapReturn) : MallocState HeapKernel :=
  { s.program with heap := { s.program.heap with
      kernel := ⟨r.vmm, r.proc⟩, mem := refill s.brk fill s.program.heap.mem } }

/-- Some region contains the address. -/
def InRegions (regions : List (Nat × Nat)) (x : Nat) : Prop := ∃ r ∈ regions, r.1 ≤ x ∧ x < r.2

/-- A call that returns. Of the calls of `brk` only those that raise the break: one that lowers it
    takes away memory the allocator has. -/
def CoexistStep (s : Coexistence) : ProcessCall → Coexistence → Prop
  | .heap call, s' => call.Allowed s.program ∧
      ∃ fill fuel program result, call.run (kernelSbrk fill) fuel s.program = some (program, result) ∧
        s' = { s with
          program := program
          obtained := if s.brk < program.heap.kernel.brk then
              (s.brk, program.heap.kernel.brk) :: s.obtained
            else s.obtained }
  | .mmap len, s' =>
      ∃ fill r, linuxMmap s.program.heap.kernel.vmm s.program.heap.kernel.proc len = .ok r ∧
        s' = { s with
          program := s.resume fill r
          returned := if r.result = failed then s.returned
            else (r.result.toNat, r.result.toNat + (pageAlignUp len).toNat) :: s.returned }
  | .brk target, s' => s.program.heap.kernel.proc.heapEnd < target ∧
      ∃ fill r, linuxBrk s.program.heap.kernel.vmm s.program.heap.kernel.proc target = .ok r ∧
        s' = { s with
          program := s.resume fill r
          returned := (s.brk, target.toNat) :: s.returned }
  | .write addr byte, s' => InRegions s.returned addr ∧
      s' = { s with program := { s.program with heap := { s.program.heap with
        mem := store 1 addr byte.toNat s.program.heap.mem } } }

/-- Every byte of every live payload was obtained from `u_sbrk`, and `mmap` and `brk` did not return
    it. -/
def OwnsPayloads (s : Coexistence) : Prop :=
  ∀ ptr ∈ s.program.live, ∀ x, ptr.toNat ≤ x →
    x < ptr.toNat + (blkSize s.program.heap.mem (ptr - blkSizeof)).toNat →
    InRegions s.obtained x ∧ ¬ InRegions s.returned x

/-- The free blocks next to the block of `ptr` in the list are next to it in memory. -/
def FreeNeighboursTouch (mem : ByteMem) (ptr : Word) : Prop :=
  let b := ptr - blkSizeof
  (blkNext mem b ≠ 0#64 → blkFree mem (blkNext mem b) ≠ 0#32 →
    b + blkSizeof + blkSize mem b = blkNext mem b) ∧
  (blkPrev mem b ≠ 0#64 → blkFree mem (blkPrev mem b) ≠ 0#32 →
    blkPrev mem b + blkSizeof + blkSize mem (blkPrev mem b) = b)

/-- The calls after which the allocator keeps to its memory: what is freed touches the free blocks
    next to it in the list, and the target of `brk` can be rounded up to a page. -/
def KeepsApart (s : Coexistence) : ProcessCall → Prop
  | .heap call => ∀ ptr ∈ s.program.live, call.Releases s.program.heap.mem ptr →
      FreeNeighboursTouch s.program.heap.mem ptr
  | .brk target => target.toNat ≤ 2 ^ 64 - 4096
  | _ => True

/-! ### The kernel's `sbrk` -/

/-- The heap of the process is well formed and ends at `top`. -/
def KernelEnv (k : HeapKernel) (top : Nat) : Prop := HeapInv k.vmm k.proc ∧ k.brk = top

theorem refill_below {brk a : Nat} {fill mem : ByteMem} (h : a < brk) :
    refill brk fill mem a = mem a := if_pos h

theorem kernelSbrk_law (fill : ByteMem) : SbrkLaw KernelEnv (kernelSbrk fill) := by
  rintro k k' mem mem' top increment r ⟨hinv, rfl⟩ hlo hhi hrun
  have hend := hinv.end_le
  have hhigh := hinv.base.high
  unfold kernelSbrk at hrun
  cases hcall : sysSbrk k.vmm k.proc increment with
  | error e =>
      rw [hcall] at hrun
      cases hrun
  | ok out =>
      rw [hcall] at hrun
      cases hrun
      refine ⟨fun a ha => refill_below ha, ?_⟩
      obtain ⟨hinv', ⟨hres, hproc⟩ | ⟨hres, hproc⟩⟩ := hinv.sysSbrk (Nat.le_of_lt hhi) hcall
      · refine .inl ⟨hres, hinv', ?_⟩
        show out.proc.heapEnd.toNat = k.proc.heapEnd.toNat
        rw [hproc]
      · have hsum : (k.proc.heapEnd + increment).toNat = k.proc.heapEnd.toNat + increment.toNat := by
          rw [BitVec.toNat_add]
          omega
        unfold HeapKernel.brk
        refine .inr ⟨by rw [hres], by omega, hinv', ?_⟩
        show out.proc.heapEnd.toNat = _
        rw [hproc, hsum]

/-! ### The invariant -/

section Rep

variable {mem mem' : ByteMem} {heapList p : Word} {lo hi : Nat} {pre post blocks : List Block}
  {b : Block}

/-- The end of the heap can be raised. -/
theorem MallocRep.raise {hi' : Nat} (rep : MallocRep mem heapList lo hi blocks) (hle : hi ≤ hi')
    (hlt : hi' < 2 ^ 64) : MallocRep mem heapList lo hi' blocks :=
  ⟨rep.linked, rep.ordered.mono (Nat.le_refl _) hle, rep.head, rep.pos, hlt⟩

/-- Stores outside the blocks leave the list alone. -/
theorem MallocRep.outside (rep : MallocRep mem heapList lo hi blocks)
    (hsame : ∀ b ∈ blocks, ∀ a, b.addr ≤ a → a < b.stop 32 → mem' a = mem a) :
    MallocRep mem' heapList lo hi blocks where
  linked := rep.linked.imp fun b hb _ _ h => h.congr fun a hlo hhi =>
    hsame b hb a hlo (Nat.lt_of_lt_of_le hhi (Nat.le_add_right _ _))
  ordered := rep.ordered
  head := rep.head
  pos := rep.pos
  top := rep.top

/-- What the guard says about the list. -/
theorem MallocRep.touchesFree {ptr : Word} (rep : MallocRep mem heapList lo hi (pre ++ b :: post))
    (hptr : ptr.toNat = b.addr + 32) (hguard : FreeNeighboursTouch mem ptr) :
    TouchesFree b.addr (pre ++ b :: post) := by
  have hp := toNat_sub_sizeof hptr
  have htop := rep.top
  have hsize := rep.header.blkSize_eq hp
  have hnext := rep.header.blkNext_eq hp
  have hprev := rep.header.blkPrev_eq hp
  have hpos := rep.pos
  refine touchesFree_of_neighbours rep.ordered (fun a ha hfree => ?_) (fun c hc hfree => ?_)
  · obtain ⟨front, rfl⟩ := List.getLast?_eq_some_iff.1 ha
    rw [lastAddr_append, lastAddr_cons, lastAddr_nil] at hprev
    have hrep : MallocRep mem heapList lo hi (front ++ a :: (b :: post)) := by simpa using rep
    have hbounds := hrep.bounds (b := a) (by simp)
    have hne : blkPrev mem (ptr - blkSizeof) ≠ 0#64 := by
      intro hzero
      rw [hzero] at hprev
      change 0 = a.addr at hprev
      omega
    have htouch := congrArg BitVec.toNat (hguard.2 hne ((hrep.header.blkFree_ne hprev).2 hfree))
    rw [BitVec.toNat_add, BitVec.toNat_add, hprev, hrep.header.blkSize_eq hprev, hp, blkSizeof,
      BitVec.toNat_ofNat] at htouch
    unfold Block.stop
    omega
  · obtain ⟨rest, rfl⟩ : ∃ rest, post = c :: rest := by
      cases post with
      | nil => cases hc
      | cons d rest =>
          cases hc
          exact ⟨rest, rfl⟩
    rw [firstAddr_cons] at hnext
    have hrep : MallocRep mem heapList lo hi ((pre ++ [b]) ++ c :: rest) := by simpa using rep
    have hbounds := hrep.bounds (b := c) (by simp)
    have hbounds' := rep.bounds (b := b) (by simp)
    have hne : blkNext mem (ptr - blkSizeof) ≠ 0#64 := by
      intro hzero
      rw [hzero] at hnext
      change 0 = c.addr at hnext
      omega
    have htouch := congrArg BitVec.toNat (hguard.1 hne ((hrep.header.blkFree_ne hnext).2 hfree))
    rw [BitVec.toNat_add, BitVec.toNat_add, hp, hsize, hnext, blkSizeof, BitVec.toNat_ofNat] at htouch
    unfold Block.stop
    omega

end Rep

/-- Two lists of regions below a break, with nothing in common. -/
structure RegionsApart (brk : Nat) (obtained returned : List (Nat × Nat)) : Prop where
  obtained_le : ∀ r ∈ obtained, r.2 ≤ brk
  returned_le : ∀ r ∈ returned, r.2 ≤ brk
  apart : ∀ x, InRegions obtained x → ¬ InRegions returned x

section Regions

variable {brk brk' : Nat} {obtained returned : List (Nat × Nat)} {r : Nat × Nat} {x : Nat}

theorem inRegions_cons :
    InRegions (r :: obtained) x ↔ (r.1 ≤ x ∧ x < r.2) ∨ InRegions obtained x := by
  simp [InRegions]

theorem InRegions.lt (h : ∀ r ∈ obtained, r.2 ≤ brk) (hx : InRegions obtained x) : x < brk := by
  obtain ⟨r, hr, -, hlt⟩ := hx
  exact Nat.lt_of_lt_of_le hlt (h r hr)

theorem RegionsApart.mono (h : RegionsApart brk obtained returned) (hle : brk ≤ brk') :
    RegionsApart brk' obtained returned :=
  ⟨fun r hr => Nat.le_trans (h.obtained_le r hr) hle,
    fun r hr => Nat.le_trans (h.returned_le r hr) hle, h.apart⟩

/-- The allocator obtains a region at the break. -/
theorem RegionsApart.obtain (h : RegionsApart brk obtained returned) (hle : brk ≤ brk')
    (hlo : brk ≤ r.1) (hhi : r.2 ≤ brk') : RegionsApart brk' (r :: obtained) returned where
  obtained_le := List.forall_mem_cons.2 ⟨hhi, (h.mono hle).obtained_le⟩
  returned_le := (h.mono hle).returned_le
  apart := by
    intro x hx hx'
    have hlt := hx'.lt h.returned_le
    rcases inRegions_cons.1 hx with hnew | hold
    · omega
    · exact h.apart x hold hx'

/-- `mmap` or `brk` returns a region at or above the break. -/
theorem RegionsApart.return (h : RegionsApart brk obtained returned) (hle : brk ≤ brk')
    (hlo : brk ≤ r.1) (hhi : r.2 ≤ brk') : RegionsApart brk' obtained (r :: returned) where
  obtained_le := (h.mono hle).obtained_le
  returned_le := List.forall_mem_cons.2 ⟨hhi, (h.mono hle).returned_le⟩
  apart := by
    intro x hx hx'
    have hlt := hx.lt h.obtained_le
    rcases inRegions_cons.1 hx' with hnew | hold
    · omega
    · exact h.apart x hx hold

end Regions

/-- The blocks lie in the regions obtained from `u_sbrk`, which are apart from those returned. -/
structure CoexistInv (lo : Nat) (s : Coexistence) (b : BlockHeap) : Prop where
  sim : Sim KernelEnv lo s.program.heap b
  live : LivePointers s.program.live b
  owned : b.owned = s.obtained
  covered : ∀ c ∈ b.blocks, Covered b.owned c
  regions : RegionsApart b.top s.obtained s.returned

section Steps

variable {lo : Nat} {s s' : Coexistence} {b b' : BlockHeap}

theorem CoexistInv.brk_eq (inv : CoexistInv lo s b) : s.brk = b.top := inv.sim.env.2

/-- What the guard says about the machine of blocks. -/
theorem CoexistInv.touchesFree (inv : CoexistInv lo s b) {ptr : Word} {a : Nat}
    (hlive : ptr ∈ s.program.live) (hptr : ptr.toNat = a + 32)
    (hguard : FreeNeighboursTouch s.program.heap.mem ptr) :
    b.Live a ∧ a < b.top ∧ TouchesFree a b.blocks := by
  obtain ⟨a', ha, hptr'⟩ := (inv.live ptr).1 hlive
  obtain rfl : a' = a := by omega
  obtain ⟨c, hc, rfl⟩ := ha
  obtain ⟨pre, post, hblocks⟩ := List.append_of_mem (mem_inUse.1 hc).1
  have hrep := inv.sim.rep
  have hbounds := hrep.bounds (mem_inUse.1 hc).1
  rw [hblocks] at hrep
  refine ⟨⟨c, hc, rfl⟩, by omega, ?_⟩
  rw [hblocks]
  exact hrep.touchesFree hptr hguard

/-- The steps that match a guarded call keep the blocks in the regions; at most one of them moves
    the break. -/
theorem CoexistInv.events (inv : CoexistInv lo s b) {call : MallocCall} {events : List BlockEvent}
    (hguard : KeepsApart s (.heap call)) (run : Run BlockStep b events b')
    (hevents : CallEvents s.program call events) :
    (∀ c ∈ b'.blocks, Covered b'.owned c) ∧
      ((b'.top = b.top ∧ b'.owned = b.owned) ∨
        (b.top < b'.top ∧ b'.owned = (b.top, b'.top) :: b.owned)) := by
  have hallocate : ∀ {s s' : BlockHeap} {a : Nat}, BlockStep s (.allocate a) s' →
      (∀ c ∈ s.blocks, Covered s.owned c) → ∀ c ∈ s'.blocks, Covered s'.owned c :=
    fun step h => step.covered (fun _ heq => nomatch heq) h
  rcases hevents with rfl | ⟨a, rfl⟩ | ⟨ptr, a, hrelease, hmem, hptr, rfl | ⟨a', rfl⟩⟩
  · cases run
    exact ⟨inv.covered, .inl ⟨rfl, rfl⟩⟩
  · cases run with
    | cons step rest =>
        cases rest
        exact ⟨hallocate step inv.covered, step.owned.imp_right And.right⟩
  · obtain ⟨-, -, htouch⟩ := inv.touchesFree hmem hptr (hguard ptr hmem hrelease)
    cases run with
    | cons step rest =>
        cases rest
        refine ⟨step.covered (fun _ heq => ?_) inv.covered, step.owned.imp_right And.right⟩
        cases heq
        exact htouch
  · obtain ⟨hlive, htop, htouch⟩ := inv.touchesFree hmem hptr (hguard ptr hmem hrelease)
    cases run with
    | cons first rest =>
        cases rest with
        | cons second rest =>
            cases rest
            have htouch' := first.touchesFree inv.sim.rep.ordered hlive htop htouch
            refine ⟨second.covered (fun _ heq => ?_) (hallocate first inv.covered), ?_⟩
            · cases heq
              exact htouch'
            · rcases second.owned with ⟨hsame, howned⟩ | ⟨⟨_, heq⟩, -⟩
              · rw [hsame, howned]
                exact first.owned.imp_right And.right
              · cases heq

/-- A guarded call of the allocator. -/
theorem CoexistInv.heapCall (inv : CoexistInv lo s b) {call : MallocCall}
    (hguard : KeepsApart s (.heap call)) (step : CoexistStep s (.heap call) s') :
    ∃ b', CoexistInv lo s' b' := by
  obtain ⟨hallowed, fill, fuel, program, result, hrun, rfl⟩ := step
  obtain ⟨events, b', run, hsim, hlive, hevents⟩ :=
    call_sim (kernelSbrk_law fill) inv.sim inv.live hallowed hrun
  obtain ⟨hcovered, hmoved⟩ := inv.events hguard run hevents
  have hbrk : program.heap.kernel.brk = b'.top := hsim.env.2
  have hbrk' := inv.brk_eq
  refine ⟨b', hsim, hlive, ?_, hcovered, ?_⟩
  · rcases hmoved with ⟨htop, howned⟩ | ⟨htop, howned⟩
    · rw [if_neg (by omega), howned, inv.owned]
    · rw [if_pos (by omega), howned, inv.owned, hbrk, hbrk']
  · rcases hmoved with ⟨htop, howned⟩ | ⟨htop, howned⟩
    · rw [if_neg (by omega), htop]
      exact inv.regions
    · rw [if_pos (by omega), hbrk, hbrk']
      exact inv.regions.obtain (Nat.le_of_lt htop) (Nat.le_refl _) (Nat.le_refl _)

/-- A call of the kernel that raises the break and leaves the memory below it alone. -/
theorem CoexistInv.resume (inv : CoexistInv lo s b) {fill : ByteMem} {r : HeapReturn}
    {returned : List (Nat × Nat)} (hinv : HeapInv r.vmm r.proc) (hle : b.top ≤ r.proc.heapEnd.toNat)
    (hregions : RegionsApart r.proc.heapEnd.toNat s.obtained returned) :
    CoexistInv lo { s with program := s.resume fill r, returned := returned }
      { b with top := r.proc.heapEnd.toNat } where
  sim := by
    refine ⟨?_, hinv, rfl⟩
    have hsame : ∀ a < b.top, refill s.brk fill s.program.heap.mem a = s.program.heap.mem a := by
      rw [inv.brk_eq]
      exact fun a ha => refill_below ha
    exact (inv.sim.rep.congr hsame).raise hle r.proc.heapEnd.isLt
  live := inv.live
  owned := inv.owned
  covered := inv.covered
  regions := hregions

/-- `mmap` raises the break and returns a region above the old one, or fails. -/
theorem CoexistInv.mmap (inv : CoexistInv lo s b) {len : Word}
    (step : CoexistStep s (.mmap len) s') : ∃ b', CoexistInv lo s' b' := by
  obtain ⟨fill, r, hcall, rfl⟩ := step
  obtain ⟨hinv, hbrk⟩ := inv.sim.env
  have hend := hinv.end_le
  have hhigh := hinv.base.high
  by_cases hpos : len.toInt ≤ 0
  · -- rejected
    unfold linuxMmap at hcall
    rw [if_pos hpos] at hcall
    cases hcall
    rw [if_pos rfl]
    exact ⟨_, inv.resume hinv (Nat.le_of_eq hbrk.symm) (inv.regions.mono (Nat.le_of_eq hbrk.symm))⟩
  have hlen : 0 < len.toNat ∧ len.toNat < 2 ^ 63 := by
    rw [BitVec.toInt_eq_toNat_cond] at hpos
    have := len.isLt
    split at hpos <;> omega
  obtain ⟨hinv', hge, -, hcases⟩ := hinv.linuxMmap hlen.1 hlen.2 hcall
  have hge' : b.top ≤ (pageAlignUp s.program.heap.kernel.proc.heapEnd).toNat := by
    rw [← hbrk]
    exact hge
  have hround := @toNat_pageAlignUp s.program.heap.kernel.proc.heapEnd (by omega)
  have hround' := @toNat_pageAlignUp len (by omega)
  rcases hcases with ⟨hres, hproc⟩ | ⟨hres, hproc⟩
  · rw [if_pos hres]
    have hle : b.top ≤ r.proc.heapEnd.toNat := by rw [hproc]; exact hge'
    exact ⟨_, inv.resume hinv' hle (inv.regions.mono hle)⟩
  · have hne : r.result ≠ failed := hinv.end_ne_failed (by rw [hres]; omega)
    rw [if_neg hne]
    have hend' : r.proc.heapEnd.toNat = r.result.toNat + (pageAlignUp len).toNat := by
      rw [hproc, hres, BitVec.toNat_add]
      omega
    have hle : b.top ≤ r.result.toNat := by rw [hres]; exact hge'
    refine ⟨_, inv.resume hinv' (by omega) (inv.regions.return (by omega) hle ?_)⟩
    exact Nat.le_of_eq hend'.symm

/-- A `brk` that grows the heap returns the region up to its target. -/
theorem CoexistInv.growBrk (inv : CoexistInv lo s b) {target : Word}
    (hguard : KeepsApart s (.brk target)) (step : CoexistStep s (.brk target) s') :
    ∃ b', CoexistInv lo s' b' := by
  obtain ⟨hgrow, fill, r, hcall, rfl⟩ := step
  obtain ⟨hinv, hbrk⟩ := inv.sim.env
  have hgrow' : s.program.heap.kernel.proc.heapEnd.toNat < target.toNat := hgrow
  have hbrk' : s.program.heap.kernel.proc.heapEnd.toNat = b.top := hbrk
  have hstart := hinv.le
  obtain ⟨hinv', ⟨hlt, -⟩ | ⟨-, hproc⟩⟩ := hinv.linuxBrk hguard hcall
  · omega
  have hend : r.proc.heapEnd = target := by rw [hproc]
  have hle : b.top ≤ r.proc.heapEnd.toNat := by rw [hend]; omega
  refine ⟨_, inv.resume hinv' hle (inv.regions.return hle ?_ ?_)⟩
  · exact Nat.le_of_eq hbrk.symm
  · rw [hend]

/-- A store into memory that `mmap` or `brk` returned. -/
theorem CoexistInv.write (inv : CoexistInv lo s b) {addr : Nat} {byte : BitVec 8}
    (step : CoexistStep s (.write addr byte) s') : CoexistInv lo s' b := by
  obtain ⟨haddr, rfl⟩ := step
  refine ⟨⟨inv.sim.rep.outside fun c hc a hlo hhi => store_outside ?_, inv.sim.env⟩, inv.live,
    inv.owned, inv.covered, inv.regions⟩
  by_contra hin
  obtain rfl : a = addr := by omega
  have howned : InRegions s.obtained a := by
    rw [← inv.owned]
    exact inv.covered c hc a hlo hhi
  exact inv.regions.apart a howned haddr

theorem CoexistInv.step (inv : CoexistInv lo s b) {call : ProcessCall}
    (step : Guarded KeepsApart CoexistStep s call s') : ∃ b', CoexistInv lo s' b' := by
  obtain ⟨hguard, step⟩ := step
  cases call with
  | heap call => exact inv.heapCall hguard step
  | mmap len => exact inv.mmap step
  | brk target => exact inv.growBrk hguard step
  | write addr byte => exact ⟨b, inv.write step⟩

/-- The invariant places the payloads. -/
theorem CoexistInv.ownsPayloads (inv : CoexistInv lo s b) : OwnsPayloads s := by
  intro ptr hmem x hlo hhi
  obtain ⟨a, ⟨c, hc, rfl⟩, hptr⟩ := (inv.live ptr).1 hmem
  obtain ⟨_, _, hheader⟩ := inv.sim.rep.linked.mem (mem_inUse.1 hc).1
  rw [hheader.blkSize_eq (toNat_sub_sizeof hptr)] at hhi
  have howned : InRegions s.obtained x := by
    rw [← inv.owned]
    refine inv.covered c (mem_inUse.1 hc).1 x (by omega) ?_
    unfold Block.stop
    omega
  exact ⟨howned, inv.regions.apart x howned⟩

theorem CoexistInv.init {k : HeapKernel} (hinv : HeapInv k.vmm k.proc) (mem : ByteMem) :
    CoexistInv k.brk ⟨⟨⟨k, mem, 0#64⟩, []⟩, [], []⟩ ⟨[], k.brk, []⟩ where
  sim := by
    have hlow := hinv.base.low
    have hle := hinv.le
    refine ⟨⟨trivial, Nat.le_refl _, rfl, ?_, k.proc.heapEnd.isLt⟩, hinv, rfl⟩
    show 0 < k.proc.heapEnd.toNat
    omega
  live := fun ptr => by simp [BlockHeap.Live, inUse]
  owned := rfl
  covered := fun c hc => nomatch hc
  regions := ⟨fun _ h => (nomatch h), fun _ h => (nomatch h), fun _ ⟨_, h, _⟩ => nomatch h⟩

end Steps

/-- In every sequence of calls in which what is freed touches the free blocks next to it, the
    payloads lie in memory obtained from `u_sbrk` and apart from what `mmap` and `brk` returned. -/
theorem malloc_owns_payloads (image : BootImage) (ram : PhysMem) (vmm₀ : Vmm)
    (boot : kernelBoot image ram = .ok vmm₀) (setup : List SpaceCall) (spaces : Spaces)
    (hsetup : Run (SpaceStep image) ⟨vmm₀, []⟩ setup spaces) (proc : Process)
    (hspace : proc.pageTable ∈ spaces.created) (hstart : proc.heapEnd = proc.heapStart)
    (haligned : proc.heapStart.toNat % 4096 = 0)
    (hindex : 2 ^ 39 ≤ proc.heapStart.toNat ∧ proc.heapStart.toNat < 2 ^ 40) (mem : ByteMem)
    (calls : List ProcessCall) (s : Coexistence)
    (run : Run (Guarded KeepsApart CoexistStep) ⟨⟨⟨⟨spaces.vmm, proc⟩, mem, 0#64⟩, []⟩, [], []⟩
      calls s) : OwnsPayloads s := by
  have hinv := HeapInv.init boot hsetup hspace hstart ⟨haligned, hindex.1, hindex.2⟩
  obtain ⟨b, inv⟩ := run.invariant (fun s => ∃ b, CoexistInv (HeapKernel.mk spaces.vmm proc).brk s b)
    (fun _ _ _ ⟨_, inv⟩ step => inv.step step) ⟨_, .init (k := ⟨spaces.vmm, proc⟩) hinv mem⟩
  exact inv.ownsPayloads

/-! ### Two blocks around a mapping -/

/-- `free` works on the memory only. -/
theorem free_mem {κ : Type} (h : UserHeap κ) (ptr : Word) :
    free h ptr = { h with mem := (free (⟨(), h.mem, 0#64⟩ : UserHeap Unit) ptr).mem } := by
  unfold free
  by_cases hnull : ptr = 0#64
  · rw [if_pos hnull, if_pos hnull]
  · rw [if_neg hnull, if_neg hnull]
    dsimp only
    by_cases hmagic : blkMagic h.mem (ptr - blkSizeof) ≠ usedMagic
    · rw [if_pos hmagic, if_pos hmagic]
    · rw [if_neg hmagic, if_neg hmagic]

/-- A `malloc` that succeeds is a step, and nothing is freed in it. -/
theorem malloc_step {s : Coexistence} {fill : ByteMem} {fuel : Nat} {size ptr : Word}
    {heap : UserHeap HeapKernel} (obtained : List (Nat × Nat)) (hsize : size.toNat + 39 < 2 ^ 63)
    (hmalloc : malloc (kernelSbrk fill) fuel s.program.heap size = some (heap, ptr))
    (hptr : ptr ≠ 0#64) (hobtained : obtained = if s.brk < heap.kernel.brk then
      (s.brk, heap.kernel.brk) :: s.obtained else s.obtained) :
    Guarded KeepsApart CoexistStep s (.heap (.malloc size))
      ⟨⟨heap, ptr :: s.program.live⟩, obtained, s.returned⟩ := by
  refine ⟨fun _ _ hrelease => hrelease.elim, hsize, fill, fuel, _, ptr,
    Option.bind_eq_some_iff.2 ⟨_, hmalloc, rfl⟩, ?_⟩
  rw [hobtained]
  simp only [handOut, if_neg hptr]

/-- A `free` is a step that leaves the break alone. -/
theorem free_step {k : HeapKernel} {mem : ByteMem} {heapList ptr : Word} {live live' : List Word}
    {obtained returned : List (Nat × Nat)} (hptr : ptr ∈ live) (hlive : takeBack ptr live = live') :
    CoexistStep ⟨⟨⟨k, mem, heapList⟩, live⟩, obtained, returned⟩ (.heap (.free ptr))
      ⟨⟨⟨k, (free (⟨(), mem, 0#64⟩ : UserHeap Unit) ptr).mem, heapList⟩, live'⟩, obtained,
        returned⟩ := by
  refine ⟨.inr hptr, fun _ => 0, 0, ⟨free ⟨k, mem, heapList⟩ ptr, takeBack ptr live⟩, _, rfl, ?_⟩
  rw [free_mem (⟨k, mem, heapList⟩ : UserHeap HeapKernel), hlive]
  simp only [Coexistence.brk, Nat.lt_irrefl, if_false]

/-- `u_sbrk` succeeds when there are frames. -/
theorem kernelSbrk_ok {k : HeapKernel} (increment : Word) (hinv : HeapInv k.vmm k.proc)
    (hinc : increment.toNat ≤ 2 ^ 28)
    (hfree : 4 * (increment.toNat / 4096 + 1) ≤ k.vmm.pmm.freeSet.card) (fill mem : ByteMem) :
    ∃ k', kernelSbrk fill k mem increment =
        some (k', refill k.brk fill mem, k.proc.heapEnd) ∧ HeapInv k'.vmm k'.proc ∧
      k'.proc = { k.proc with heapEnd := k.proc.heapEnd + increment } ∧
      k.vmm.pmm.freeSet.card ≤ k'.vmm.pmm.freeSet.card + 4 * (increment.toNat / 4096 + 1) := by
  obtain ⟨r, hcall, hres, hproc, hcard⟩ := hinv.sysSbrk_ok increment hinc hfree
  have hbound : increment.toNat ≤ 2 ^ 63 := by omega
  refine ⟨⟨r.vmm, r.proc⟩, ?_, (hinv.sysSbrk hbound hcall).1, hproc, hcard⟩
  unfold kernelSbrk
  rw [hcall, ← hres]

/-- The first address of the heap in this run, and that of the second block. -/
def runBase : Word := 0x8004000000#64

def runSecond : Word := 0x8004002000#64

/-- The memory after `malloc(8)` on an empty heap. -/
def memFirst : ByteMem := writeBlk runBase 8#64 (refill runBase.toNat (fun _ => 0) (fun _ => 0))

/-- The memory after `mmap(4096)`, and then after `malloc(8192)`. -/
def memMapped : ByteMem := refill (runBase.toNat + 40) (fun _ => 0) memFirst

def memSecond : ByteMem :=
  setNext runBase runSecond (setPrev runSecond runBase
    (writeBlk runSecond 8192#64 (refill runSecond.toNat (fun _ => 0) memMapped)))

/-- The state of the process after these three calls. -/
def twoBlocks (k : HeapKernel) : Coexistence where
  program := ⟨⟨k, memSecond, runBase⟩, [runSecond + blkSizeof, runBase + blkSizeof]⟩
  obtained := [(runSecond.toNat, runSecond.toNat + 8224), (runBase.toNat, runBase.toNat + 40)]
  returned := [(runBase.toNat + 4096, runBase.toNat + 8192)]

/-- A kernel that has booted and created an address space, and a process in it. -/
theorem booted_process : ∃ (vmm₀ : Vmm) (spaces : Spaces) (proc : Process),
    kernelBoot bootedImage (fun _ _ => 0#64) = .ok vmm₀ ∧
      Run (SpaceStep bootedImage) ⟨vmm₀, []⟩ [.create] spaces ∧ proc.pageTable ∈ spaces.created ∧
      proc.heapEnd = proc.heapStart ∧ proc.heapStart = runBase ∧ HeapInv spaces.vmm proc ∧
      60000 ≤ spaces.vmm.pmm.freeSet.card := by
  obtain ⟨vmm₀, vmm₁, a, boot, hstep, hcard⟩ := bootedImage_space
  have hsetup : Run (SpaceStep bootedImage) ⟨vmm₀, []⟩ [.create] ⟨vmm₁, [frameAddr a]⟩ :=
    .single hstep
  have hspace : frameAddr a ∈ (Spaces.mk vmm₁ [frameAddr a]).created := List.mem_singleton_self _
  refine ⟨vmm₀, _, { pageTable := frameAddr a, heapStart := runBase, heapEnd := runBase }, boot,
    hsetup, hspace, rfl, rfl, HeapInv.init boot hsetup hspace rfl ?_, hcard⟩
  have hbase : runBase.toNat % 4096 = 0 ∧ 2 ^ 39 ≤ runBase.toNat ∧ runBase.toNat < 2 ^ 40 := by decide
  exact ⟨hbase.1, hbase.2.1, hbase.2.2⟩

/-- A process can make these three calls. -/
theorem twoBlocks_reached : ∃ (vmm₀ : Vmm) (spaces : Spaces) (proc : Process) (k : HeapKernel),
    kernelBoot bootedImage (fun _ _ => 0#64) = .ok vmm₀ ∧
      Run (SpaceStep bootedImage) ⟨vmm₀, []⟩ [.create] spaces ∧ proc.pageTable ∈ spaces.created ∧
      proc.heapEnd = proc.heapStart ∧ proc.heapStart = runBase ∧
      Run (Guarded KeepsApart CoexistStep)
        ⟨⟨⟨⟨spaces.vmm, proc⟩, fun _ => 0, 0#64⟩, []⟩, [], []⟩
        [.heap (.malloc 8#64), .mmap 4096#64, .heap (.malloc 8192#64)] (twoBlocks k) := by
  obtain ⟨vmm₀, ⟨vmm₁, created⟩, proc, boot, hsetup, hspace, hend, hstart, hinv, hcard⟩ := booted_process
  dsimp only at hinv hcard
  have hbrk : (HeapKernel.mk vmm₁ proc).brk = runBase.toNat := by
    show proc.heapEnd.toNat = _
    rw [hend, hstart]
  have hend₀ : proc.heapEnd = runBase := hend.trans hstart
  -- the first block
  obtain ⟨k₁, hsbrk₁, hinv₁, hproc₁, hcard₁⟩ := kernelSbrk_ok (k := ⟨vmm₁, proc⟩)
    (blkSizeof + align8 8#64) hinv (by decide) (Nat.le_trans (by decide) hcard)
    (fun _ => 0) (fun _ => 0)
  rw [hbrk] at hsbrk₁
  simp only [hend₀] at hsbrk₁ hproc₁
  have hend₁ : k₁.proc.heapEnd = runBase + 40#64 := by
    rw [hproc₁]
    exact (by decide : runBase + (blkSizeof + align8 8#64) = runBase + 40#64)
  have hmalloc₁ := @malloc_extends _ _ 1 8#64 _ _ 0#64 0#64 _ _ _
    (by decide) rfl hsbrk₁ (by decide) (by decide)
  rw [if_pos rfl] at hmalloc₁
  have hbrk₁ : k₁.brk = runBase.toNat + 40 := by
    unfold HeapKernel.brk
    rw [hend₁]
    decide
  have hstep₁ := malloc_step (s := ⟨⟨⟨⟨vmm₁, proc⟩, fun _ => 0, 0#64⟩, []⟩, [], []⟩)
    [(runBase.toNat, runBase.toNat + 40)] (by decide) hmalloc₁ (by decide)
    (by
      show _ = if (HeapKernel.mk vmm₁ proc).brk < k₁.brk then
        [((HeapKernel.mk vmm₁ proc).brk, k₁.brk)] else []
      rw [hbrk, hbrk₁, if_pos (by decide)])
  -- the mapping
  have hcost₁ : 4 * ((blkSizeof + align8 8#64).toNat / 4096 + 1) = 4 := by decide
  have hcost₂ : 4 * ((pageAlignUp 4096#64).toNat / 4096 + 1) = 8 := by decide
  have hcard₁' : 59996 ≤ k₁.vmm.pmm.freeSet.card := by
    rw [hcost₁] at hcard₁
    dsimp only at hcard₁
    omega
  obtain ⟨hinv₁', halign₁, -⟩ := hinv₁.mmapAlign
  obtain ⟨r, hcall, hres, hproc₂, hcard₂⟩ := hinv₁'.sysSbrk_ok (pageAlignUp 4096#64)
    (by decide) (by omega)
  have hinv₂ := (hinv₁'.sysSbrk (by decide) hcall).1
  rw [halign₁] at hres hproc₂
  simp only [hend₁] at hres hproc₂
  have hend₂ : r.proc.heapEnd = runSecond := by
    rw [hproc₂]
    exact (by decide : pageAlignUp (runBase + 40#64) + pageAlignUp 4096#64 = runSecond)
  have hmmap : linuxMmap k₁.vmm k₁.proc 4096#64 = .ok r := (if_neg (by decide)).trans hcall
  have hstep₂ : Guarded KeepsApart CoexistStep
      ⟨⟨⟨k₁, memFirst, runBase⟩, [runBase + blkSizeof]⟩, [(runBase.toNat, runBase.toNat + 40)], []⟩
      (.mmap 4096#64)
      ⟨⟨⟨⟨r.vmm, r.proc⟩, memMapped, runBase⟩, [runBase + blkSizeof]⟩,
        [(runBase.toNat, runBase.toNat + 40)], [(runBase.toNat + 4096, runBase.toNat + 8192)]⟩ := by
    refine ⟨trivial, fun _ => 0, r, hmmap, ?_⟩
    have hne : r.result ≠ failed := by
      rw [hres]
      decide
    have hregion : (r.result.toNat, r.result.toNat + (pageAlignUp 4096#64).toNat) =
        (runBase.toNat + 4096, runBase.toNat + 8192) := by
      rw [hres]
      decide
    simp only [if_neg hne, hregion, Coexistence.resume, Coexistence.brk, hbrk₁, memMapped]
  -- the second block
  obtain ⟨k₃, hsbrk₃, -, hproc₃, -⟩ := kernelSbrk_ok (k := ⟨r.vmm, r.proc⟩)
    (blkSizeof + align8 8192#64) hinv₂ (by decide) (by
      have hcost₃ : 4 * ((blkSizeof + align8 8192#64).toNat / 4096 + 1) = 12 := by decide
      dsimp only
      omega)
    (fun _ => 0) memMapped
  have hbrk₂ : (HeapKernel.mk r.vmm r.proc).brk = runSecond.toNat := by
    show r.proc.heapEnd.toNat = _
    rw [hend₂]
  rw [hbrk₂] at hsbrk₃
  simp only [hend₂] at hsbrk₃ hproc₃
  have hloop : mallocLoop (align8 8192#64) memMapped 2 runBase 0#64 = some (.exhausted runBase) := by
    have hnext : blkNext memMapped runBase = 0#64 := by decide +kernel
    rw [mallocLoop, if_neg (by decide), if_neg (by decide +kernel), hnext, mallocLoop, if_pos rfl]
  have hmalloc₃ := malloc_extends (by decide) hloop hsbrk₃ (by decide) (by decide)
  rw [if_neg (by decide)] at hmalloc₃
  have hbrk₃ : k₃.brk = runSecond.toNat + 8224 := by
    unfold HeapKernel.brk
    rw [hproc₃]
    exact (by decide : (runSecond + (blkSizeof + align8 8192#64)).toNat = runSecond.toNat + 8224)
  have hstep₃ := malloc_step (s := ⟨⟨⟨⟨r.vmm, r.proc⟩, memMapped, runBase⟩, [runBase + blkSizeof]⟩,
        [(runBase.toNat, runBase.toNat + 40)], [(runBase.toNat + 4096, runBase.toNat + 8192)]⟩)
    (twoBlocks k₃).obtained (by decide) hmalloc₃ (by decide)
    (by
      show _ = if (HeapKernel.mk r.vmm r.proc).brk < k₃.brk then
        ((HeapKernel.mk r.vmm r.proc).brk, k₃.brk) :: _ else _
      rw [hbrk₂, hbrk₃, if_pos (by decide)]
      rfl)
  exact ⟨vmm₀, _, proc, k₃, boot, hsetup, hspace, hend, hstart,
    .cons hstep₁ (.cons hstep₂ (.single hstep₃))⟩

/-- The statement about payloads applies to a process with two blocks around a mapping. -/
theorem malloc_owns_payloads_two_blocks :
    ∃ k : HeapKernel, (twoBlocks k).program.live = [runSecond + blkSizeof, runBase + blkSizeof] ∧
      OwnsPayloads (twoBlocks k) := by
  obtain ⟨vmm₀, spaces, proc, k, boot, hsetup, hspace, hend, hstart, run⟩ := twoBlocks_reached
  exact ⟨k, rfl, malloc_owns_payloads bootedImage (fun _ _ => 0#64) vmm₀ boot [.create] spaces hsetup
    proc hspace hend (by rw [hstart]; decide) (by rw [hstart]; decide) _ _ _ run⟩

/-- The memory after the first block was freed, and then after the second was. -/
def memFreed : ByteMem :=
  (free (⟨(), memSecond, 0#64⟩ : UserHeap Unit) (runBase + blkSizeof)).mem

def memJoined : ByteMem :=
  (free (⟨(), memFreed, 0#64⟩ : UserHeap Unit) (runSecond + blkSizeof)).mem

/-- When both blocks are freed they are joined across the mapping, and the next `malloc` returns
    memory that `mmap` returned before. -/
theorem malloc_returns_mapping :
    ∃ (vmm₀ : Vmm) (spaces : Spaces) (proc : Process) (s : Coexistence),
      kernelBoot bootedImage (fun _ _ => 0#64) = .ok vmm₀ ∧
      Run (SpaceStep bootedImage) ⟨vmm₀, []⟩ [.create] spaces ∧ proc.pageTable ∈ spaces.created ∧
      proc.heapEnd = proc.heapStart ∧ proc.heapStart = runBase ∧
      Run CoexistStep ⟨⟨⟨⟨spaces.vmm, proc⟩, fun _ => 0, 0#64⟩, []⟩, [], []⟩
        [.heap (.malloc 8#64), .mmap 4096#64, .heap (.malloc 8192#64),
          .heap (.free (runBase + blkSizeof)), .heap (.free (runSecond + blkSizeof)),
          .heap (.malloc 8232#64)] s ∧
      s.program.live = [runBase + blkSizeof] ∧ s.returned = [(0x8004001000, 0x8004002000)] ∧
      ¬ OwnsPayloads s := by
  obtain ⟨vmm₀, spaces, proc, k, boot, hsetup, hspace, hend, hstart, run⟩ := twoBlocks_reached
  have hfree₁ : CoexistStep (twoBlocks k) (.heap (.free (runBase + blkSizeof)))
      { twoBlocks k with program := ⟨⟨k, memFreed, runBase⟩, [runSecond + blkSizeof]⟩ } :=
    free_step (by decide) (by decide)
  have hfree₂ : CoexistStep
      { twoBlocks k with program := ⟨⟨k, memFreed, runBase⟩, [runSecond + blkSizeof]⟩ }
      (.heap (.free (runSecond + blkSizeof)))
      { twoBlocks k with program := ⟨⟨k, memJoined, runBase⟩, []⟩ } :=
    free_step (by decide) (by decide)
  -- the joined block is taken
  have hmalloc : malloc (kernelSbrk fun _ => 0) 1 ⟨k, memJoined, runBase⟩ 8232#64 =
      some (⟨k, takeBlk runBase (align8 8232#64) memJoined, runBase⟩, runBase + blkSizeof) := by
    have hfound : mallocLoop (align8 8232#64) memJoined 1 runBase 0#64 = some
        (.found (takeBlk runBase (align8 8232#64) memJoined) (runBase + blkSizeof)) := by
      rw [mallocLoop, if_neg (by decide), if_pos (by decide +kernel)]
    unfold malloc
    rw [if_neg (by decide)]
    exact Option.bind_eq_some_iff.2 ⟨_, hfound, rfl⟩
  have htake := malloc_step
    (s := { twoBlocks k with program := ⟨⟨k, memJoined, runBase⟩, []⟩ })
    (twoBlocks k).obtained (by decide) hmalloc (by decide)
    (if_neg (Nat.lt_irrefl _)).symm
  refine ⟨vmm₀, spaces, proc, _, boot, hsetup, hspace, hend, hstart,
    run.of_guarded.append (.cons hfree₁ (.cons hfree₂ (.single htake.2))), rfl, rfl, ?_⟩
  intro howns
  have hsize : blkSize (takeBlk runBase (align8 8232#64) memJoined)
      (runBase + blkSizeof - blkSizeof) = 8232#64 := by decide +kernel
  obtain ⟨-, hnot⟩ := howns (runBase + blkSizeof) (List.mem_singleton_self _) 0x8004001000 (by decide)
    (by
      dsimp only
      rw [hsize]
      decide)
  exact hnot ⟨_, List.mem_singleton_self _, by decide, by decide⟩

end CustomKernel.User
