/-
Module: CustomKernel.Proofs.ProcessMemory
Layer: Proofs
Purpose: Where the processes live. Each has a descriptor and a kernel stack in the heap; the blocks a
  constructor takes are new, and no later call of the system gives a block in use to anybody else. So
  in every state no two of these regions overlap, and the stacks of the processes that `kernel_main`
  hands to the scheduler are apart.
Imports: CustomKernel.Proofs.ConstructorHeap, CustomKernel.Proofs.Preemption
Trusted boundary: as in SystemRuns: the kernel heap, the descriptors and the archive are beside
  physical memory; a step that maps pages over the heap leaves it as it is
Main exports: NewProcess.regions, Population, PopulationStep, PopulationInv, process_memory_apart
-/
import CustomKernel.Proofs.ConstructorHeap
import CustomKernel.Proofs.Preemption

namespace CustomKernel

open Memory Filesystem Syscall Loops StepSystem ByteMemory BlockList

/-! ### The system -/

/-- The system, with all processes that have been constructed. -/
structure Population where
  system : System
  processes : List NewProcess

/-- A call of the system: the constructors add the process they return. As in `SystemStep`, pages that
    are mapped over the heap do not reach its record. -/
def PopulationStep (image : BootImage) (fns : Trampolines) (s : Population) :
    SystemCall → Population → Prop
  | .create entry, s' => ∃ fuel k new,
      processCreate fuel fns (s.system.constructing image) entry = .ok (k, new) ∧
        s' = { system := { s.system with kernel := k }, processes := s.processes ++ new.toList }
  | .createUser entry, s' => ∃ fuel k new,
      processCreateUser fuel fns (s.system.constructing image) entry = .ok (k, new) ∧
        s' = { system := s.system.add k new, processes := s.processes ++ new.toList }
  | .createElf path useLinuxAbi, s' => ∃ fuel stale k new,
      processCreateElf fuel stale fns (s.system.constructing image) path useLinuxAbi = .ok (k, new) ∧
        s' = { system := s.system.add k new, processes := s.processes ++ new.toList }
  | .user pid call, s' => SystemStep image fns s.system (.user pid call) s'.system ∧
      s'.processes = s.processes

/-- Address and size of the descriptor and of the kernel stack. -/
def NewProcess.regions (p : NewProcess) : List (Nat × Nat) :=
  [(p.address.toNat, 232), ((p.proc.kernelStack - kernelStackSize).toNat, 16384)]

/-- Two regions do not overlap. -/
def Apart (r r' : Nat × Nat) : Prop := r.1 + r.2 ≤ r'.1 ∨ r'.1 + r'.2 ≤ r.1

instance (r r' : Nat × Nat) : Decidable (Apart r r') := inferInstanceAs (Decidable (_ ∨ _))

/-! ### Blocks -/

section Blocks

variable {s : HeapHistory} {blocks blocks' : List Block} {size : Nat} {ptr : Word}
  {heap : KernelHeap} {address kernelStack : Word} {r r' : Nat × Nat} {b b' : Block}

/-- The region starts a block and fits into it. -/
def Housed (r : Nat × Nat) (b : Block) : Prop := r.1 = b.addr + 24 ∧ r.2 ≤ b.size

/-- Regions in different blocks are apart. -/
theorem Housed.apart (inv : KernelHeapInv s blocks) (h : Housed r b) (h' : Housed r' b')
    (hb : b ∈ blocks) (hb' : b' ∈ blocks) (hne : b.addr ≠ b'.addr) : Apart r r' := by
  obtain ⟨haddr, hsize⟩ := h
  obtain ⟨haddr', hsize'⟩ := h'
  have hapart := inv.rep.ordered.apart hb hb' hne
  unfold Block.stop at hapart
  unfold Apart
  omega

/-- The block that has been taken is in use, and was not before. -/
theorem takes_block (t : Takes s blocks size ptr heap blocks') :
    ∃ b ∈ inUse blocks', Housed (ptr.toNat, size) b ∧ ∀ c ∈ inUse blocks, c.addr ≠ b.addr := by
  obtain ⟨pre, b, post, hlist, hptr, hsize⟩ := t.room
  have huse : b ∈ inUse blocks' := by
    obtain ⟨c, hc, hcptr⟩ := (t.inv.live ptr).1 List.mem_cons_self
    have hsame : c = b := by
      have hord := t.inv.rep.ordered
      have hmem := (mem_inUse.1 hc).1
      rw [hlist] at hord hmem
      by_contra hne
      have hother : c ∈ pre ∨ c ∈ post := by simpa [hne] using hmem
      exact hord.addr_ne (by decide) hother (by omega)
    exact hsame ▸ hc
  refine ⟨b, huse, ⟨hptr, hsize⟩, fun c hc hsame => ?_⟩
  rw [← t.rest] at hc
  exact of_decide_eq_true (List.mem_filter.1 hc).2 (by omega)

/-- The two blocks of a process are in use, were not before, and are two. -/
theorem HoldsProcess.owned (h : HoldsProcess s blocks address kernelStack heap) :
    ∃ live' blocks', KernelHeapInv ⟨heap, live'⟩ blocks' ∧ inUse blocks ⊆ inUse blocks' ∧
      ∃ b ∈ inUse blocks', ∃ b' ∈ inUse blocks', b.addr ≠ b'.addr ∧
        Housed (address.toNat, 232) b ∧ Housed ((kernelStack - kernelStackSize).toNat, 16384) b' ∧
          ∀ c ∈ inUse blocks, c.addr ≠ b.addr ∧ c.addr ≠ b'.addr := by
  obtain ⟨heap₁, blocks₁, blocks₂, t₁, t₂⟩ := h
  obtain ⟨b, hb, hhoused, hnew⟩ := takes_block t₁
  obtain ⟨b', hb', hhoused', hnew'⟩ := takes_block t₂
  exact ⟨_, blocks₂, t₂.inv, fun c hc => t₂.inUse_sub (t₁.inUse_sub hc), b, t₂.inUse_sub hb, b', hb',
    hnew' b hb, hhoused, hhoused', fun c hc => ⟨hnew c hc, hnew' c (t₁.inUse_sub hc)⟩⟩

end Blocks

/-! ### The constructors -/

section Constructors

variable {blocks : List Block} {fuel : Nat} {fns : Trampolines} {k k' : Kernel} {p : NewProcess}
  {live : List Word}

/-- A process that `process_create` returns has its two blocks. -/
theorem processCreate_holds {entry : Word} (inv : KernelHeapInv ⟨k.heap, live⟩ blocks)
    (h : processCreate fuel fns k entry = .ok (k', some p)) :
    HoldsProcess ⟨k.heap, live⟩ blocks p.address p.proc.kernelStack k'.heap := by
  obtain ⟨⟨k₁, proc⟩, halloc, h⟩ := bind_ok h
  have hholds := processAlloc_holds inv halloc
  cases proc with
  | none => cases h
  | some p₁ =>
      cases h
      exact hholds.pushContext [entry, fns.process] (by simp)

/-- `process_create_user`. -/
theorem processCreateUser_holds {entry : Word} (inv : KernelHeapInv ⟨k.heap, live⟩ blocks)
    (h : processCreateUser fuel fns k entry = .ok (k', some p)) :
    HoldsProcess ⟨k.heap, live⟩ blocks p.address p.proc.kernelStack k'.heap := by
  unfold processCreateUser at h
  obtain ⟨⟨k₁, proc⟩, halloc, h⟩ := bind_ok h
  have hholds := processAlloc_holds inv halloc
  cases proc with
  | none => cases h
  | some p₁ =>
      dsimp only at h
      split at h
      · obtain ⟨k₂, -, h⟩ := bind_ok h
        cases h
      · obtain ⟨stack, -, h⟩ := bind_ok h
        split at h
        · obtain ⟨vmm, -, h⟩ := bind_ok h
          split at h
          · cases h
          · split at h
            · cases h
            · cases h
              exact hholds.pushContext [_, _, fns.user] (by simp)
        · cases h

/-- `process_create_elf`. -/
theorem processCreateElf_holds {stale : Stale} {path : List Byte} {useLinuxAbi : BitVec 32}
    (inv : KernelHeapInv ⟨k.heap, live⟩ blocks)
    (h : processCreateElf fuel stale fns k path useLinuxAbi = .ok (k', some p)) :
    HoldsProcess ⟨k.heap, live⟩ blocks p.address p.proc.kernelStack k'.heap := by
  rcases processCreateElf_stages h with ⟨-, hnone, -⟩ |
    ⟨-, ⟨k₁, -, hnone, -⟩ | ⟨k₁, p₁, d, ehdr, fd, slot, halloc, -, hload, -⟩⟩
  · cases hnone
  · cases hnone
  · have hholds := processAlloc_holds inv halloc
    unfold loadElf at hload
    dsimp only at hload
    split at hload
    · obtain ⟨k₂, -, hload⟩ := bind_ok hload
      cases hload
    · obtain ⟨stack, -, hload⟩ := bind_ok hload
      split at hload
      · obtain ⟨st, -, hload⟩ := bind_ok hload
        split at hload
        · cases hload
          exact hholds.pushContext [_, _, fns.user] (by simp)
        · cases hload
      · cases hload

end Constructors

/-! ### Runs -/

section Runs

variable {image : BootImage} {fns : Trampolines} {s s' : Population} {call : SystemCall}

/-- All regions of the processes. -/
def Population.regions (s : Population) : List (Nat × Nat) :=
  s.processes.flatMap NewProcess.regions

/-- The heap is one, every region is in a block in use, and no two are in one block. -/
structure PopulationInv (s : Population) : Prop where
  housed : ∃ live blocks, KernelHeapInv ⟨s.system.kernel.heap, live⟩ blocks ∧
    ∀ r ∈ s.regions, ∃ b ∈ inUse blocks, Housed r b
  apart : s.regions.Pairwise Apart

/-- What is in a block in use stays there, and in the heap. -/
theorem housed_of_subset {blocks blocks' : List Block} {regions : List (Nat × Nat)}
    (h : ∀ r ∈ regions, ∃ b ∈ inUse blocks, Housed r b) (hsub : inUse blocks ⊆ inUse blocks') :
    ∀ r ∈ regions, ∃ b ∈ inUse blocks', Housed r b := by
  intro r hr
  obtain ⟨b, hb, hhoused⟩ := h r hr
  exact ⟨b, hsub hb, hhoused⟩

/-- A new process is apart from the others. -/
theorem regions_append {s : HeapHistory} {blocks : List Block} {heap : KernelHeap}
    {regions : List (Nat × Nat)} {p : NewProcess}
    (hregions : ∀ r ∈ regions, ∃ b ∈ inUse blocks, Housed r b) (hapart : regions.Pairwise Apart)
    (h : HoldsProcess s blocks p.address p.proc.kernelStack heap) :
    (∃ live' blocks', KernelHeapInv ⟨heap, live'⟩ blocks' ∧
      ∀ r ∈ regions ++ p.regions, ∃ b ∈ inUse blocks', Housed r b) ∧
    (regions ++ p.regions).Pairwise Apart := by
  obtain ⟨live', blocks', inv', hsub, b, hb, b', hb', hne, hdescriptor, hstack, hnew⟩ := h.owned
  have hmem := fun {c : Block} (hc : c ∈ inUse blocks') => (mem_inUse.1 hc).1
  refine ⟨⟨live', blocks', inv', fun r hr => ?_⟩, ?_⟩
  · rcases List.mem_append.1 hr with hr | hr
    · exact housed_of_subset hregions hsub r hr
    · rcases List.mem_pair.1 hr with rfl | rfl
      · exact ⟨b, hb, hdescriptor⟩
      · exact ⟨b', hb', hstack⟩
  · refine List.pairwise_append.2 ⟨hapart, ?_, fun r hr r' hr' => ?_⟩
    · exact List.pairwise_pair.2 (hdescriptor.apart inv' hstack (hmem hb) (hmem hb') hne)
    · obtain ⟨c, hc, hhoused⟩ := hregions r hr
      rcases List.mem_pair.1 hr' with rfl | rfl
      · exact hhoused.apart inv' hdescriptor (hmem (hsub hc)) (hmem hb) (hnew c hc).1
      · exact hhoused.apart inv' hstack (hmem (hsub hc)) (hmem hb') (hnew c hc).2

/-- What a constructor returns, or that it gives up, keeps the invariant. -/
theorem PopulationInv.constructed (inv : PopulationInv s) {k : Kernel} {new : Option NewProcess}
    (hkernel : s'.system.kernel = k) (hprocesses : s'.processes = s.processes ++ new.toList)
    (hkept : ∀ live blocks, KernelHeapInv ⟨s.system.kernel.heap, live⟩ blocks →
      HeapKept blocks s.system.kernel.heap k.heap)
    (hholds : ∀ live blocks p, KernelHeapInv ⟨s.system.kernel.heap, live⟩ blocks → new = some p →
      HoldsProcess ⟨s.system.kernel.heap, live⟩ blocks p.address p.proc.kernelStack k.heap) :
    PopulationInv s' := by
  obtain ⟨⟨live, blocks, hinv, hregions⟩, hapart⟩ := inv
  have hsame : s'.regions = s.regions ++ new.toList.flatMap NewProcess.regions := by
    unfold Population.regions
    rw [hprocesses, List.flatMap_append]
  rw [← hkernel] at hkept hholds
  cases new with
  | none =>
      obtain ⟨live', blocks', inv', hsub, -⟩ := hkept live blocks hinv
      rw [Option.toList_none, List.flatMap_nil, List.append_nil] at hsame
      exact ⟨⟨live', blocks', inv', hsame ▸ housed_of_subset hregions hsub⟩, hsame ▸ hapart⟩
  | some p =>
      rw [Option.toList_some, List.flatMap_singleton] at hsame
      obtain ⟨hhoused, hapart'⟩ := regions_append hregions hapart (hholds live blocks p hinv rfl)
      exact ⟨hsame ▸ hhoused, hsame ▸ hapart'⟩

/-- Every call keeps the invariant. -/
theorem PopulationInv.step (inv : PopulationInv s) (step : PopulationStep image fns s call s') :
    PopulationInv s' := by
  cases call with
  | create entry =>
      obtain ⟨fuel, k, new, hok, rfl⟩ := step
      exact inv.constructed rfl rfl
        (fun _ _ hinv => processCreate_heapKept (k := s.system.constructing image) hinv hok)
        fun _ _ p hinv hnew =>
          processCreate_holds (k := s.system.constructing image) hinv (hnew ▸ hok)
  | createUser entry =>
      obtain ⟨fuel, k, new, hok, rfl⟩ := step
      exact inv.constructed rfl rfl
        (fun _ _ hinv => processCreateUser_heapKept (k := s.system.constructing image) hinv hok)
        fun _ _ p hinv hnew =>
          processCreateUser_holds (k := s.system.constructing image) hinv (hnew ▸ hok)
  | createElf path useLinuxAbi =>
      obtain ⟨fuel, stale, k, new, hok, rfl⟩ := step
      exact inv.constructed rfl rfl
        (fun _ _ hinv => processCreateElf_heapKept (k := s.system.constructing image) hinv hok)
        fun _ _ p hinv hnew =>
          processCreateElf_holds (k := s.system.constructing image) hinv (hnew ▸ hok)
  | user pid call =>
      obtain ⟨⟨proc, r, -, -, hsystem⟩, hprocesses⟩ := step
      have hheap : s'.system.kernel.heap = s.system.kernel.heap := by rw [hsystem]
      have hregions : s'.regions = s.regions := by
        unfold Population.regions
        rw [hprocesses]
      refine ⟨?_, hregions ▸ inv.apart⟩
      rw [hheap, hregions]
      exact inv.housed

end Runs

/-! ### The processes of the scheduler -/

section HandedOver

open Scheduler

variable {s s' : Scheduler} {first p : NewProcess} {rest processes : List NewProcess}

/-- Whom `process_create` has made for `scheduler_init` and who has been given to `scheduler_add`. -/
def HandedOver (s : Scheduler) (first : NewProcess) (rest : List NewProcess) : Prop :=
  first.address.toNat ≠ 0 ∧ ∃ boot : Scheduler, boot.procs first.address.toNat = first.proc ∧
    Run (fun s (a : Nat × Process) s' => s.EventStep (.add a.1 a.2) s')
      (boot.schedulerInit first.address.toNat) (rest.map fun p => (p.address.toNat, p.proc)) s

/-- An update that keeps stack and page table. -/
theorem setProcess_space (procs : Nat → Process) (p : Nat) {f : Process → Process}
    (hf : ∀ x, SameSpace (f x) x) (q : Nat) :
    SameSpace (setProcess procs p (f (procs p)) q) (procs q) := by
  by_cases hq : q = p
  · rw [hq, setProcess_self]
    exact hf _
  · rw [setProcess_of_ne hq]
    exact ⟨rfl, rfl⟩

/-- `scheduler_add` changes states and links only. -/
theorem schedulerAdd_space {p : Nat} (h : s.schedulerAdd p = some s') (q : Nat) :
    SameSpace (s'.procs q) (s.procs q) := by
  unfold schedulerAdd at h
  split at h
  · cases h
    exact ⟨rfl, rfl⟩
  · obtain ⟨tail, -, h⟩ := Option.bind_eq_some_iff.1 h
    cases h
    have hready := setProcess_space s.procs p (f := fun x => { x with state := .ready })
      (fun _ => ⟨rfl, rfl⟩) q
    have hnext := setProcess_space (setProcess s.procs p { s.procs p with state := .ready }) p
      (f := fun x => { x with next := s.idle }) (fun _ => ⟨rfl, rfl⟩) q
    exact (setProcess_space _ tail (f := fun x => { x with next := p })
      (fun _ => ⟨rfl, rfl⟩) q).trans (hnext.trans hready)

/-- The scheduler has the processes, in their order, with the stacks they were given. -/
def Has (s : Scheduler) (processes : List NewProcess) : Prop :=
  s.members = processes.map (fun p => p.address.toNat) ∧
    ∀ p ∈ processes, (s.procs p.address.toNat).kernelStack = p.proc.kernelStack

theorem Has.add (h : Has s processes) (inv : PreparedInv s)
    (step : s.EventStep (.add p.address.toNat p.proc) s') : Has s' (processes ++ [p]) := by
  obtain ⟨hne, hfresh, hadd⟩ := step
  obtain ⟨-, hmembers, -⟩ := schedulerAdd_spec inv.ring hne hfresh hadd
  have hspace := schedulerAdd_space hadd
  refine ⟨?_, fun q hq => ?_⟩
  · rw [hmembers, h.1, List.map_append]
    rfl
  · rw [(hspace q.address.toNat).1]
    rcases List.mem_append.1 hq with hq | hq
    · have hmem : q.address.toNat ∈ s.members := by
        rw [h.1]
        exact List.mem_map_of_mem hq
      have hother : q.address.toNat ≠ p.address.toNat := fun heq => hfresh (heq ▸ hmem)
      show (setProcess s.procs p.address.toNat p.proc q.address.toNat).kernelStack = _
      rw [setProcess_of_ne hother]
      exact h.2 q hq
    · rw [List.mem_singleton.1 hq]
      show (setProcess s.procs p.address.toNat p.proc p.address.toNat).kernelStack = _
      rw [setProcess_self]

theorem has_of_run : ∀ (rest : List NewProcess) {processes : List NewProcess} {s s' : Scheduler},
    Has s processes → PreparedInv s →
    Run (fun s (a : Nat × Process) s' => s.EventStep (.add a.1 a.2) s') s
      (rest.map fun p => (p.address.toNat, p.proc)) s' → Has s' (processes ++ rest)
  | [], _, _, _, h, _, run => by
      cases run
      rw [List.append_nil]
      exact h
  | p :: rest, processes, _, _, h, inv, run => by
      rw [List.map_cons] at run
      cases run with
      | cons head tail =>
          have hrest := has_of_run rest (h.add inv head) (inv.add head) tail
          rwa [List.append_assoc] at hrest

theorem HandedOver.prepared (h : HandedOver s first rest) : Prepared s := by
  obtain ⟨hne, boot, -, run⟩ := h
  exact ⟨boot, _, _, hne, run⟩

theorem HandedOver.has (h : HandedOver s first rest) : Has s (first :: rest) := by
  obtain ⟨hne, boot, hproc, run⟩ := h
  refine @has_of_run rest [first] _ _ ⟨rfl, fun p hp => ?_⟩ (preparedInv_init boot hne) run
  obtain rfl := List.mem_singleton.1 hp
  show (setProcess boot.procs p.address.toNat _ p.address.toNat).kernelStack = _
  rw [setProcess_self, hproc]

/-- A kernel stack is the second region of its process. -/
theorem kernelStack_toNat {p : NewProcess}
    (h : ∀ r ∈ p.regions, heapLo ≤ r.1 ∧ r.1 + r.2 ≤ heapHi) :
    p.proc.kernelStack.toNat = (p.proc.kernelStack - kernelStackSize).toNat + 16384 := by
  have hstack := (h _ (List.mem_pair.2 (.inr rfl))).2
  have hadd : p.proc.kernelStack = p.proc.kernelStack - kernelStackSize + kernelStackSize := by
    rw [BitVec.sub_add_cancel]
  rw [hadd, BitVec.toNat_add, BitVec.add_sub_cancel, show kernelStackSize.toNat = 16384 from rfl]
  unfold heapHi at hstack
  omega

/-- Regions that are apart make stacks that are apart. -/
theorem Has.stacksApart (h : Has s processes)
    (hapart : (processes.flatMap NewProcess.regions).Pairwise Apart)
    (hheap : ∀ r ∈ processes.flatMap NewProcess.regions, heapLo ≤ r.1 ∧ r.1 + r.2 ≤ heapHi) :
    StacksApart s := by
  have hstack : ∀ p ∈ processes,
      p.proc.kernelStack.toNat = (p.proc.kernelStack - kernelStackSize).toNat + 16384 :=
    fun p hp => kernelStack_toNat fun r hr => hheap r (List.mem_flatMap_of_mem hp hr)
  have hmember : ∀ q ∈ s.members, ∃ p ∈ processes, p.address.toNat = q := by
    intro q hq
    rw [h.1] at hq
    exact List.mem_map.1 hq
  -- two processes of the list have different second regions
  have hpairs : processes.Pairwise fun p q =>
      Apart ((p.proc.kernelStack - kernelStackSize).toNat, 16384)
        ((q.proc.kernelStack - kernelStackSize).toNat, 16384) := by
    rw [List.pairwise_flatMap] at hapart
    refine hapart.2.imp fun hpq => hpq _ (List.mem_pair.2 (.inr rfl)) _ (List.mem_pair.2 (.inr rfl))
  refine ⟨fun q hq => ?_, fun q hq q' hq' hne a ha ha' => ?_⟩
  · obtain ⟨p, hp, rfl⟩ := hmember q hq
    rw [h.2 p hp, hstack p hp]
    omega
  · obtain ⟨p, hp, rfl⟩ := hmember q hq
    obtain ⟨p', hp', rfl⟩ := hmember q' hq'
    have hne' : p ≠ p' := fun heq => hne (heq ▸ rfl)
    have : Std.Symm fun p q : NewProcess =>
        Apart ((p.proc.kernelStack - kernelStackSize).toNat, 16384)
          ((q.proc.kernelStack - kernelStackSize).toNat, 16384) := ⟨fun _ _ h => Or.symm h⟩
    have happ := hpairs.forall hp hp' hne'
    unfold OnStack at ha ha'
    rw [h.2 p hp, hstack p hp] at ha
    rw [h.2 p' hp', hstack p' hp'] at ha'
    unfold Apart at happ
    omega

end HandedOver

/-- From a booted kernel on, through any calls of the constructors, whether they return a process or
    give up, and of user processes: the descriptors and kernel stacks of all processes are in the
    heap, and no two of them overlap. So the kernel stacks of any of these processes that are handed to
    the scheduler are apart. -/
theorem process_memory_apart (image : BootImage) (fns : Trampolines) (s s' : Population)
    (mem : ByteMem) (calls : List SystemCall) (hheap : s.system.kernel.heap = heapInit mem)
    (hnone : s.processes = []) (run : Run (PopulationStep image fns) s calls s') :
    s'.regions.Pairwise Apart ∧ (∀ r ∈ s'.regions, heapLo ≤ r.1 ∧ r.1 + r.2 ≤ heapHi) ∧
      ∀ (sched : Scheduler) (first : NewProcess) (rest : List NewProcess),
        (first :: rest).Sublist s'.processes → HandedOver sched first rest →
          sched.Prepared ∧ StacksApart sched := by
  have start : PopulationInv s := by
    have hregions : s.regions = [] := by
      unfold Population.regions
      rw [hnone, List.flatMap_nil]
    refine ⟨⟨[], _, hheap ▸ KernelHeapInv.init mem, fun r hr => ?_⟩, hregions ▸ List.Pairwise.nil⟩
    rw [hregions] at hr
    exact absurd hr List.not_mem_nil
  have inv := run.invariant PopulationInv (fun _ _ _ inv step => inv.step step) start
  obtain ⟨⟨live, blocks, hinv, hhoused⟩, hapart⟩ := inv
  have hbounds : ∀ r ∈ s'.regions, heapLo ≤ r.1 ∧ r.1 + r.2 ≤ heapHi := by
    intro r hr
    obtain ⟨b, hb, haddr, hsize⟩ := hhoused r hr
    have hblock := hinv.rep.bounds (mem_inUse.1 hb).1
    omega
  refine ⟨hapart, hbounds, fun sched first rest hsub hover => ⟨hover.prepared, ?_⟩⟩
  have hregions := hsub.flatMap NewProcess.regions
  exact hover.has.stacksApart (hapart.sublist hregions) fun r hr => hbounds r (hregions.subset hr)

/-! ### Two processes -/

/-- A kernel before its first process. -/
def firstPopulation : Population :=
  ⟨⟨firstKernel { pmm := pmmInit megabyteImage, mem := fun _ _ => 0, cr3 := 0 }, []⟩, []⟩

/-- A call of `process_create`, in a heap of less than 16 blocks. -/
def Population.play (s : Population) : SystemCall → Option Population
  | .create entry =>
      match processCreate 16 ⟨0x101000, 0x102000⟩ (s.system.constructing bootedImage) entry with
      | .ok (k, new) =>
          some { system := { s.system with kernel := k }, processes := s.processes ++ new.toList }
      | .error _ => none
  | _ => none

theorem Population.play_step {s s' : Population} {call : SystemCall} (h : s.play call = some s') :
    PopulationStep bootedImage ⟨0x101000, 0x102000⟩ s call s' := by
  cases call with
  | create entry =>
      rw [play] at h
      split at h
      · rename_i k new hcreate
        exact ⟨16, k, new, hcreate, (Option.some.inj h).symm⟩
      · cases h
  | createUser entry => cases h
  | createElf path useLinuxAbi => cases h
  | user pid call => cases h

/-- The kernel with idle and one process more. -/
def twoCreated : Population :=
  ([SystemCall.create 0x103000, .create 0x104000].foldlM Population.play firstPopulation).getD
    firstPopulation

theorem twoCreated_run : Run (PopulationStep bootedImage ⟨0x101000, 0x102000⟩) firstPopulation
    [.create 0x103000, .create 0x104000] twoCreated :=
  .of_foldlM (fun _ _ _ => Population.play_step) (eq_some_getD (by decide +kernel) _)

/-- Descriptor and top of the kernel stack of both. -/
theorem twoCreated_addresses : twoCreated.processes.map (fun p => (p.address, p.proc.kernelStack)) =
    [(0xC0000018#64, 0xC0004118#64), (0xC0004130#64, 0xC0008230#64)] := by
  decide +kernel

/-- `scheduler_init` has made the first one idle, and the second one is added. -/
theorem process_memory_apart_two : ∃ (p q : NewProcess) (sched : Scheduler),
    twoCreated.processes = [p, q] ∧ (p.regions ++ q.regions).Pairwise Apart ∧
      HandedOver sched p [q] ∧ StacksApart sched := by
  have haddresses := twoCreated_addresses
  obtain ⟨p, q, hprocesses⟩ : ∃ p q, twoCreated.processes = [p, q] := by
    have hlength := congrArg List.length haddresses
    rw [List.length_map] at hlength
    exact List.length_eq_two.1 hlength
  rw [hprocesses, List.map_cons, List.map_singleton] at haddresses
  obtain ⟨hfirst, hrest⟩ := List.cons.inj haddresses
  have hp : p.address = 0xC0000018#64 := (Prod.mk.inj hfirst).1
  have hq : q.address = 0xC0004130#64 := (Prod.mk.inj (List.cons.inj hrest).1).1
  have hne : p.address.toNat ≠ 0 := by
    rw [hp]
    decide
  have hfresh : q.address.toNat ∉ ({ Scheduler.blankBoot with
      procs := fun _ => p.proc }.schedulerInit p.address.toNat).members := by
    show q.address.toNat ∉ [p.address.toNat]
    rw [hp, hq]
    decide
  obtain ⟨sched, hadd⟩ := Scheduler.schedulerAdd_returns q.proc
    (Scheduler.preparedInv_init { Scheduler.blankBoot with procs := fun _ => p.proc } hne).ring hfresh
  have hover : HandedOver sched p [q] := by
    refine ⟨hne, _, rfl, .single ⟨?_, hfresh, hadd⟩⟩
    show q.address.toNat ≠ 0
    rw [hq]
    decide
  obtain ⟨hapart, -, hstacks⟩ := process_memory_apart bootedImage ⟨0x101000, 0x102000⟩
    firstPopulation twoCreated (fun _ => 0) _ rfl rfl twoCreated_run
  rw [Population.regions, hprocesses, List.flatMap_cons, List.flatMap_singleton] at hapart
  refine ⟨p, q, sched, hprocesses, hapart, hover, (hstacks sched p [q] ?_ hover).2⟩
  rw [hprocesses]

end CustomKernel
