/-
Module: CustomKernel.Proofs.MallocSimulation
Layer: Proofs
Purpose: The user allocator simulates the machine of blocks: every call of `malloc`, `calloc`,
  `realloc` and `free` is matched by steps of that machine, for any `u_sbrk` that moves the break of
  the kernel it runs on. With a break that nothing else moves, the blocks tile the heap, no two free
  ones are neighbours, and the payloads handed out are apart, over all sequences of calls.
Imports: CustomKernel.Proofs.UserMalloc, CustomKernel.Library.Runs
Trusted boundary: none (fully proved)
Main exports: SbrkLaw, Sim, malloc_sim, free_sim, realloc_sim, user_malloc_invariant
-/
import CustomKernel.Proofs.UserMalloc
import CustomKernel.Library.Runs

namespace CustomKernel.User

open ByteMemory BlockList StepSystem

variable {κ : Type} {Env : κ → Nat → Prop} {sbrk : Sbrk κ}

/-! ### The relation -/

/-- What the allocator relies on: `u_sbrk` leaves the bytes below the break alone and either fails
    without moving it, or returns it and moves it by the increment. `Env k top` says that the kernel
    in state `k` has the break at `top`. -/
def SbrkLaw (Env : κ → Nat → Prop) (sbrk : Sbrk κ) : Prop :=
  ∀ {k k' : κ} {mem mem' : ByteMem} {top : Nat} {increment r : Word}, Env k top →
    32 ≤ increment.toNat → increment.toNat < 2 ^ 63 →
    sbrk k mem increment = some (k', mem', r) →
    (∀ a < top, mem' a = mem a) ∧
      ((r = -1#64 ∧ Env k' top) ∨
        (r.toNat = top ∧ top + increment.toNat < 2 ^ 64 ∧ Env k' (top + increment.toNat)))

/-- The process's memory represents the blocks, and the break is where the blocks end. -/
structure Sim (Env : κ → Nat → Prop) (lo : Nat) (h : UserHeap κ) (s : BlockHeap) : Prop where
  rep : MallocRep h.mem h.heapList lo s.top s.blocks
  env : Env h.kernel s.top

/-- The block at `addr` is in use and has at least `size` bytes. -/
def BlockHeap.Holds (s : BlockHeap) (addr size : Nat) : Prop :=
  ∃ b ∈ s.blocks, b.addr = addr ∧ b.free = false ∧ size ≤ b.size

section Simulation

variable {lo fuel : Nat} {h h' : UserHeap κ} {s : BlockHeap} {size ptr : Word}

theorem toNat_align8 (hsize : size.toNat + 39 < 2 ^ 63) :
    (align8 size).toNat = (size.toNat + 7) / 8 * 8 := by
  have h := Bits.toNat_and_not_lowMask (size + 7#64) (n := 3) (by decide)
  rw [BitVec.toNat_add, BitVec.toNat_ofNat, Nat.mod_eq_of_lt (by omega)] at h
  exact h

/-! ### malloc -/

/-- The end of the search: the heap grows by a block, or the call fails. -/
theorem mallocExtend_sim {bytes last : Word} (law : SbrkLaw Env sbrk) (sim : Sim Env lo h s)
    (hbytes : bytes.toNat + 32 < 2 ^ 63) (hlast : last.toNat = lastAddr 0 s.blocks)
    (hrun : mallocExtend sbrk h bytes last = some (h', ptr)) :
    (ptr = 0#64 ∧ Sim Env lo h' s) ∨
      ∃ s', BlockStep s (.allocate s.top) s' ∧ ptr.toNat = s.top + 32 ∧ Sim Env lo h' s' ∧
        s'.Holds s.top bytes.toNat := by
  obtain ⟨⟨h₁, nb⟩, hextend, hrun⟩ := Option.bind_eq_some_iff.1 hrun
  obtain ⟨⟨k, mem, r⟩, hsbrk, hextend⟩ := Option.bind_eq_some_iff.1 hextend
  dsimp only at hextend hrun
  have hinc : (blkSizeof + bytes).toNat = 32 + bytes.toNat := by
    rw [blkSizeof, BitVec.toNat_add, BitVec.toNat_ofNat]
    omega
  obtain ⟨hsame, hresult⟩ := law sim.env (by omega) (by omega) hsbrk
  have rep := sim.rep.congr hsame
  rcases hresult with ⟨rfl, henv⟩ | ⟨hr, htop, henv⟩
  · rw [if_pos rfl] at hextend
    cases hextend
    rw [if_pos rfl] at hrun
    cases hrun
    exact .inl ⟨rfl, rep, henv⟩
  right
  rw [hinc] at htop henv
  rw [← Nat.add_assoc] at henv htop
  have hpos := sim.rep.pos
  have hle := sim.rep.ordered.le
  have hne : r ≠ -1#64 := by
    intro hr'
    have hnat : r.toNat = 2 ^ 64 - 1 := by rw [hr']; rfl
    omega
  have hne' : r ≠ 0#64 := by
    intro hr'
    have hnat : r.toNat = 0 := by rw [hr']; rfl
    omega
  have hptr : (r + blkSizeof).toNat = s.top + 32 := by
    rw [blkSizeof, BitVec.toNat_add, hr, BitVec.toNat_ofNat]
    omega
  rw [if_neg hne] at hextend
  cases hextend
  rw [if_neg hne'] at hrun
  refine ⟨_, @BlockStep.append s.blocks bytes.toNat _ _, ?_⟩
  have hholds : BlockHeap.Holds ⟨s.blocks ++ [⟨s.top, bytes.toNat, false⟩],
      s.top + 32 + bytes.toNat, (s.top, s.top + 32 + bytes.toNat) :: s.owned⟩ s.top bytes.toNat :=
    ⟨_, List.mem_append_right _ (List.mem_singleton_self _), rfl, rfl, Nat.le_refl _⟩
  rcases List.eq_nil_or_concat s.blocks with hnil | ⟨front, l, hconcat⟩
  · have hnull : h.heapList = 0#64 := by
      apply BitVec.eq_of_toNat_eq
      rw [sim.rep.head, hnil]
      rfl
    rw [if_pos hnull] at hrun
    cases hrun
    refine ⟨hptr, ⟨?_, henv⟩, hholds⟩
    rw [hnil] at rep ⊢
    exact rep.append_first hr htop
  · rw [List.concat_eq_append] at hconcat
    have hfirst := sim.rep.head
    have hnull : h.heapList ≠ 0#64 := by
      intro hzero
      have hempty := (pointer_eq_zero hpos sim.rep.ordered hfirst).1 hzero
      rw [hempty] at hconcat
      exact absurd hconcat (by simp)
    rw [if_neg hnull] at hrun
    cases hrun
    refine ⟨hptr, ⟨?_, henv⟩, hholds⟩
    rw [hconcat] at rep hlast
    rw [hconcat, List.append_assoc]
    rw [lastAddr_append, lastAddr_cons, lastAddr_nil] at hlast
    exact rep.append_last hr hlast htop

/-- `malloc` when no block fits and `u_sbrk` succeeds. -/
theorem malloc_extends {mem mem' : ByteMem} {heapList last r : Word} {k k' : κ} (hsize : size ≠ 0#64)
    (hloop : mallocLoop (align8 size) mem fuel heapList 0#64 = some (.exhausted last))
    (hsbrk : sbrk k mem (blkSizeof + align8 size) = some (k', mem', r)) (hr : r ≠ -1#64)
    (hr' : r ≠ 0#64) :
    malloc sbrk fuel ⟨k, mem, heapList⟩ size = some
      (if heapList = 0#64 then ⟨k', writeBlk r (align8 size) mem', r⟩
        else ⟨k', setNext last r (setPrev r last (writeBlk r (align8 size) mem')), heapList⟩,
        r + blkSizeof) := by
  have hextend : blkExtend sbrk ⟨k, mem, heapList⟩ (align8 size) = some
      (⟨k', setNext r 0#64 (setPrev r 0#64 (setFree r 1#32 (setMagic r freeMagic
        (setSize r (align8 size) mem')))), heapList⟩, r) :=
    Option.bind_eq_some_iff.2 ⟨_, hsbrk, if_neg hr⟩
  unfold malloc
  rw [if_neg hsize]
  refine Option.bind_eq_some_iff.2 ⟨_, hloop, Option.bind_eq_some_iff.2 ⟨_, hextend, ?_⟩⟩
  dsimp only
  rw [if_neg hr']
  split <;> rfl

/-- `malloc` fails and leaves the blocks alone, or puts a block in use. -/
theorem malloc_sim (law : SbrkLaw Env sbrk) (sim : Sim Env lo h s)
    (hsize : size.toNat + 39 < 2 ^ 63) (hrun : malloc sbrk fuel h size = some (h', ptr)) :
    (ptr = 0#64 ∧ Sim Env lo h' s) ∨
      ∃ a s', BlockStep s (.allocate a) s' ∧ ptr.toNat = a + 32 ∧ Sim Env lo h' s' ∧
        s'.Holds a (align8 size).toNat := by
  have halign := toNat_align8 hsize
  unfold malloc at hrun
  by_cases hzero : size = 0#64
  · rw [if_pos hzero] at hrun
    cases hrun
    exact .inl ⟨rfl, sim⟩
  rw [if_neg hzero] at hrun
  obtain ⟨r, hsearch, hrun⟩ := Option.bind_eq_some_iff.1 hrun
  rcases mallocLoop_spec sim.rep.pos sim.rep.ordered sim.rep.head rfl sim.rep.linked hsearch with
    ⟨last, rfl, hlast⟩ | ⟨pre, b, post, hblocks, hfree, hfit, p, hp, rfl⟩
  · rcases mallocExtend_sim law sim (by omega) hlast hrun with hfail | ⟨s', hs'⟩
    · exact .inl hfail
    · exact .inr ⟨s.top, s', hs'⟩
  · cases hrun
    right
    obtain ⟨blocks, top, owned⟩ := s
    change blocks = pre ++ b :: post at hblocks
    subst hblocks
    refine ⟨b.addr, _, BlockStep.take hfree hfit, ?_, ⟨sim.rep.take hp hfit (by omega), sim.env⟩, ?_⟩
    · have hhi := (sim.rep.bounds (b := b) (by simp)).2
      have htop := sim.rep.top
      rw [blkSizeof, BitVec.toNat_add, hp, BitVec.toNat_ofNat]
      dsimp only at hhi htop
      omega
    · obtain ⟨u, rest, hcut, haddr, hused, hbig⟩ := @cut_cons 32 8 _ _ hfit
      exact ⟨u, by simp [hcut], haddr, hused, hbig⟩

/-! ### Payloads -/

/-- Stores into the payload of a block leave the blocks alone. -/
theorem Sim.payload {mem : ByteMem} {b : Block} (sim : Sim Env lo h s) (hb : b ∈ s.blocks)
    (hsame : ∀ a, a < b.addr + 32 ∨ b.stop 32 ≤ a → mem a = h.mem a) :
    Sim Env lo { h with mem := mem } s :=
  ⟨sim.rep.payload hb hsame, sim.env⟩

/-- `calloc` does what `malloc` does, up to the contents of the payload. -/
theorem calloc_sim {nmemb : Word} (law : SbrkLaw Env sbrk) (sim : Sim Env lo h s)
    (hsize : nmemb.toNat * size.toNat + 39 < 2 ^ 63)
    (hrun : calloc sbrk fuel h nmemb size = some (h', ptr)) :
    (ptr = 0#64 ∧ Sim Env lo h' s) ∨
      ∃ a s', BlockStep s (.allocate a) s' ∧ ptr.toNat = a + 32 ∧ Sim Env lo h' s' ∧
        s'.Holds a (align8 (nmemb * size)).toNat := by
  have htotal : (nmemb * size).toNat = nmemb.toNat * size.toNat := by
    rw [BitVec.toNat_mul, Nat.mod_eq_of_lt (by omega)]
  obtain ⟨⟨h₁, p⟩, hmalloc, hrun⟩ := Option.bind_eq_some_iff.1 hrun
  dsimp only at hrun
  rcases malloc_sim law sim (by omega) hmalloc with ⟨rfl, hsim⟩ | ⟨a, s', step, hp, hsim, hholds⟩
  · rw [if_pos rfl] at hrun
    cases hrun
    exact .inl ⟨rfl, hsim⟩
  · have hne : p ≠ 0#64 := by
      intro hzero
      have hnat : p.toNat = 0 := by rw [hzero]; rfl
      omega
    rw [if_neg hne] at hrun
    cases hrun
    refine .inr ⟨a, s', step, hp, ?_, hholds⟩
    obtain ⟨b, hb, haddr, -, hbig⟩ := hholds
    rw [toNat_align8 (by omega)] at hbig
    refine hsim.payload hb fun x hx => zero_loop_outside ?_
    unfold Block.stop at hx
    omega

/-! ### free -/

theorem free_null (h : UserHeap κ) : free h 0#64 = h := if_pos rfl

/-- `free` of a live pointer releases its block. -/
theorem free_sim {a : Nat} (sim : Sim Env lo h s) (hlive : s.Live a) (hptr : ptr.toNat = a + 32) :
    ∃ s', BlockStep s (.release a) s' ∧ s'.owned = s.owned ∧ Sim Env lo (free h ptr) s' := by
  obtain ⟨b, hb, rfl⟩ := hlive
  obtain ⟨hmem, hused⟩ := mem_inUse.1 hb
  obtain ⟨pre, post, hblocks⟩ := List.append_of_mem hmem
  obtain ⟨blocks, top, owned⟩ := s
  change blocks = pre ++ b :: post at hblocks
  subst hblocks
  obtain ⟨b₁, post', pre', b₂, hright, hleft, hkernel, hrep, -⟩ := sim.rep.free hused hptr
  refine ⟨⟨pre' ++ b₂ :: post', top, owned⟩, .release hused hright hleft, rfl, ⟨hrep, ?_⟩⟩
  rw [hkernel]
  exact sim.env

/-! ### realloc -/

/-- The copying loop writes the bytes it still has to count, as long as it does not overwrite the size
    that it counts to. -/
theorem copyLoop_spec {b : Block} {p src dst : Word} {fuel i : Nat} {mem mem' : ByteMem}
    (hp : p.toNat = b.addr) (hsize : load mem 8 b.addr = b.size)
    (hapart : b.addr + 8 ≤ dst.toNat ∨ dst.toNat + b.size ≤ b.addr)
    (hrun : copyLoop p src dst fuel i mem = some mem') {a : Nat}
    (ha : a < dst.toNat + i ∨ dst.toNat + b.size ≤ a) : mem' a = mem a := by
  induction fuel generalizing i mem with
  | zero => cases hrun
  | succ fuel ih =>
      rw [copyLoop, toNat_blkSize, hp, hsize] at hrun
      by_cases hi : i < b.size
      · rw [if_pos hi] at hrun
        have hsize' : load (store 1 (dst.toNat + i) (mem (src.toNat + i)).toNat mem) 8 b.addr =
            b.size := by
          rw [load_store_apart (by omega), hsize]
        exact (ih hsize' hrun (by omega)).trans (store_outside (by omega))
      · rw [if_neg hi] at hrun
        cases hrun
        rfl

/-- The size that `realloc` compares with the request. -/
theorem Sim.size_lt {b : Block} {p : Word} (sim : Sim Env lo h s) (hb : b ∈ inUse s.blocks)
    (hp : p.toNat = b.addr) (hfits : ¬ align8 size ≤ blkSize h.mem p) :
    b.size < (align8 size).toNat := by
  obtain ⟨_, _, hheader⟩ := sim.rep.linked.mem (mem_inUse.1 hb).1
  rw [BitVec.le_def, hheader.blkSize_eq hp] at hfits
  omega

/-- After the allocation in `realloc` the old block is still there, apart from the new one, which
    has room for its bytes. -/
theorem realloc_room {a n : Nat} {b : Block} {s₁ : BlockHeap} {h₁ : UserHeap κ}
    (sim : Sim Env lo h s) (step : BlockStep s (.allocate a) s₁) (hsim : Sim Env lo h₁ s₁)
    (hholds : s₁.Holds a n) (hb : b ∈ inUse s.blocks) (hshort : b.size < n) :
    ∃ u ∈ s₁.blocks, u.addr = a ∧ b ∈ inUse s₁.blocks ∧ load h₁.mem 8 b.addr = b.size ∧
      (b.addr + 32 + b.size ≤ a ∨ a + 32 + b.size ≤ b.addr) ∧ b.size ≤ u.size := by
  have hb₁ := step.keeps hb
  have hmem₁ := (mem_inUse.1 hb₁).1
  obtain ⟨u, hu, rfl, -, hbig⟩ := hholds
  obtain ⟨_, _, hheader⟩ := hsim.rep.linked.mem hmem₁
  have hne : u.addr ≠ b.addr := step.allocate_ne sim.rep.ordered ⟨b, hb, rfl⟩
  have hapart := hsim.rep.ordered.apart hu hmem₁ hne
  unfold Block.stop at hapart
  exact ⟨u, hu, rfl, hb₁, hheader.size, by omega, by omega⟩

/-- The steps of the machine that match a `realloc` of the block at `a`. -/
inductive ReallocEvents (mem : ByteMem) (ptr newSize result : Word) (a : Nat) :
    List BlockEvent → Prop
  | stays (h : result = ptr) : ReallocEvents mem ptr newSize result a []
  | fails (h : result = 0#64) (hsize : newSize ≠ 0#64) : ReallocEvents mem ptr newSize result a []
  | frees (h : result = 0#64) (hsize : newSize = 0#64) :
      ReallocEvents mem ptr newSize result a [.release a]
  | moves {a' : Nat} (h : result.toNat = a' + 32)
      (hfits : ¬ align8 newSize ≤ blkSize mem (ptr - blkSizeof)) :
      ReallocEvents mem ptr newSize result a [.allocate a', .release a]

/-- `realloc` of a live pointer. -/
theorem realloc_sim {a : Nat} {result : Word} (law : SbrkLaw Env sbrk) (sim : Sim Env lo h s)
    (hsize : size.toNat + 39 < 2 ^ 63) (hlive : s.Live a) (hptr : ptr.toNat = a + 32)
    (hrun : realloc sbrk fuel h ptr size = some (h', result)) :
    ∃ events s', Run BlockStep s events s' ∧ Sim Env lo h' s' ∧
      ReallocEvents h.mem ptr size result a events := by
  have hne : ptr ≠ 0#64 := by
    intro hzero
    have hnat : ptr.toNat = 0 := by rw [hzero]; rfl
    omega
  unfold realloc at hrun
  rw [if_neg hne] at hrun
  by_cases hzero : size = 0#64
  · rw [if_pos hzero] at hrun
    cases hrun
    obtain ⟨s', step, -, hsim⟩ := free_sim sim hlive hptr
    exact ⟨_, s', .single step, hsim, .frees rfl hzero⟩
  rw [if_neg hzero] at hrun
  dsimp only at hrun
  by_cases hfits : align8 size ≤ blkSize h.mem (ptr - blkSizeof)
  · rw [if_pos hfits] at hrun
    cases hrun
    exact ⟨[], s, .nil s, sim, .stays rfl⟩
  rw [if_neg hfits] at hrun
  obtain ⟨⟨h₁, fresh⟩, hmalloc, hrun⟩ := Option.bind_eq_some_iff.1 hrun
  dsimp only at hrun
  rcases malloc_sim law sim hsize hmalloc with ⟨rfl, hsim⟩ | ⟨a', s₁, step, hfresh, hsim, hholds⟩
  · rw [if_pos rfl] at hrun
    cases hrun
    exact ⟨[], s, .nil s, hsim, .fails rfl hzero⟩
  have hfresh_ne : fresh ≠ 0#64 := by
    intro hz
    have hnat : fresh.toNat = 0 := by rw [hz]; rfl
    omega
  rw [if_neg hfresh_ne] at hrun
  obtain ⟨mem, hcopy, hrun⟩ := Option.bind_eq_some_iff.1 hrun
  cases hrun
  have hp := toNat_sub_sizeof hptr
  obtain ⟨b, hb, rfl⟩ := hlive
  have hshort := sim.size_lt hb hp hfits
  obtain ⟨u, hu, rfl, hb₁, hold, hapart, hroom⟩ := realloc_room sim step hsim hholds hb hshort
  have hcopied : Sim Env lo { h₁ with mem := mem } s₁ := by
    refine hsim.payload hu fun x hx => copyLoop_spec hp hold (by omega) hcopy ?_
    unfold Block.stop at hx
    omega
  obtain ⟨s', hrelease, -, hfinal⟩ := free_sim hcopied ⟨b, hb₁, rfl⟩ hptr
  exact ⟨_, s', .cons step (.single hrelease), hfinal, .moves hfresh hfits⟩

/-! ### Termination -/

/-- The search of `malloc` ends, so it returns if `u_sbrk` does. -/
theorem malloc_returns (hsbrk : ∀ k mem increment, ∃ r, sbrk k mem increment = some r)
    (sim : Sim Env lo h s) (hfuel : 2 ^ 64 ≤ fuel) (size : Word) :
    ∃ h' ptr, malloc sbrk fuel h size = some (h', ptr) := by
  have hlength := sim.rep.ordered.length_le (by decide)
  have htop := sim.rep.top
  unfold malloc
  split
  · exact ⟨_, _, rfl⟩
  · obtain ⟨r, hsearch⟩ := @mallocLoop_returns _ (align8 size) _ _ _ _ _ 0#64 _ sim.rep.pos
      sim.rep.ordered sim.rep.head sim.rep.linked (by omega : _ < fuel)
    cases r with
    | found mem ptr => exact ⟨_, _, Option.bind_eq_some_iff.2 ⟨_, hsearch, rfl⟩⟩
    | exhausted last =>
        obtain ⟨⟨k, mem, r⟩, hr⟩ := hsbrk h.kernel h.mem (blkSizeof + align8 size)
        obtain ⟨⟨h₁, nb⟩, hextend⟩ : ∃ r, blkExtend sbrk h (align8 size) = some r := by
          unfold blkExtend
          rw [hr]
          simp only [Option.bind_eq_bind, Option.bind_some]
          split <;> exact ⟨_, rfl⟩
        obtain ⟨⟨h', ptr⟩, hrest⟩ : ∃ r, mallocExtend sbrk h (align8 size) last = some r := by
          unfold mallocExtend
          rw [hextend]
          simp only [Option.bind_eq_bind, Option.bind_some]
          split
          · exact ⟨_, rfl⟩
          · split <;> exact ⟨_, rfl⟩
        exact ⟨h', ptr, Option.bind_eq_some_iff.2 ⟨_, hsearch, hrest⟩⟩

/-- The copying loop ends. -/
theorem copyLoop_returns {b : Block} {p src dst : Word} {i : Nat} {mem : ByteMem}
    (hp : p.toNat = b.addr) (hsize : load mem 8 b.addr = b.size)
    (hapart : b.addr + 8 ≤ dst.toNat ∨ dst.toNat + b.size ≤ b.addr) (hfuel : b.size - i < fuel) :
    ∃ mem', copyLoop p src dst fuel i mem = some mem' := by
  induction fuel generalizing i mem with
  | zero => omega
  | succ fuel ih =>
      rw [copyLoop, toNat_blkSize, hp, hsize]
      by_cases hi : i < b.size
      · rw [if_pos hi]
        exact ih (by rw [load_store_apart (by omega), hsize]) (by omega)
      · rw [if_neg hi]
        exact ⟨mem, rfl⟩

theorem realloc_returns {a : Nat} (law : SbrkLaw Env sbrk)
    (hsbrk : ∀ k mem increment, ∃ r, sbrk k mem increment = some r) (sim : Sim Env lo h s)
    (hfuel : 2 ^ 64 ≤ fuel) (hsize : size.toNat + 39 < 2 ^ 63) (hlive : s.Live a)
    (hptr : ptr.toNat = a + 32) : ∃ r, realloc sbrk fuel h ptr size = some r := by
  unfold realloc
  split
  · obtain ⟨h', p, hmalloc⟩ := malloc_returns hsbrk sim hfuel size
    exact ⟨_, hmalloc⟩
  split
  · exact ⟨_, rfl⟩
  dsimp only
  split
  · exact ⟨_, rfl⟩
  rename_i hfits
  obtain ⟨h₁, fresh, hmalloc⟩ := malloc_returns hsbrk sim hfuel size
  rw [hmalloc]
  simp only [Option.bind_eq_bind, Option.bind_some]
  split
  · exact ⟨_, rfl⟩
  rename_i hfresh
  rcases malloc_sim law sim hsize hmalloc with ⟨hzero, -⟩ | ⟨a', s₁, step, hnat, hsim, hholds⟩
  · exact absurd hzero hfresh
  obtain ⟨b, hb, rfl⟩ := hlive
  have hp := toNat_sub_sizeof hptr
  have hshort := sim.size_lt hb hp hfits
  obtain ⟨u, hu, rfl, -, hold, hapart, -⟩ := realloc_room sim step hsim hholds hb hshort
  have hlt := (align8 size).isLt
  obtain ⟨mem, hcopy⟩ := @copyLoop_returns fuel _ _ ptr fresh 0 _ hp hold
    (by omega) (by omega)
  rw [hcopy]
  exact ⟨_, rfl⟩

end Simulation

/-! ### Calls -/

/-- A call of the allocator, or a store into a block that is live. -/
inductive MallocCall where
  | malloc (size : Word)
  | calloc (nmemb size : Word)
  | realloc (ptr size : Word)
  | free (ptr : Word)
  | write (addr : Nat) (byte : BitVec 8)
deriving DecidableEq, Repr

/-- The process together with the pointers that were handed out and not freed. -/
structure MallocState (κ : Type) where
  heap : UserHeap κ
  live : List Word

/-- What the program keeps to: `free` and `realloc` on live pointers or `NULL`, requests that do not
    overflow, and stores inside the payloads of live blocks. -/
def MallocCall.Allowed (s : MallocState κ) : MallocCall → Prop
  | .malloc size => size.toNat + 39 < 2 ^ 63
  | .calloc nmemb size => nmemb.toNat * size.toNat + 39 < 2 ^ 63
  | .realloc ptr size => (ptr = 0#64 ∨ ptr ∈ s.live) ∧ size.toNat + 39 < 2 ^ 63
  | .free ptr => ptr = 0#64 ∨ ptr ∈ s.live
  | .write addr _ => ∃ ptr ∈ s.live, ptr.toNat ≤ addr ∧
      addr < ptr.toNat + (blkSize s.heap.mem (ptr - blkSizeof)).toNat

/-- The pointers that are live after an allocation returned `ptr`. -/
def handOut (ptr : Word) (live : List Word) : List Word :=
  if ptr = 0#64 then live else ptr :: live

/-- The pointers that are live after `ptr` was freed. -/
def takeBack (ptr : Word) (live : List Word) : List Word := live.filter (· ≠ ptr)

/-- The call with its result. -/
def MallocCall.run (sbrk : Sbrk κ) (fuel : Nat) (s : MallocState κ) :
    MallocCall → Option (MallocState κ × Word)
  | .malloc size => do
      let (heap, ptr) ← User.malloc sbrk fuel s.heap size
      return ({ heap := heap, live := handOut ptr s.live }, ptr)
  | .calloc nmemb size => do
      let (heap, ptr) ← User.calloc sbrk fuel s.heap nmemb size
      return ({ heap := heap, live := handOut ptr s.live }, ptr)
  | .realloc ptr size => do
      let (heap, result) ← User.realloc sbrk fuel s.heap ptr size
      let live := if size ≠ 0#64 ∧ result = 0#64 then s.live else takeBack ptr s.live
      return ({ heap := heap, live := handOut result live }, result)
  | .free ptr => some ({ heap := User.free s.heap ptr, live := takeBack ptr s.live }, 0#64)
  | .write addr byte =>
      some ({ s with heap := { s.heap with mem := store 1 addr byte.toNat s.heap.mem } }, 0#64)

/-- The live pointers are the payloads of the blocks in use. -/
def LivePointers (live : List Word) (b : BlockHeap) : Prop :=
  ∀ ptr : Word, ptr ∈ live ↔ ∃ a, b.Live a ∧ ptr.toNat = a + 32

section Calls

variable {lo fuel : Nat} {s s' : MallocState κ} {b b' : BlockHeap} {live : List Word} {ptr : Word}
  {call : MallocCall} {result : Word}

theorem LivePointers.ne_zero (h : LivePointers live b) (hptr : ptr ∈ live) : ptr ≠ 0#64 := by
  obtain ⟨a, -, hnat⟩ := (h ptr).1 hptr
  intro hzero
  have : ptr.toNat = 0 := by rw [hzero]; rfl
  omega

theorem LivePointers.takeBack_null (h : LivePointers live b) : takeBack 0#64 live = live :=
  List.filter_eq_self.2 fun _ hptr => by simpa using h.ne_zero hptr

theorem LivePointers.allocate {a hi : Nat} (h : LivePointers live b)
    (hord : Ordered 32 lo hi b.blocks) (step : BlockStep b (.allocate a) b')
    (hptr : ptr.toNat = a + 32) : LivePointers (handOut ptr live) b' := by
  have hne : ptr ≠ 0#64 := by
    intro hzero
    have : ptr.toNat = 0 := by rw [hzero]; rfl
    omega
  intro other
  rw [handOut, if_neg hne, List.mem_cons, h other]
  constructor
  · rintro (rfl | ⟨x, hx, hother⟩)
    · exact ⟨a, (step.live hord a).2 (.inr rfl), hptr⟩
    · exact ⟨x, (step.live hord x).2 (.inl hx), hother⟩
  · rintro ⟨x, hx, hother⟩
    rcases (step.live hord x).1 hx with hx' | rfl
    · exact .inr ⟨x, hx', hother⟩
    · exact .inl (BitVec.eq_of_toNat_eq (hother.trans hptr.symm))

theorem LivePointers.release {a hi : Nat} (h : LivePointers live b)
    (hord : Ordered 32 lo hi b.blocks) (step : BlockStep b (.release a) b')
    (hptr : ptr.toNat = a + 32) : LivePointers (takeBack ptr live) b' := by
  intro other
  simp only [takeBack, List.mem_filter, decide_eq_true_eq, h other]
  constructor
  · rintro ⟨⟨x, hx, hother⟩, hne⟩
    refine ⟨x, (step.live hord x).2 ⟨hx, ?_⟩, hother⟩
    rintro rfl
    exact hne (BitVec.eq_of_toNat_eq (hother.trans hptr.symm))
  · rintro ⟨x, hx, hother⟩
    obtain ⟨hx', hne⟩ := (step.live hord x).1 hx
    refine ⟨⟨x, hx', hother⟩, ?_⟩
    rintro rfl
    omega

/-- The call goes on to free `p`: a `free`, or a `realloc` that does not keep the block. -/
def MallocCall.Releases (mem : ByteMem) (p : Word) : MallocCall → Prop
  | .free ptr => ptr = p
  | .realloc ptr size =>
      ptr = p ∧ (size = 0#64 ∨ ¬ align8 size ≤ blkSize mem (ptr - blkSizeof))
  | _ => False

/-- The steps that match a call: none, an allocation, and at the end the release of its argument. -/
def CallEvents (s : MallocState κ) (call : MallocCall) (events : List BlockEvent) : Prop :=
  events = [] ∨ (∃ a, events = [.allocate a]) ∨
    ∃ ptr a, call.Releases s.heap.mem ptr ∧ ptr ∈ s.live ∧ ptr.toNat = a + 32 ∧
      (events = [.release a] ∨ ∃ a', events = [.allocate a', .release a])

/-- An allocation, as a call of the sequence. -/
theorem allocation_call {heap : UserHeap κ} (hlive : LivePointers live b)
    (sim : Sim Env lo heap b) {heap' : UserHeap κ} {size : Nat}
    (h : (ptr = 0#64 ∧ Sim Env lo heap' b) ∨
      ∃ a b', BlockStep b (.allocate a) b' ∧ ptr.toNat = a + 32 ∧ Sim Env lo heap' b' ∧
        b'.Holds a size) :
    ∃ events b', Run BlockStep b events b' ∧ Sim Env lo heap' b' ∧
      LivePointers (handOut ptr live) b' ∧ CallEvents s call events := by
  rcases h with ⟨rfl, hsim⟩ | ⟨a, b', step, hptr, hsim, -⟩
  · exact ⟨[], b, .nil b, hsim, by rwa [handOut, if_pos rfl], .inl rfl⟩
  · exact ⟨_, b', .single step, hsim, hlive.allocate sim.rep.ordered step hptr, .inr (.inl ⟨a, rfl⟩)⟩

/-- The pointers that are live after `realloc`. -/
theorem realloc_live {heap : UserHeap κ} {size : Word} {a : Nat} {events : List BlockEvent}
    (hlive : LivePointers live b) (sim : Sim Env lo heap b) (hmem : ptr ∈ live)
    (hptr : ptr.toNat = a + 32) (run : Run BlockStep b events b')
    (hevents : ReallocEvents heap.mem ptr size result a events) :
    LivePointers (handOut result
      (if size ≠ 0#64 ∧ result = 0#64 then live else takeBack ptr live)) b' := by
  have hne := hlive.ne_zero hmem
  have hord := sim.rep.ordered
  cases hevents with
  | stays h =>
      cases run
      subst h
      rw [if_neg (fun h => hne h.2), handOut, if_neg hne]
      intro other
      rw [← hlive other, List.mem_cons, takeBack, List.mem_filter, decide_eq_true_eq]
      constructor
      · rintro (rfl | ⟨hother, -⟩)
        · exact hmem
        · exact hother
      · intro hother
        by_cases heq : other = result
        · exact .inl heq
        · exact .inr ⟨hother, heq⟩
  | fails h hsize =>
      cases run
      rw [if_pos ⟨hsize, h⟩, handOut, if_pos h]
      exact hlive
  | frees h hsize =>
      cases run with
      | cons head tail =>
          cases tail
          rw [if_neg (fun h => h.1 hsize), handOut, if_pos h]
          exact hlive.release hord head hptr
  | moves h hfits =>
      rename_i a'
      cases run with
      | cons first rest =>
          cases rest with
          | cons second rest =>
              cases rest
              have hresult : result ≠ 0#64 := by
                intro hzero
                have : result.toNat = 0 := by rw [hzero]; rfl
                omega
              have hnew : a' ≠ a := by
                obtain ⟨x, hx, hx'⟩ := (hlive ptr).1 hmem
                have : x = a := by omega
                exact first.allocate_ne hord (this ▸ hx)
              have hother : result ≠ ptr := by
                rintro rfl
                omega
              have halloc := hlive.allocate hord first h
              have hrelease := halloc.release (first.ordered hord) second hptr
              rw [if_neg (fun h => hresult h.2), handOut, if_neg hresult]
              rw [handOut, if_neg hresult, takeBack, List.filter_cons_of_pos (by simpa using hother)]
                at hrelease
              exact hrelease

/-- Every call is matched by steps of the machine. -/
theorem call_sim (law : SbrkLaw Env sbrk) (sim : Sim Env lo s.heap b)
    (hlive : LivePointers s.live b) (hallowed : call.Allowed s)
    (hrun : call.run sbrk fuel s = some (s', result)) :
    ∃ events b', Run BlockStep b events b' ∧ Sim Env lo s'.heap b' ∧ LivePointers s'.live b' ∧
      CallEvents s call events := by
  cases call with
  | malloc size =>
      obtain ⟨⟨heap, ptr⟩, hmalloc, hrun⟩ := Option.bind_eq_some_iff.1 hrun
      cases hrun
      exact allocation_call hlive sim (malloc_sim law sim hallowed hmalloc)
  | calloc nmemb size =>
      obtain ⟨⟨heap, ptr⟩, hcalloc, hrun⟩ := Option.bind_eq_some_iff.1 hrun
      cases hrun
      exact allocation_call hlive sim (calloc_sim law sim hallowed hcalloc)
  | free ptr =>
      cases hrun
      rcases hallowed with rfl | hmem
      · refine ⟨[], b, .nil b, ?_, ?_, .inl rfl⟩
        · rw [free_null]
          exact sim
        · rw [hlive.takeBack_null]
          exact hlive
      · obtain ⟨a, ha, hptr⟩ := (hlive ptr).1 hmem
        obtain ⟨b', step, -, hsim⟩ := free_sim sim ha hptr
        exact ⟨_, b', .single step, hsim, hlive.release sim.rep.ordered step hptr,
          .inr (.inr ⟨ptr, a, rfl, hmem, hptr, .inl rfl⟩)⟩
  | realloc ptr size =>
      obtain ⟨⟨heap, result⟩, hrealloc, hrun⟩ := Option.bind_eq_some_iff.1 hrun
      cases hrun
      obtain ⟨hptr, hsize⟩ := hallowed
      by_cases hnull : ptr = 0#64
      · subst hnull
        rw [realloc, if_pos rfl] at hrealloc
        simp only [hlive.takeBack_null, ite_self]
        exact allocation_call hlive sim (malloc_sim law sim hsize hrealloc)
      · have hmem := hptr.resolve_left hnull
        obtain ⟨a, ha, hptr⟩ := (hlive ptr).1 hmem
        obtain ⟨events, b', run, hsim, hevents⟩ := realloc_sim law sim hsize ha hptr hrealloc
        refine ⟨events, b', run, hsim, realloc_live hlive sim hmem hptr run hevents, ?_⟩
        cases hevents with
        | stays => exact .inl rfl
        | fails => exact .inl rfl
        | frees _ hzero => exact .inr (.inr ⟨ptr, a, ⟨rfl, .inl hzero⟩, hmem, hptr, .inl rfl⟩)
        | moves _ hfits =>
            exact .inr (.inr ⟨ptr, a, ⟨rfl, .inr hfits⟩, hmem, hptr, .inr ⟨_, rfl⟩⟩)
  | write addr byte =>
      cases hrun
      obtain ⟨ptr, hmem, hlo, hhi⟩ := hallowed
      obtain ⟨a, ⟨c, hc, rfl⟩, hptr⟩ := (hlive ptr).1 hmem
      obtain ⟨pre, post, hblocks⟩ := List.append_of_mem (mem_inUse.1 hc).1
      have hrep := sim.rep
      rw [hblocks] at hrep
      rw [hrep.header.blkSize_eq (toNat_sub_sizeof hptr)] at hhi
      refine ⟨[], b, .nil b, sim.payload (mem_inUse.1 hc).1 fun x hx => store_outside ?_, hlive,
        .inl rfl⟩
      unfold Block.stop at hx
      omega

/-- Every call returns if `u_sbrk` does. -/
theorem call_returns (law : SbrkLaw Env sbrk)
    (hsbrk : ∀ k mem increment, ∃ r, sbrk k mem increment = some r) (sim : Sim Env lo s.heap b)
    (hlive : LivePointers s.live b) (hfuel : 2 ^ 64 ≤ fuel) (hallowed : call.Allowed s) :
    ∃ r, call.run sbrk fuel s = some r := by
  cases call with
  | malloc size =>
      obtain ⟨heap, ptr, hmalloc⟩ := malloc_returns hsbrk sim hfuel size
      exact ⟨_, Option.bind_eq_some_iff.2 ⟨_, hmalloc, rfl⟩⟩
  | calloc nmemb size =>
      obtain ⟨heap, ptr, hmalloc⟩ := malloc_returns hsbrk sim hfuel (nmemb * size)
      obtain ⟨r, hcalloc⟩ : ∃ r, User.calloc sbrk fuel s.heap nmemb size = some r := by
        unfold User.calloc
        simp only [hmalloc, Option.bind_eq_bind, Option.bind_some]
        split <;> exact ⟨_, rfl⟩
      exact ⟨_, Option.bind_eq_some_iff.2 ⟨_, hcalloc, rfl⟩⟩
  | realloc ptr size =>
      obtain ⟨hptr, hsize⟩ := hallowed
      obtain ⟨r, hrealloc⟩ : ∃ r, User.realloc sbrk fuel s.heap ptr size = some r := by
        rcases hptr with rfl | hmem
        · obtain ⟨heap, p, hmalloc⟩ := malloc_returns hsbrk sim hfuel size
          exact ⟨_, (if_pos rfl).trans hmalloc⟩
        · obtain ⟨a, ha, hptr⟩ := (hlive ptr).1 hmem
          exact realloc_returns law hsbrk sim hfuel hsize ha hptr
      exact ⟨_, Option.bind_eq_some_iff.2 ⟨_, hrealloc, rfl⟩⟩
  | free ptr => exact ⟨_, rfl⟩
  | write addr byte => exact ⟨_, rfl⟩

end Calls

/-! ### A break that only the allocator moves -/

/-- The kernel of this section is the break of the process. -/
def BreakAt (brk : Word) (top : Nat) : Prop := brk.toNat = top

/-- A call that returns, with any outcome of `u_sbrk` that the law allows. -/
def MallocStep (s : MallocState Word) (call : MallocCall) (s' : MallocState Word) : Prop :=
  call.Allowed s ∧ ∃ (sbrk : Sbrk Word) (fuel : Nat) (result : Word), SbrkLaw BreakAt sbrk ∧
    call.run sbrk fuel s = some (s', result)

/-- The shape of the heap: the list from `heap_list` tiles the memory between the first break and
    the present one, `prev` is `NULL` in the first block and else inverse to `next`, the magic numbers
    go with the flags, no two free blocks are neighbours, and the payloads handed out are apart. -/
structure MallocTiled (brk₀ : Word) (s : MallocState Word) (blocks : List Block) : Prop where
  head : s.heap.heapList.toNat = firstAddr blocks 0
  tiles : Tiles 32 brk₀.toNat s.heap.kernel.toNat blocks
  headers : ∀ b ∈ blocks, ∀ p : Word, p.toNat = b.addr →
    (blkSize s.heap.mem p).toNat = b.size ∧
      blkMagic s.heap.mem p = (if b.free then freeMagic else usedMagic) ∧
      blkFree s.heap.mem p = (if b.free then 1#32 else 0#32) ∧
      (blkNext s.heap.mem p).toNat =
        if b.stop 32 = s.heap.kernel.toNat then 0 else b.stop 32
  first_prev : s.heap.heapList ≠ 0#64 → blkPrev s.heap.mem s.heap.heapList = 0#64
  prev_next : ∀ b ∈ blocks, ∀ p : Word, p.toNat = b.addr → blkNext s.heap.mem p ≠ 0#64 →
    blkPrev s.heap.mem (blkNext s.heap.mem p) = p
  next_prev : ∀ b ∈ blocks, ∀ p : Word, p.toNat = b.addr → blkPrev s.heap.mem p ≠ 0#64 →
    blkNext s.heap.mem (blkPrev s.heap.mem p) = p
  separated : Separated blocks
  live : ∀ ptr : Word, ptr ∈ s.live ↔ ∃ b ∈ inUse blocks, ptr.toNat = b.addr + 32
  disjoint : (inUse blocks).Pairwise fun a b => a.addr + 32 + a.size ≤ b.addr + 32

section Inverse

variable {mem : ByteMem} {heapList p : Word} {lo hi : Nat} {blocks : List Block} {b : Block}

theorem MallocRep.first_prev (rep : MallocRep mem heapList lo hi blocks) (hlist : heapList ≠ 0#64) :
    blkPrev mem heapList = 0#64 := by
  cases blocks with
  | nil => exact absurd (BitVec.eq_of_toNat_eq rep.head) hlist
  | cons b rest =>
      have hb : BlkAt mem 0 b (firstAddr rest 0) := rep.linked.1
      exact BitVec.eq_of_toNat_eq (hb.blkPrev_eq rep.head)

theorem MallocRep.prev_next (rep : MallocRep mem heapList lo hi blocks) (hb : b ∈ blocks)
    (hp : p.toNat = b.addr) (hnext : blkNext mem p ≠ 0#64) : blkPrev mem (blkNext mem p) = p := by
  obtain ⟨pre, post, rfl⟩ := List.append_of_mem hb
  have hnat := rep.header.blkNext_eq hp
  cases post with
  | nil => exact absurd (BitVec.eq_of_toNat_eq hnat) hnext
  | cons c rest =>
      have hc : BlkAt mem b.addr c (firstAddr rest 0) := (linked_append.1 rep.linked).2.2.1
      apply BitVec.eq_of_toNat_eq
      rw [hc.blkPrev_eq hnat, hp]

theorem MallocRep.next_prev (rep : MallocRep mem heapList lo hi blocks) (hb : b ∈ blocks)
    (hp : p.toNat = b.addr) (hprev : blkPrev mem p ≠ 0#64) : blkNext mem (blkPrev mem p) = p := by
  obtain ⟨pre, post, rfl⟩ := List.append_of_mem hb
  have hnat := rep.header.blkPrev_eq hp
  rcases List.eq_nil_or_concat pre with rfl | ⟨pre', a, rfl⟩
  · exact absurd (BitVec.eq_of_toNat_eq hnat) hprev
  · rw [List.concat_eq_append, lastAddr_append, lastAddr_cons, lastAddr_nil] at hnat
    have hrep : MallocRep mem heapList lo hi (pre' ++ a :: b :: post) := by simpa using rep
    apply BitVec.eq_of_toNat_eq
    rw [hrep.header.blkNext_eq hnat, hp]
    rfl

end Inverse

/-- The invariant: the memory represents blocks that tile the heap and are kept apart. -/
def MallocInv (lo : Nat) (s : MallocState Word) : Prop :=
  ∃ b : BlockHeap, Sim BreakAt lo s.heap b ∧ LivePointers s.live b ∧ Tiles 32 lo b.top b.blocks ∧
    Separated b.blocks

theorem MallocInv.init {brk₀ : Word} (hbrk : brk₀ ≠ 0#64) (mem : ByteMem) :
    MallocInv brk₀.toNat ⟨⟨brk₀, mem, 0#64⟩, []⟩ := by
  refine ⟨⟨[], brk₀.toNat, []⟩, ⟨⟨trivial, Nat.le_refl _, rfl, ?_, brk₀.isLt⟩, rfl⟩, ?_, rfl,
    List.isChain_nil⟩
  · exact Nat.pos_of_ne_zero fun hzero => hbrk (BitVec.eq_of_toNat_eq hzero)
  · intro ptr
    simp [BlockHeap.Live, inUse]

theorem MallocInv.step {lo : Nat} {s s' : MallocState Word} {call : MallocCall}
    (inv : MallocInv lo s) (step : MallocStep s call s') : MallocInv lo s' := by
  obtain ⟨b, sim, hlive, htiles, hsep⟩ := inv
  obtain ⟨hallowed, sbrk, fuel, result, law, hrun⟩ := step
  obtain ⟨events, b', run, hsim, hlive', -⟩ := call_sim law sim hlive hallowed hrun
  have hkept := run.invariant (fun b => Tiles 32 lo b.top b.blocks ∧ Separated b.blocks)
    (fun _ _ _ h step => ⟨step.tiles h.1, step.separated h.2⟩) ⟨htiles, hsep⟩
  exact ⟨b', hsim, hlive', hkept⟩

theorem MallocInv.tiled {brk₀ : Word} {s : MallocState Word} (inv : MallocInv brk₀.toNat s) :
    ∃ blocks, MallocTiled brk₀ s blocks := by
  obtain ⟨b, sim, hlive, htiles, hsep⟩ := inv
  have htop : s.heap.kernel.toNat = b.top := sim.env
  refine ⟨b.blocks, sim.rep.head, ?_, fun c hc p hp => ?_, sim.rep.first_prev,
    fun c hc p => sim.rep.prev_next hc,
    fun c hc p => sim.rep.next_prev hc, hsep, fun ptr => ?_, ?_⟩
  · rw [htop]
    exact htiles
  · obtain ⟨prev, hheader⟩ := sim.rep.linked.next_of_tiles (by decide) htiles hc
    refine ⟨hheader.blkSize_eq hp, hheader.blkMagic_eq hp, BitVec.eq_of_toNat_eq ?_, ?_⟩
    · rw [toNat_blkFree, hp, hheader.free]
      cases c.free <;> rfl
    · rw [hheader.blkNext_eq hp, htop]
  · rw [hlive ptr]
    constructor
    · rintro ⟨a, ⟨c, hc, rfl⟩, hptr⟩
      exact ⟨c, hc, hptr⟩
    · rintro ⟨c, hc, hptr⟩
      exact ⟨c.addr, ⟨c, hc, rfl⟩, hptr⟩
  · refine (sim.rep.ordered.pairwise.filter _).imp fun {x y} hxy => ?_
    unfold Block.stop at hxy
    omega

/-- In every sequence of calls of a process whose break only the allocator moves, the list tiles
    the memory obtained from `sbrk`; and every further call returns. The first break is not 0:
    `sys_sbrk` refuses a process without a heap. -/
theorem user_malloc_invariant (brk₀ : Word) (hbrk : brk₀ ≠ 0#64) (mem : ByteMem)
    (calls : List MallocCall) (s : MallocState Word)
    (run : Run MallocStep ⟨⟨brk₀, mem, 0#64⟩, []⟩ calls s) :
    (∃ blocks, MallocTiled brk₀ s blocks) ∧
      ∀ (sbrk : Sbrk Word) (call : MallocCall), SbrkLaw BreakAt sbrk →
        (∀ k mem increment, ∃ r, sbrk k mem increment = some r) → call.Allowed s →
        ∃ r, call.run sbrk (2 ^ 64) s = some r := by
  have inv := run.invariant (MallocInv brk₀.toNat) (fun _ _ _ inv step => inv.step step)
    (.init hbrk mem)
  refine ⟨inv.tiled, fun sbrk call law hsbrk hallowed => ?_⟩
  obtain ⟨b, sim, hlive, -, -⟩ := inv
  exact call_returns law hsbrk sim hlive (Nat.le_refl _) hallowed

/-- A break in an address space without end. -/
def plainSbrk : Sbrk Word := fun brk mem increment =>
  if brk.toNat + increment.toNat < 2 ^ 64 then some (brk + increment, mem, brk)
  else some (brk, mem, -1#64)

theorem plainSbrk_law : SbrkLaw BreakAt plainSbrk := by
  intro k k' mem mem' top increment r hbrk hlo hhi hrun
  unfold plainSbrk at hrun
  have hbrk' : k.toNat = top := hbrk
  split at hrun
  · rename_i hroom
    cases hrun
    refine ⟨fun _ _ => rfl, .inr ⟨hbrk', by omega, ?_⟩⟩
    show (k + increment).toNat = _
    rw [BitVec.toNat_add]
    omega
  · cases hrun
    exact ⟨fun _ _ => rfl, .inl ⟨rfl, hbrk⟩⟩

instance (s : MallocState κ) (call : MallocCall) : Decidable (call.Allowed s) :=
  match call with
  | .malloc size => inferInstanceAs (Decidable (size.toNat + 39 < 2 ^ 63))
  | .calloc nmemb size => inferInstanceAs (Decidable (nmemb.toNat * size.toNat + 39 < 2 ^ 63))
  | .realloc ptr size =>
      inferInstanceAs (Decidable ((ptr = 0#64 ∨ ptr ∈ s.live) ∧ size.toNat + 39 < 2 ^ 63))
  | .free ptr => inferInstanceAs (Decidable (ptr = 0#64 ∨ ptr ∈ s.live))
  | .write addr _ => inferInstanceAs (Decidable (∃ ptr ∈ s.live, ptr.toNat ≤ addr ∧
      addr < ptr.toNat + (blkSize s.heap.mem (ptr - blkSizeof)).toNat))

/-- A call that the program may make, in a heap of less than 64 blocks. -/
def MallocCall.play (s : MallocState Word) (call : MallocCall) : Option (MallocState Word) :=
  if call.Allowed s then (call.run plainSbrk 64 s).map Prod.fst else none

theorem MallocCall.play_some {s s' : MallocState Word} {call : MallocCall}
    (h : call.play s = some s') :
    call.Allowed s ∧ ∃ result, call.run plainSbrk 64 s = some (s', result) := by
  rw [play] at h
  split at h
  · rename_i hallowed
    obtain ⟨⟨_, result⟩, hrun, rfl⟩ := Option.map_eq_some_iff.1 h
    exact ⟨hallowed, result, hrun⟩
  · cases h

theorem MallocCall.play_step {s s' : MallocState Word} {call : MallocCall}
    (h : call.play s = some s') : MallocStep s call s' := by
  obtain ⟨hallowed, result, hrun⟩ := play_some h
  exact ⟨hallowed, plainSbrk, 64, result, plainSbrk_law, hrun⟩

/-- Three blocks; the first one is freed and used again for a smaller block, and the second one is
    freed and joins what was left of the first. -/
def reuseCalls : List MallocCall :=
  [.malloc 100, .malloc 24, .malloc 16, .free 0x8004000020, .malloc 40, .free 0x80040000A8]

/-- A process with an empty heap. -/
def emptyHeap : MallocState Word := ⟨⟨0x8004000000#64, fun _ => 0, 0#64⟩, []⟩

/-- The process behind these calls. -/
def reusedHeap : MallocState Word := (reuseCalls.foldlM MallocCall.play emptyHeap).getD emptyHeap

theorem reusedHeap_played : reuseCalls.foldlM MallocCall.play emptyHeap = some reusedHeap :=
  eq_some_getD (by decide +kernel) _

theorem reusedHeap_live : reusedHeap.live = [0x8004000020#64, 0x80040000E0#64] := by decide +kernel

/-- The invariant applies to it, and a further call returns. -/
theorem user_malloc_invariant_reused_heap :
    (∃ blocks, MallocTiled 0x8004000000#64 reusedHeap blocks) ∧
      ∃ r, (MallocCall.free 0x80040000E0).run plainSbrk (2 ^ 64) reusedHeap = some r := by
  have run : Run MallocStep emptyHeap reuseCalls reusedHeap :=
    .of_foldlM (fun _ _ _ => MallocCall.play_step) reusedHeap_played
  have hlive : 0x80040000E0#64 ∈ reusedHeap.live := by
    rw [reusedHeap_live]
    exact List.mem_cons_of_mem _ List.mem_cons_self
  obtain ⟨htiled, hreturns⟩ := user_malloc_invariant 0x8004000000#64 (by decide) _ _ _ run
  refine ⟨htiled, hreturns plainSbrk _ plainSbrk_law (fun k mem increment => ?_) (.inr hlive)⟩
  unfold plainSbrk
  split
  · exact ⟨_, rfl⟩
  · exact ⟨_, rfl⟩

end CustomKernel.User
