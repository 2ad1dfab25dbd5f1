/-
Module: CustomKernel.Proofs.ReallocContents
Layer: Proofs
Purpose: What the calls of the user allocator do to the contents of the blocks in use. `malloc` and
  `free` store into headers and free blocks, so payloads stay as they are; `realloc` copies the old
  payload to a block that lies apart from it. With requests that fit this holds in every state
  reached; a request that moves the break down lets the next block overlap a payload.
Imports: CustomKernel.Proofs.FreeOrder
Trusted boundary: none (fully proved)
Main exports: SamePayloads, malloc_samePayloads, free_samePayloads, copyLoop_copies,
  UserHeap.Payload, ReallocKeeps, realloc_keeps, user_realloc_preserves, user_realloc_loses_data
-/
import CustomKernel.Proofs.FreeOrder

namespace CustomKernel.User

open ByteMemory BlockList StepSystem

variable {κ : Type} {Env : κ → Nat → Prop} {sbrk : Sbrk κ}

/-! ### Payloads -/

/-- The address lies in the payload of the block. -/
def InPayload (c : Block) (x : Nat) : Prop := c.addr + 32 ≤ x ∧ x < c.stop 32

/-- The payloads of the blocks in use hold in `mem'` what they hold in `mem`. -/
def SamePayloads (blocks : List Block) (mem mem' : ByteMem) : Prop :=
  ∀ c ∈ inUse blocks, ∀ x, InPayload c x → mem' x = mem x

section Payloads

variable {lo hi x : Nat} {blocks pre post : List Block} {b c d : Block} {mem mem' : ByteMem}
  {heapList p size : Word}

/-- A payload holds no header. -/
theorem InPayload.off_header (hx : InPayload c x) (hord : Ordered 32 lo hi blocks) (hc : c ∈ blocks)
    (hd : d ∈ blocks) : x < d.addr ∨ d.addr + 32 ≤ x := by
  obtain ⟨hlo, hhi⟩ := hx
  by_cases heq : c.addr = d.addr
  · omega
  · have hapart := hord.apart hc hd heq
    unfold Block.stop at hapart hhi
    omega

/-- A payload lies outside every other block. -/
theorem InPayload.off_block (hx : InPayload c x) (hord : Ordered 32 lo hi blocks) (hc : c ∈ blocks)
    (hd : d ∈ blocks) (hne : c.addr ≠ d.addr) : x < d.addr ∨ d.stop 32 ≤ x := by
  obtain ⟨hlo, hhi⟩ := hx
  have hapart := hord.apart hc hd hne
  omega

theorem InPayload.offLinks (hx : InPayload c x) (hord : Ordered 32 lo hi blocks) (hc : c ∈ blocks) :
    OffLinks blocks x := fun d hd => by
  have := hx.off_header hord hc hd
  omega

/-- Taking from a free block writes into that block and into the header behind it. -/
theorem MallocRep.take_samePayloads (rep : MallocRep mem heapList lo hi (pre ++ b :: post))
    (hp : p.toNat = b.addr) (hfree : b.free = true) (hsize : size.toNat < 2 ^ 63) :
    SamePayloads (pre ++ b :: post) mem (takeBlk p size mem) := by
  intro c hc x hx
  obtain ⟨hmem, hused⟩ := mem_inUse.1 hc
  have hb : b ∈ pre ++ b :: post := by simp
  have hout : x < b.addr ∨ b.stop 32 ≤ x := by
    refine hx.off_block rep.ordered hmem hb fun heq => ?_
    rw [rep.ordered.eq_of_addr (by decide) hmem hb heq, hfree] at hused
    cases hused
  unfold Block.stop at hout
  have hbounds := rep.bounds hb
  have htop := rep.top
  rw [takeBlk]
  refine (@mark_outside _ _ false _ (by omega)).trans ?_
  split
  · rename_i hroom
    have hroom : size.toNat + 32 + 8 ≤ b.size := by
      rw [BitVec.le_def, rep.header.blkSize_eq hp, blkSizeof, BitVec.toNat_add, BitVec.toNat_add,
        BitVec.toNat_ofNat, BitVec.toNat_ofNat] at hroom
      omega
    have htail : (p + blkSizeof + size).toNat = b.addr + 32 + size.toNat := by
      rw [blkSizeof, BitVec.toNat_add, BitVec.toNat_add, BitVec.toNat_ofNat]
      omega
    have hnext : (blkNext (writeTail p size mem) p).toNat = firstAddr post 0 := by
      rw [toNat_blkNext, hp, load_congr fun a _ _ => writeTail_outside htail (by omega),
        rep.header.next]
    rw [splitBlk, setSize, setNext, hp, store_outside (by omega), store_outside (by omega),
      setPrevIf_outside ?_, writeTail_outside htail (by omega)]
    cases post with
    | nil => exact .inl hnext
    | cons d rest =>
        have := hx.off_header rep.ordered hmem (show d ∈ pre ++ b :: d :: rest by simp)
        rw [hnext, firstAddr_cons]
        omega
  · rfl

end Payloads

section Calls

variable {lo fuel : Nat} {h h' : UserHeap κ} {s : BlockHeap} {size ptr : Word}

/-- Growing the heap writes above the break and into the header of the last block. -/
theorem mallocExtend_samePayloads {bytes last : Word} (law : SbrkLaw Env sbrk) (sim : Sim Env lo h s)
    (hbytes : bytes.toNat + 32 < 2 ^ 63) (hlast : last.toNat = lastAddr 0 s.blocks)
    (hrun : mallocExtend sbrk h bytes last = some (h', ptr)) :
    SamePayloads s.blocks h.mem h'.mem := by
  intro c hc x hx
  have hmem := (mem_inUse.1 hc).1
  have hbelow : x < s.top := Nat.lt_of_lt_of_le hx.2 (sim.rep.bounds hmem).2
  obtain ⟨⟨h₁, nb⟩, hextend, hrun⟩ := Option.bind_eq_some_iff.1 hrun
  obtain ⟨⟨k, mem, r⟩, hsbrk, hextend⟩ := Option.bind_eq_some_iff.1 hextend
  dsimp only at hextend hrun
  have hinc : (blkSizeof + bytes).toNat = 32 + bytes.toNat := by
    rw [blkSizeof, BitVec.toNat_add, BitVec.toNat_ofNat]
    omega
  obtain ⟨hsame, hresult⟩ := law sim.env (by omega) (by omega) hsbrk
  by_cases hfail : r = -1#64
  · rw [if_pos hfail] at hextend
    cases hextend
    rw [if_pos rfl] at hrun
    cases hrun
    exact hsame x hbelow
  obtain ⟨hr, -, -⟩ := hresult.resolve_left fun h => hfail h.1
  have hpos := sim.rep.pos
  have hle := sim.rep.ordered.le
  have hne : r ≠ 0#64 := by
    intro hzero
    have hnat : r.toNat = 0 := by rw [hzero]; rfl
    omega
  have hwritten : writeBlk r bytes mem x = h.mem x :=
    (writeBlk_outside (by omega)).trans (hsame x hbelow)
  rw [if_neg hfail] at hextend
  cases hextend
  rw [if_neg hne] at hrun
  by_cases hnull : h.heapList = 0#64
  · rw [if_pos hnull] at hrun
    cases hrun
    exact hwritten
  · rw [if_neg hnull] at hrun
    cases hrun
    -- the last block of the list, whose `next` is set
    obtain ⟨front, l, hconcat⟩ : ∃ front l, s.blocks = front ++ [l] := by
      rcases List.eq_nil_or_concat s.blocks with hnil | ⟨front, l, hconcat⟩
      · rw [hnil] at hmem
        cases hmem
      · exact ⟨front, l, hconcat.trans (List.concat_eq_append ..)⟩
    rw [hconcat, lastAddr_append, lastAddr_cons, lastAddr_nil] at hlast
    have hoff := hx.off_header sim.rep.ordered hmem (show l ∈ s.blocks by simp [hconcat])
    refine Eq.trans ?_ hwritten
    show setNext last nb (setPrev nb last (writeBlk nb bytes mem)) x = _
    rw [setNext, setPrev, hlast, hr, store_outside (by omega), store_outside (by omega)]

/-- `malloc` leaves the payloads as they are. -/
theorem malloc_samePayloads (law : SbrkLaw Env sbrk) (sim : Sim Env lo h s)
    (hsize : size.toNat + 39 < 2 ^ 63) (hrun : malloc sbrk fuel h size = some (h', ptr)) :
    SamePayloads s.blocks h.mem h'.mem := by
  have halign := toNat_align8 hsize
  unfold malloc at hrun
  by_cases hzero : size = 0#64
  · rw [if_pos hzero] at hrun
    cases hrun
    exact fun _ _ _ _ => rfl
  rw [if_neg hzero] at hrun
  obtain ⟨r, hsearch, hrun⟩ := Option.bind_eq_some_iff.1 hrun
  rcases mallocLoop_spec sim.rep.pos sim.rep.ordered sim.rep.head rfl sim.rep.linked hsearch with
    ⟨last, rfl, hlast⟩ | ⟨pre, b, post, hblocks, hfree, -, p, hp, rfl⟩
  · exact mallocExtend_samePayloads law sim (by omega) hlast hrun
  · cases hrun
    have hrep := sim.rep
    rw [hblocks] at hrep ⊢
    exact hrep.take_samePayloads hp hfree (by omega)

/-- So does `free` of a block in use, its own payload included. -/
theorem free_samePayloads {b : Block} (sim : Sim Env lo h s) (hb : b ∈ inUse s.blocks)
    (hptr : ptr.toNat = b.addr + 32) : SamePayloads s.blocks h.mem (free h ptr).mem := by
  intro c hc x hx
  obtain ⟨hmem, hused⟩ := mem_inUse.1 hb
  have hcmem := (mem_inUse.1 hc).1
  obtain ⟨pre, post, hblocks⟩ := List.append_of_mem hmem
  have hrep := sim.rep
  rw [hblocks] at hrep
  obtain ⟨-, -, -, -, -, -, -, -, hsame⟩ := hrep.free hused hptr
  have hoff := hx.off_header sim.rep.ordered hcmem hmem
  rw [hsame x (hblocks ▸ hx.offLinks sim.rep.ordered hcmem)]
  exact mark_outside (by rw [toNat_sub_sizeof hptr]; omega)

/-- The copying loop copies, from a source that lies apart from the destination. -/
theorem copyLoop_copies {b : Block} {p src dst : Word} {fuel i : Nat} {mem mem' : ByteMem}
    (hp : p.toNat = b.addr) (hsize : load mem 8 b.addr = b.size)
    (hapart : b.addr + 8 ≤ dst.toNat ∨ dst.toNat + b.size ≤ b.addr)
    (hsrc : src.toNat + b.size ≤ dst.toNat ∨ dst.toNat + b.size ≤ src.toNat)
    (hrun : copyLoop p src dst fuel i mem = some mem') {j : Nat} (hij : i ≤ j) (hj : j < b.size) :
    mem' (dst.toNat + j) = mem (src.toNat + j) := by
  induction fuel generalizing i mem with
  | zero => cases hrun
  | succ fuel ih =>
      rw [copyLoop, toNat_blkSize, hp, hsize, if_pos (by omega)] at hrun
      have hsize' : load (store 1 (dst.toNat + i) (mem (src.toNat + i)).toNat mem) 8 b.addr =
          b.size := by
        rw [load_store_apart (by omega), hsize]
      rcases Nat.eq_or_lt_of_le hij with rfl | hlt
      · -- the rest of the loop stores behind the byte
        rw [copyLoop_spec hp hsize' hapart hrun (by omega)]
        exact (Function.update_self ..).trans (BitVec.ofNat_toNat ..)
      · rw [ih hsize' hrun hlt]
        exact store_outside (by omega)

/-- A release leaves the other blocks in use as they are. -/
theorem BlockStep.release_keeps {a : Nat} {s s' : BlockHeap} (step : BlockStep s (.release a) s')
    {c : Block} (hc : c ∈ inUse s.blocks) (hne : c.addr ≠ a) : c ∈ inUse s'.blocks := by
  generalize hevent : BlockEvent.release a = event at step
  cases step with
  | take => cases hevent
  | append => cases hevent
  | release hused hright hleft =>
      rename_i pre post pre' post' b b₁ b₂ top owned
      cases hevent
      have hfree : b₂.free = true := hleft.free (hright.free.trans rfl)
      rw [inUse_append, inUse_cons_used hused] at hc
      rw [inUse_append, inUse_cons_free hfree, hleft.inUse, hright.inUse]
      rcases List.mem_append.1 hc with hpre | hrest
      · exact List.mem_append_left _ hpre
      · rcases List.mem_cons.1 hrest with rfl | hpost
        · exact absurd rfl hne
        · exact List.mem_append_right _ hpost

/-! ### realloc -/

/-- The pointer is live in the heap, with `n` bytes. -/
def UserHeap.Payload (h : UserHeap κ) (ptr : Word) (n : Nat) : Prop :=
  ∃ c ∈ inUse h.blocks, ptr.toNat = c.addr + 32 ∧ c.size = n

/-- The `n` bytes at `ptr` are the same in both memories. -/
def SameBytes (mem mem' : ByteMem) (ptr : Word) (n : Nat) : Prop :=
  ∀ i < n, mem' (ptr.toNat + i) = mem (ptr.toNat + i)

/-- `realloc` preserves data: what it returns is live, has room for the request and starts with the
    bytes of the old payload, every other live payload is as before, an old pointer that is not
    returned is dead, and a failure changes nothing that is live. -/
structure ReallocKeeps (h h' : UserHeap κ) (ptr newSize result : Word) : Prop where
  fits : result ≠ 0#64 → ∃ m, newSize.toNat ≤ m ∧ h'.Payload result m
  start : ∀ n, h.Payload ptr n → result ≠ 0#64 →
    ∀ i < min n newSize.toNat, h'.mem (result.toNat + i) = h.mem (ptr.toNat + i)
  others : ∀ other n, h.Payload other n → other ≠ ptr →
    h'.Payload other n ∧ SameBytes h.mem h'.mem other n
  moved : result ≠ 0#64 → result ≠ ptr → ∀ n, ¬h'.Payload ptr n
  failed : result = 0#64 → ∀ n, h.Payload ptr n →
    h'.Payload ptr n ∧ SameBytes h.mem h'.mem ptr n

theorem Sim.payload_iff (sim : Sim Env lo h s) (ptr : Word) (n : Nat) :
    h.Payload ptr n ↔ ∃ c ∈ inUse s.blocks, ptr.toNat = c.addr + 32 ∧ c.size = n := by
  rw [UserHeap.Payload, sim.rep.blocks_eq]

theorem SamePayloads.bytes {c : Block} {mem mem' : ByteMem} {n : Nat}
    (hsame : SamePayloads s.blocks mem mem') (hc : c ∈ inUse s.blocks)
    (hptr : ptr.toNat = c.addr + 32) (hn : c.size = n) : SameBytes mem mem' ptr n := by
  intro i hi
  refine hsame c hc _ ?_
  unfold InPayload Block.stop
  omega

/-- With the same blocks and payloads, everything live is as before. -/
theorem Sim.payload_kept (sim : Sim Env lo h s) (sim' : Sim Env lo h' s)
    (hsame : SamePayloads s.blocks h.mem h'.mem) {other : Word} {n : Nat} (hn : h.Payload other n) :
    h'.Payload other n ∧ SameBytes h.mem h'.mem other n := by
  obtain ⟨c, hc, hptr, hsize⟩ := (sim.payload_iff other n).1 hn
  exact ⟨(sim'.payload_iff other n).2 ⟨c, hc, hptr, hsize⟩, hsame.bytes hc hptr hsize⟩

/-- `realloc` of a live pointer, for requests that fit. -/
theorem realloc_keeps {result : Word} {b : Block} (law : SbrkLaw Env sbrk) (sim : Sim Env lo h s)
    (hsize : size.toNat + 39 < 2 ^ 63) (hpos : size ≠ 0#64) (hb : b ∈ inUse s.blocks)
    (hptr : ptr.toNat = b.addr + 32) (hrun : realloc sbrk fuel h ptr size = some (h', result)) :
    ReallocKeeps h h' ptr size result := by
  have hne : ptr ≠ 0#64 := by
    intro hzero
    have hnat : ptr.toNat = 0 := by rw [hzero]; rfl
    omega
  have hp := toNat_sub_sizeof hptr
  unfold realloc at hrun
  rw [if_neg hne, if_neg hpos] at hrun
  dsimp only at hrun
  by_cases hfits : align8 size ≤ blkSize h.mem (ptr - blkSizeof)
  · -- the block is large enough
    rw [if_pos hfits] at hrun
    cases hrun
    have hkept : ∀ other n, h.Payload other n → h.Payload other n ∧ SameBytes h.mem h.mem other n :=
      fun _ _ hn => ⟨hn, fun _ _ => rfl⟩
    have hroom : size.toNat ≤ b.size := by
      obtain ⟨_, _, hheader⟩ := sim.rep.linked.mem (mem_inUse.1 hb).1
      rw [BitVec.le_def, hheader.blkSize_eq hp, toNat_align8 hsize] at hfits
      omega
    exact ⟨fun _ => ⟨b.size, hroom, (sim.payload_iff ptr _).2 ⟨b, hb, hptr, rfl⟩⟩,
      fun _ _ _ _ _ => rfl, fun other n hn _ => hkept other n hn,
      fun _ hmoved => absurd rfl hmoved, fun _ n hn => hkept ptr n hn⟩
  rw [if_neg hfits] at hrun
  obtain ⟨⟨h₁, fresh⟩, hmalloc, hrun⟩ := Option.bind_eq_some_iff.1 hrun
  dsimp only at hrun
  have hsame₁ := malloc_samePayloads law sim hsize hmalloc
  rcases malloc_sim law sim hsize hmalloc with ⟨rfl, hsim⟩ | ⟨a, s₁, step, hfresh, hsim, hholds⟩
  · -- there is no memory for a larger one
    rw [if_pos rfl] at hrun
    cases hrun
    exact ⟨fun hzero => absurd rfl hzero, fun _ _ hzero => absurd rfl hzero,
      fun _ _ hn _ => sim.payload_kept hsim hsame₁ hn, fun hzero => absurd rfl hzero,
      fun _ _ hn => sim.payload_kept hsim hsame₁ hn⟩
  have hfresh_ne : fresh ≠ 0#64 := by
    intro hz
    have hnat : fresh.toNat = 0 := by rw [hz]; rfl
    omega
  rw [if_neg hfresh_ne] at hrun
  obtain ⟨mem, hcopy, hrun⟩ := Option.bind_eq_some_iff.1 hrun
  cases hrun
  obtain ⟨u, hu, rfl, hb₁, hold, hapart, hroom⟩ :=
    realloc_room sim step hsim hholds hb (sim.size_lt hb hp hfits)
  have hord₁ := hsim.rep.ordered
  have hub : u.addr ≠ b.addr := step.allocate_ne sim.rep.ordered ⟨b, hb, rfl⟩
  -- the copy stays in the payload of the new block
  have hcopied : ∀ x, x < u.addr + 32 ∨ u.stop 32 ≤ x → mem x = h₁.mem x := by
    intro x hx
    refine copyLoop_spec hp hold (by omega) hcopy ?_
    unfold Block.stop at hx
    omega
  have hsim₂ : Sim Env lo { h₁ with mem := mem } s₁ := hsim.payload hu hcopied
  have hsame₂ := free_samePayloads hsim₂ hb₁ hptr
  obtain ⟨s', hrelease, -, hfinal⟩ := free_sim hsim₂ ⟨b, hb₁, rfl⟩ hptr
  have hu' : u ∈ inUse s₁.blocks := by
    obtain ⟨v, hv, hva⟩ := (step.live sim.rep.ordered u.addr).2 (.inr rfl)
    exact hord₁.eq_of_addr (by decide) (mem_inUse.1 hv).1 hu hva ▸ hv
  refine ⟨fun _ => ?_, fun n hn _ i hi => ?_, fun other n hn hother => ?_, fun _ _ n hn => ?_,
    fun hzero => absurd hzero hfresh_ne⟩
  · obtain ⟨v, hv, hva, -, hbig⟩ := hholds
    obtain rfl : v = u := hord₁.eq_of_addr (by decide) hv hu hva
    rw [toNat_align8 hsize] at hbig
    exact ⟨v.size, by omega, (hfinal.payload_iff _ _).2
      ⟨v, hrelease.release_keeps hu' hub, hfresh, rfl⟩⟩
  · obtain ⟨c, hc, hcptr, rfl⟩ := (sim.payload_iff ptr n).1 hn
    obtain rfl : c = b := sim.rep.ordered.eq_of_addr (by decide) (mem_inUse.1 hc).1
      (mem_inUse.1 hb).1 (by omega)
    have hi' : i < c.size := by omega
    have hin : InPayload u (result.toNat + i) := by
      unfold InPayload Block.stop
      omega
    exact (hsame₂ u hu' _ hin).trans
      ((copyLoop_copies hp hold (by omega) (by omega) hcopy (Nat.zero_le i) hi').trans
        (hsame₁.bytes hc hptr rfl i hi'))
  · obtain ⟨c, hc, hcptr, rfl⟩ := (sim.payload_iff other n).1 hn
    have hcb : c.addr ≠ b.addr := fun heq => hother (BitVec.eq_of_toNat_eq (by omega))
    have hc₁ := step.keeps hc
    have hcu : c.addr ≠ u.addr := (step.allocate_ne sim.rep.ordered ⟨c, hc, rfl⟩).symm
    refine ⟨(hfinal.payload_iff other c.size).2
      ⟨c, hrelease.release_keeps hc₁ hcb, hcptr, rfl⟩, fun i hi => ?_⟩
    have hin : InPayload c (other.toNat + i) := by
      unfold InPayload Block.stop
      omega
    have hoff := hin.off_block hord₁ (mem_inUse.1 hc₁).1 hu hcu
    exact (hsame₂ c hc₁ _ hin).trans ((hcopied _ (by omega)).trans (hsame₁ c hc _ hin))
  · obtain ⟨c, hc, hcptr, -⟩ := (hfinal.payload_iff ptr n).1 hn
    exact ((hrelease.live hord₁ c.addr).1 ⟨c, hc, rfl⟩).2 (by omega)

end Calls

/-! ### Runs -/

/-- Every `realloc` of a live pointer in this state preserves data, and returns if `u_sbrk` does. -/
structure ReallocPreserves (s : MallocState Word) : Prop where
  live : ∀ ptr, ptr ∈ s.live ↔ ∃ n, s.heap.Payload ptr n
  keeps : ∀ {sbrk : Sbrk Word} {fuel : Nat} {ptr newSize result : Word} {h' : UserHeap Word},
    SbrkMoves sbrk → ptr ∈ s.live → 0 < newSize.toNat → newSize.toNat < 2 ^ 62 →
    realloc sbrk fuel s.heap ptr newSize = some (h', result) →
    ReallocKeeps s.heap h' ptr newSize result
  returns : ∀ {sbrk : Sbrk Word} {ptr newSize : Word}, SbrkMoves sbrk →
    (∀ k mem increment, ∃ r, sbrk k mem increment = some r) → ptr ∈ s.live →
    newSize.toNat < 2 ^ 62 → ∃ r, realloc sbrk (2 ^ 64) s.heap ptr newSize = some r

theorem MallocInv.reallocPreserves {lo : Nat} {s : MallocState Word} (inv : MallocInv lo s) :
    ReallocPreserves s := by
  obtain ⟨b, sim, hlive, -, -⟩ := inv
  refine ⟨fun ptr => ?_, fun hmoves hptr hpos hsize hrun => ?_, fun hmoves hsbrk hptr hsize => ?_⟩
  · rw [hlive ptr]
    constructor
    · rintro ⟨_, ⟨c, hc, rfl⟩, hptr⟩
      exact ⟨c.size, (sim.payload_iff ptr _).2 ⟨c, hc, hptr, rfl⟩⟩
    · rintro ⟨n, hn⟩
      obtain ⟨c, hc, hptr, -⟩ := (sim.payload_iff ptr n).1 hn
      exact ⟨c.addr, ⟨c, hc, rfl⟩, hptr⟩
  · obtain ⟨_, ⟨c, hc, rfl⟩, haddr⟩ := (hlive _).1 hptr
    refine realloc_keeps hmoves.law sim (by omega) ?_ hc haddr hrun
    rintro rfl
    exact absurd hpos (Nat.lt_irrefl 0)
  · obtain ⟨a, ha, haddr⟩ := (hlive _).1 hptr
    exact realloc_returns hmoves.law hsbrk sim (Nat.le_refl _) (by omega) ha haddr

/-- In every run of the allocator, alone on its break, with requests that fit, `realloc` preserves
    data. -/
theorem user_realloc_preserves (brk₀ : Word) (hbrk : brk₀ ≠ 0#64) (mem : ByteMem)
    (calls : List MallocCall) (s : MallocState Word)
    (run : Run (Guarded (fun _ call => call.Fits) AnyMallocStep) ⟨⟨brk₀, mem, 0#64⟩, []⟩ calls s) :
    ReallocPreserves s := by
  exact (MallocInv.of_fitting hbrk run).reallocPreserves

/-- The first of two blocks grows past the free block behind it and moves. -/
theorem user_realloc_preserves_moved : ∃ h',
    realloc plainSbrk 64 reusedHeap.heap 0x8004000020#64 200#64 = some (h', 0x8004000110#64) ∧
      ReallocKeeps reusedHeap.heap h' 0x8004000020#64 200#64 0x8004000110#64 := by
  have hpreserves := user_realloc_preserves 0x8004000000#64 (by decide) _ _ _ reusedHeap_run
  have hcall : (realloc plainSbrk 64 reusedHeap.heap 0x8004000020#64 200#64).map Prod.snd =
      some 0x8004000110#64 := by decide +kernel
  obtain ⟨⟨h', _⟩, hrun, rfl⟩ := Option.map_eq_some_iff.1 hcall
  have hlive : 0x8004000020#64 ∈ reusedHeap.live := by
    rw [reusedHeap_live]
    exact List.mem_cons_self
  exact ⟨h', hrun, hpreserves.keeps plainSbrk_moves hlive (by decide) (by decide) hrun⟩

/-- The memory after `malloc(24)` on an empty heap. -/
def memSmall : ByteMem := writeBlk orderBase 24#64 fun _ => 0#8

/-- The memory after `malloc(2^64 - 56)`, which moves the break back to the payload of the first
    block. -/
def memBack : ByteMem :=
  setNext orderBase 0x8004000038#64 (setPrev 0x8004000038#64 orderBase
    (writeBlk 0x8004000038#64 0xFFFFFFFFFFFFFFC8#64 memSmall))

/-- The two blocks. -/
def backState : MallocState Word :=
  ⟨⟨0x8004000020#64, memBack, orderBase⟩, [0x8004000058#64, 0x8004000020#64]⟩

theorem backState_reached : Run AnyMallocStep ⟨⟨orderBase, fun _ => 0#8, 0#64⟩, []⟩
    [.malloc 24#64, .malloc 0xFFFFFFFFFFFFFFC8#64] backState := by
  have hnext : blkNext memSmall orderBase = 0#64 := by decide +kernel
  have hloop : mallocLoop (align8 0xFFFFFFFFFFFFFFC8#64) memSmall 2 orderBase 0#64 =
      some (.exhausted orderBase) := by
    rw [mallocLoop, if_neg (by decide), if_neg (by decide +kernel), hnext, mallocLoop, if_pos rfl]
  have first : AnyMallocStep ⟨⟨orderBase, fun _ => 0#8, 0#64⟩, []⟩ (.malloc 24#64)
      ⟨⟨0x8004000038#64, memSmall, orderBase⟩, [0x8004000020#64]⟩ :=
    @malloc_anyStep _ _ _ 0#64 _ _ 1 (by decide) rfl (by decide) (by decide)
  have second : AnyMallocStep ⟨⟨0x8004000038#64, memSmall, orderBase⟩, [0x8004000020#64]⟩
      (.malloc 0xFFFFFFFFFFFFFFC8#64) backState :=
    malloc_anyStep (by decide) hloop (by decide) (by decide)
  exact .cons first (.single second)

/-- A request that moves the break down lets `realloc` write the new header over the old payload
    before it copies it. -/
theorem user_realloc_loses_data :
    ¬ ∀ (brk₀ : Word) (mem : ByteMem) (calls : List MallocCall) (s : MallocState Word),
      brk₀ ≠ 0#64 → Run AnyMallocStep ⟨⟨brk₀, mem, 0#64⟩, []⟩ calls s → ReallocPreserves s := by
  intro hall
  have hpres := hall orderBase _ _ _ (by decide) backState_reached
  have hpayload : backState.heap.Payload 0x8004000020#64 24 := by
    refine ⟨⟨0x8004000000, 24, false⟩, ?_, rfl, rfl⟩
    decide +kernel
  have hbefore : backState.heap.mem 0x8004000020 = 0#8 := by decide +kernel
  have hcall : (realloc signedSbrk 100 backState.heap 0x8004000020#64 32#64).map
      (fun r => (r.2, r.1.mem 0x8004000040)) = some (0x8004000040#64, 32#8) := by decide +kernel
  obtain ⟨⟨h', result⟩, hrun, heq⟩ := Option.map_eq_some_iff.1 hcall
  obtain ⟨rfl, hafter⟩ := Prod.mk.inj heq
  have hstart := (hpres.keeps signedSbrk_moves (by simp [backState]) (by decide) (by decide) hrun).start
    24 hpayload (by decide) 0 (by decide)
  change h'.mem 0x8004000040 = backState.heap.mem 0x8004000020 at hstart
  rw [hbefore] at hstart
  rw [show h'.mem 0x8004000040 = 32#8 from hafter] at hstart
  exact absurd hstart (by decide)

end CustomKernel.User
