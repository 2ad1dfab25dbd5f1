/-
Module: CustomKernel.Proofs.FreeOrder
Layer: Proofs
Purpose: What a sequence of `free` calls of the user allocator leaves behind. The list tiles the
  memory obtained from `sbrk` without free neighbours, so it is determined by the blocks in use; the
  header of a freed block stays in memory with its magic number, at the start of a free block or in
  the payload of one that has absorbed it, so a second `free` sees it and returns. Hence the order
  and the repetitions of the calls do not matter.
Imports: CustomKernel.Proofs.MallocSimulation
Trusted boundary: none (fully proved)
Main exports: UserHeap.blocks, freeAll, Freed, Freed.free, FreesIndependent,
  user_frees_independent
-/
import CustomKernel.Proofs.MallocSimulation

namespace CustomKernel.User

open ByteMemory BlockList StepSystem

/-! ### The block list in memory -/

/-- The blocks found by following `next` from `b` on. -/
def readBlks (mem : ByteMem) : (fuel : Nat) → (b : Word) → List Block
  | 0, _ => []
  | fuel + 1, b =>
      if b = 0#64 then []
      else ⟨b.toNat, (blkSize mem b).toNat, blkFree mem b ≠ 0#32⟩ ::
        readBlks mem fuel (blkNext mem b)

/-- The block list: there are no more headers than addresses. -/
def UserHeap.blocks {κ : Type} (h : UserHeap κ) : List Block := readBlks h.mem (2 ^ 64) h.heapList

theorem readBlks_eq {mem : ByteMem} : ∀ {fuel prev lo hi : Nat} {b : Word} {rest : List Block},
    0 < lo → Ordered 32 lo hi rest → b.toNat = firstAddr rest 0 →
    Linked (BlkAt mem) prev rest 0 → rest.length ≤ fuel → readBlks mem fuel b = rest
  | 0, _, _, _, _, rest, _, _, _, _, hfuel => by
      rw [List.length_eq_zero_iff.1 (Nat.le_zero.1 hfuel)]
      rfl
  | fuel + 1, prev, lo, hi, b, rest, hlo, hord, hb, hlinked, hfuel => by
      have hnull := pointer_eq_zero hlo hord hb
      rw [readBlks]
      cases rest with
      | nil => rw [if_pos (hnull.2 rfl)]
      | cons c rest =>
          have hheader := hlinked.1
          have hstop : 0 < c.stop 32 := by
            unfold Block.stop
            omega
          have hrest := readBlks_eq hstop hord.2 (hheader.blkNext_eq hb) hlinked.2
            (Nat.le_of_succ_le_succ hfuel)
          have hfree : decide (blkFree mem b ≠ 0#32) = c.free := by
            rw [Bool.eq_iff_iff, decide_eq_true_iff]
            exact hheader.blkFree_ne hb
          have hhead : b.toNat = c.addr := hb
          rw [if_neg (fun h => by cases hnull.1 h), hrest, hheader.blkSize_eq hb, hfree, hhead]

/-- The list in memory is the one represented. -/
theorem MallocRep.blocks_eq {κ : Type} {h : UserHeap κ} {lo hi : Nat} {blocks : List Block}
    (rep : MallocRep h.mem h.heapList lo hi blocks) : h.blocks = blocks := by
  have hlength := rep.ordered.length_le (by decide)
  have htop := rep.top
  exact readBlks_eq rep.pos rep.ordered rep.head rep.linked (by omega)

/-! ### Where the headers of freed blocks lie -/

/-- A header at `addr` lies in the block: it is the block's own, or in its payload. -/
def HeaderIn (addr : Nat) (c : Block) : Prop :=
  (c.addr = addr ∨ c.addr + 32 ≤ addr) ∧ addr + 32 ≤ c.stop 32

/-- A header that was freed: its magic number says so, and it lies in a free block. -/
def Stale (mem : ByteMem) (blocks : List Block) (addr : Nat) : Prop :=
  load mem 4 (addr + 8) = freeMagic.toNat ∧ ∃ c ∈ blocks, c.free = true ∧ HeaderIn addr c

section Headers

variable {lo hi addr : Nat} {b b₁ b₂ c : Block} {pre pre' post post' blocks : List Block}

theorem HeaderIn.join_left (h : HeaderIn addr b) : HeaderIn addr (join 32 b c) := by
  obtain ⟨hstart, hstop⟩ := h
  refine ⟨hstart, ?_⟩
  unfold Block.stop join at *
  dsimp only
  omega

theorem HeaderIn.join_right (htouch : b.stop 32 = c.addr) (h : HeaderIn addr c) :
    HeaderIn addr (join 32 b c) := by
  obtain ⟨hstart, hstop⟩ := h
  unfold HeaderIn Block.stop join at *
  dsimp only at *
  omega

/-- A header in a block lies in no link of the list. -/
theorem HeaderIn.offLinks (h : HeaderIn addr c) (hord : Ordered 32 lo hi blocks) (hc : c ∈ blocks)
    {y : Nat} (hlo : addr + 8 ≤ y) (hhi : y < addr + 12) : OffLinks blocks y := by
  obtain ⟨hstart, hstop⟩ := h
  intro d hd
  by_cases hne : c.addr = d.addr
  · omega
  · have hapart := hord.apart hc hd hne
    unfold Block.stop at hapart hstop
    omega

/-- What lies in the block that merges with the one before it lies in the result. -/
theorem LeftMerge.headerIn (hleft : LeftMerge b₁ pre pre' b₂)
    (ht : Tiles 32 lo hi (pre ++ b₁ :: post)) (h : HeaderIn addr b₁) : HeaderIn addr b₂ := by
  cases hleft with
  | stay => exact h
  | merge ha =>
      obtain ⟨mid, hpre, hmid, -⟩ := tiles_append.1 ht
      obtain ⟨_, -, -, hstop⟩ := tiles_append.1 hpre
      exact h.join_right ((show _ = mid from hstop).trans hmid.symm)

theorem RightMerge.headerIn (hright : RightMerge b post b₁ post') (h : HeaderIn addr b) :
    HeaderIn addr b₁ := by
  cases hright with
  | stay => exact h
  | merge hd => exact h.join_left

/-- Headers in the other free blocks stay in free blocks. -/
theorem headerIn_kept (ht : Tiles 32 lo hi (pre ++ b :: post)) (hb : b.free = true)
    (hright : RightMerge b post b₁ post') (hleft : LeftMerge b₁ pre pre' b₂)
    (hc : c ∈ pre ∨ c ∈ post) (hfree : c.free = true) (h : HeaderIn addr c) :
    ∃ d ∈ pre' ++ b₂ :: post', d.free = true ∧ HeaderIn addr d := by
  have hb₂ : b₂.free = true := hleft.free (hright.free.trans hb)
  have ht₁ := hright.tiles ht
  rcases hc with hmem | hmem
  · cases hleft with
    | stay => exact ⟨c, by simp [hmem], hfree, h⟩
    | merge ha =>
        rcases List.mem_append.1 hmem with hmem | hmem
        · exact ⟨c, by simp [hmem], hfree, h⟩
        · rw [List.mem_singleton.1 hmem] at h
          exact ⟨_, by simp, hb₂, h.join_left⟩
  · cases hright with
    | stay => exact ⟨c, by simp [hmem], hfree, h⟩
    | merge hd =>
        rcases List.mem_cons.1 hmem with rfl | hmem
        · obtain ⟨mid, -, -, hnext, -⟩ := tiles_append.1 ht
          exact ⟨_, by simp, hb₂, hleft.headerIn ht₁ (h.join_right hnext.symm)⟩
        · exact ⟨c, by simp [hmem], hfree, h⟩

end Headers

/-! ### Freeing a sequence of pointers -/

/-- `free` of several pointers, one after the other. -/
def freeAll {κ : Type} (ptrs : List Word) (h : UserHeap κ) : UserHeap κ := ptrs.foldl free h

/-- What the frees of `done`, all of them live at first, have left of the list `blocks₀`. -/
structure Freed (lo hi : Nat) (blocks₀ : List Block) (done : List Word) (h : UserHeap Word)
    (blocks : List Block) : Prop where
  rep : MallocRep h.mem h.heapList lo hi blocks
  tiles : Tiles 32 lo hi blocks
  separated : Separated blocks
  use : inUse blocks = (inUse blocks₀).filter fun b => ∀ ptr ∈ done, b.addr + 32 ≠ ptr.toNat
  stale : ∀ ptr ∈ done, ∃ addr, ptr.toNat = addr + 32 ∧ Stale h.mem blocks addr

section Frees

variable {lo hi : Nat} {blocks₀ blocks blocks' : List Block} {done done' : List Word}
  {h h' : UserHeap Word} {ptr : Word}

/-- Nothing freed yet. -/
theorem Freed.start (rep : MallocRep h.mem h.heapList lo hi blocks₀) (ht : Tiles 32 lo hi blocks₀)
    (hs : Separated blocks₀) : Freed lo hi blocks₀ [] h blocks₀ where
  rep := rep
  tiles := ht
  separated := hs
  use := by simp
  stale := fun _ hptr => nomatch hptr

/-- The state is determined by the blocks in use, hence by which pointers were freed. -/
theorem Freed.blocks_congr (inv : Freed lo hi blocks₀ done h blocks)
    (inv' : Freed lo hi blocks₀ done' h' blocks') (hsame : ∀ ptr, ptr ∈ done ↔ ptr ∈ done') :
    h.blocks = h'.blocks := by
  have huse : inUse blocks = inUse blocks' := by
    rw [inv.use, inv'.use]
    exact List.filter_congr fun c _ => decide_eq_decide.2 (by simp only [hsame])
  rw [inv.rep.blocks_eq, inv'.rep.blocks_eq, inv.tiles.eq_fill (by decide) inv.separated,
    inv'.tiles.eq_fill (by decide) inv'.separated, huse]

/-- The magic number of a header that was freed stops a second `free`. -/
theorem Freed.free_again (inv : Freed lo hi blocks₀ done h blocks) (hptr : ptr ∈ done) :
    free h ptr = h := by
  obtain ⟨addr, haddr, hmagic, -⟩ := inv.stale ptr hptr
  have hne : blkMagic h.mem (ptr - blkSizeof) ≠ usedMagic := by
    have heq : blkMagic h.mem (ptr - blkSizeof) = freeMagic := by
      apply BitVec.eq_of_toNat_eq
      rw [toNat_blkMagic, toNat_sub_sizeof haddr, hmagic]
    rw [heq]
    decide
  unfold free
  split
  · rfl
  · exact if_pos hne

/-- One more `free` of a pointer that was live at first. -/
theorem Freed.free (inv : Freed lo hi blocks₀ done h blocks)
    (hlive : ∃ b ∈ inUse blocks₀, ptr.toNat = b.addr + 32) :
    ∃ blocks', Freed lo hi blocks₀ (ptr :: done) (User.free h ptr) blocks' := by
  by_cases hdone : ptr ∈ done
  · rw [inv.free_again hdone]
    refine ⟨blocks, inv.rep, inv.tiles, inv.separated, ?_, ?_⟩
    · rw [inv.use]
      refine List.filter_congr fun c _ => decide_eq_decide.2 ?_
      rw [List.forall_mem_cons]
      exact ⟨fun hall => ⟨hall ptr hdone, hall⟩, fun hall => hall.2⟩
    · intro other hother
      rcases List.mem_cons.1 hother with rfl | hother
      · exact inv.stale other hdone
      · exact inv.stale other hother
  -- the block is still in use
  obtain ⟨b, hb₀, hptr⟩ := hlive
  have hb : b ∈ inUse blocks := by
    rw [inv.use]
    refine List.mem_filter.2 ⟨hb₀, decide_eq_true fun other hother heq => hdone ?_⟩
    rwa [BitVec.eq_of_toNat_eq (hptr.trans heq)]
  obtain ⟨hmem, hused⟩ := mem_inUse.1 hb
  obtain ⟨pre, post, rfl⟩ := List.append_of_mem hmem
  have hord := inv.rep.ordered
  obtain ⟨b₁, post', pre', b₂, hright, hleft, -, hrep, hsame⟩ := inv.rep.free hused hptr
  have step : BlockStep ⟨pre ++ b :: post, hi, []⟩ (.release b.addr) ⟨pre' ++ b₂ :: post', hi, []⟩ :=
    .release hused hright hleft
  have hb₂ : b₂.free = true := hleft.free (hright.free.trans rfl)
  have hmarked : Tiles 32 lo hi (pre ++ { b with free := true } :: post) := by
    obtain ⟨mid, hpre, hfirst, hrest⟩ := tiles_append.1 inv.tiles
    exact tiles_append.2 ⟨mid, hpre, hfirst, hrest⟩
  have hp := toNat_sub_sizeof hptr
  refine ⟨pre' ++ b₂ :: post', hrep, step.tiles inv.tiles, step.separated inv.separated, ?_, ?_⟩
  · rw [inUse_append, inUse_cons_free hb₂, hleft.inUse, hright.inUse,
      inUse_filter_ne (by decide) hord hused, inv.use, List.filter_filter]
    refine List.filter_congr fun c _ => ?_
    rw [Bool.eq_iff_iff]
    simp only [Bool.and_eq_true, decide_eq_true_eq, List.forall_mem_cons, hptr, ne_eq,
      Nat.add_right_cancel_iff]
  · intro other hother
    rcases List.mem_cons.1 hother with rfl | hother
    · -- its own header
      refine ⟨b.addr, hptr, ?_, b₂, by simp, hb₂, ?_⟩
      · have hin : HeaderIn b.addr b := ⟨.inl rfl, by unfold Block.stop; omega⟩
        rw [load_congr fun y hlo hhi => hsame y (hin.offLinks hord hmem hlo hhi), mark, setMagic, hp]
        exact load_store_word _ rfl
      · have hin : HeaderIn b.addr { b with free := true } :=
          ⟨.inl rfl, by unfold Block.stop; dsimp only; omega⟩
        exact hleft.headerIn (hright.tiles hmarked) (hright.headerIn hin)
    · -- the header of a block freed before
      obtain ⟨addr, haddr, hmagic, c, hc, hfree, hin⟩ := inv.stale other hother
      have hcb : c ∈ pre ∨ c ∈ post := by
        rcases List.mem_append.1 hc with hc | hc
        · exact .inl hc
        · rcases List.mem_cons.1 hc with rfl | hc
          · rw [hused] at hfree
            cases hfree
          · exact .inr hc
      have hapart := hord.apart hc hmem (hord.addr_ne (by decide) hcb)
      refine ⟨addr, haddr, ?_, headerIn_kept hmarked rfl hright hleft hcb hfree hin⟩
      refine (load_congr fun y hlo hhi => ?_).trans hmagic
      rw [hsame y (hin.offLinks hord hc hlo hhi)]
      refine mark_outside ?_
      have hstart := hin.1
      have hstop := hin.2
      rw [hp]
      unfold Block.stop at hapart hstop
      omega

/-- Any sequence of frees of pointers that were live at first. -/
theorem Freed.all : ∀ {ptrs done : List Word} {h : UserHeap Word} {blocks : List Block},
    Freed lo hi blocks₀ done h blocks →
    (∀ ptr ∈ ptrs, ∃ b ∈ inUse blocks₀, ptr.toNat = b.addr + 32) →
    ∃ blocks', Freed lo hi blocks₀ (ptrs.reverse ++ done) (freeAll ptrs h) blocks'
  | [], _, _, _, inv, _ => ⟨_, inv⟩
  | ptr :: ptrs, done, h, blocks, inv, hlive => by
      obtain ⟨blocks₁, inv₁⟩ := inv.free (hlive ptr List.mem_cons_self)
      obtain ⟨blocks', inv'⟩ := inv₁.all fun p hp => hlive p (List.mem_cons_of_mem _ hp)
      refine ⟨blocks', ?_⟩
      rw [List.reverse_cons, List.append_assoc]
      exact inv'

end Frees

/-! ### Requests of any size -/

/-- `free`, `realloc` and stores as in `Allowed`, with requests of any size. -/
def MallocCall.OnLive {κ : Type} (s : MallocState κ) : MallocCall → Prop
  | .malloc _ => True
  | .calloc _ _ => True
  | .realloc ptr _ => ptr = 0#64 ∨ ptr ∈ s.live
  | .free ptr => ptr = 0#64 ∨ ptr ∈ s.live
  | .write addr _ => ∃ ptr ∈ s.live, ptr.toNat ≤ addr ∧
      addr < ptr.toNat + (blkSize s.heap.mem (ptr - blkSizeof)).toNat

/-- The request, rounded and with its header, is positive as the signed increment to which
    `blk_extend` casts it. -/
def MallocCall.Fits : MallocCall → Prop
  | .malloc size => size.toNat + 39 < 2 ^ 63
  | .calloc nmemb size => nmemb.toNat * size.toNat + 39 < 2 ^ 63
  | .realloc _ size => size.toNat + 39 < 2 ^ 63
  | _ => True

theorem MallocCall.allowed {s : MallocState κ} {call : MallocCall} (hlive : call.OnLive s)
    (hfits : call.Fits) : call.Allowed s := by
  cases call with
  | malloc size => exact hfits
  | calloc nmemb size => exact hfits
  | realloc ptr size => exact ⟨hlive, hfits⟩
  | free ptr => exact hlive
  | write addr byte => exact hlive

/-- `u_sbrk` for every increment: it fails, or moves the break by the increment, up or down, and
    returns the old one. There is no memory to back a break that grows past the last address. -/
def SbrkMoves (sbrk : Sbrk Word) : Prop :=
  ∀ {brk brk' : Word} {mem mem' : ByteMem} {increment r : Word},
    sbrk brk mem increment = some (brk', mem', r) →
    (∀ a < brk.toNat, mem' a = mem a) ∧
      ((r = -1#64 ∧ brk' = brk) ∨ (r = brk ∧ brk' = brk + increment ∧
        (increment.toNat < 2 ^ 63 → brk.toNat + increment.toNat < 2 ^ 64)))

/-- For increments that are not negative this is what the allocator relies on. -/
theorem SbrkMoves.law {sbrk : Sbrk Word} (h : SbrkMoves sbrk) : SbrkLaw BreakAt sbrk := by
  intro brk brk' mem mem' top increment r hbrk hlo hhi hrun
  have htop : brk.toNat = top := hbrk
  subst htop
  obtain ⟨hsame, ⟨hr, rfl⟩ | ⟨rfl, rfl, hroom⟩⟩ := h hrun
  · exact ⟨hsame, .inl ⟨hr, hbrk⟩⟩
  · have hroom := hroom hhi
    refine ⟨hsame, .inr ⟨rfl, hroom, ?_⟩⟩
    show (r + increment).toNat = _
    rw [BitVec.toNat_add]
    omega

/-- A call that returns, with any request and any outcome of `u_sbrk`. -/
def AnyMallocStep (s : MallocState Word) (call : MallocCall) (s' : MallocState Word) : Prop :=
  call.OnLive s ∧ ∃ (sbrk : Sbrk Word) (fuel : Nat) (result : Word), SbrkMoves sbrk ∧
    call.run sbrk fuel s = some (s', result)

/-- Order and repetitions of frees do not matter: the list depends on the set of pointers freed, a
    pointer that was freed is freed again without effect, and freeing all live pointers leaves one
    free block, if any memory was obtained. -/
structure FreesIndependent (brk₀ : Word) (s : MallocState Word) : Prop where
  order : ∀ ptrs ptrs' : List Word, (∀ ptr ∈ ptrs, ptr ∈ s.live) →
    (∀ ptr, ptr ∈ ptrs ↔ ptr ∈ ptrs') →
      (freeAll ptrs s.heap).blocks = (freeAll ptrs' s.heap).blocks
  again : ∀ (ptrs : List Word) (ptr : Word), (∀ ptr ∈ ptrs, ptr ∈ s.live) → ptr ∈ ptrs →
    free (freeAll ptrs s.heap) ptr = freeAll ptrs s.heap
  all : ∀ ptrs : List Word, (∀ ptr, ptr ∈ ptrs ↔ ptr ∈ s.live) →
    (freeAll ptrs s.heap).blocks = if brk₀ = s.heap.kernel then []
      else [⟨brk₀.toNat, s.heap.kernel.toNat - brk₀.toNat - 32, true⟩]

theorem MallocInv.freesIndependent {brk₀ : Word} {s : MallocState Word}
    (inv : MallocInv brk₀.toNat s) : FreesIndependent brk₀ s := by
  obtain ⟨b, sim, hlive, htiles, hsep⟩ := inv
  have htop : s.heap.kernel.toNat = b.top := sim.env
  have hblock : ∀ ptr ∈ s.live, ∃ c ∈ inUse b.blocks, ptr.toNat = c.addr + 32 := by
    intro ptr hptr
    obtain ⟨_, ⟨c, hc, rfl⟩, haddr⟩ := (hlive ptr).1 hptr
    exact ⟨c, hc, haddr⟩
  have hfreed : ∀ ptrs : List Word, (∀ ptr ∈ ptrs, ptr ∈ s.live) →
      ∃ blocks, Freed brk₀.toNat b.top b.blocks (ptrs.reverse ++ []) (freeAll ptrs s.heap) blocks :=
    fun ptrs hptrs => (Freed.start sim.rep htiles hsep).all fun ptr hptr => hblock ptr (hptrs ptr hptr)
  refine ⟨fun ptrs ptrs' hptrs hsame => ?_, fun ptrs ptr hptrs hmem => ?_, fun ptrs hall => ?_⟩
  · obtain ⟨blocks, inv₁⟩ := hfreed ptrs hptrs
    obtain ⟨blocks', inv₂⟩ := hfreed ptrs' fun ptr hptr => hptrs ptr ((hsame ptr).2 hptr)
    exact inv₁.blocks_congr inv₂ (by simpa using hsame)
  · obtain ⟨blocks, inv₁⟩ := hfreed ptrs hptrs
    exact inv₁.free_again (by simpa using hmem)
  · obtain ⟨blocks, inv₁⟩ := hfreed ptrs fun ptr hptr => (hall ptr).1 hptr
    have hnone : inUse blocks = [] := by
      rw [inv₁.use, List.filter_eq_nil_iff]
      intro c hc hkept
      -- the payload of every block in use is live, hence among those freed
      have hbound := (sim.rep.bounds (mem_inUse.1 hc).1).2
      have hlt := sim.rep.top
      have hnat : (BitVec.ofNat 64 (c.addr + 32) : Word).toNat = c.addr + 32 := by
        rw [BitVec.toNat_ofNat]
        omega
      have hmem := (hall _).2 ((hlive (BitVec.ofNat 64 (c.addr + 32))).2 ⟨_, ⟨c, hc, rfl⟩, hnat⟩)
      exact of_decide_eq_true hkept _ (by simpa using hmem) hnat.symm
    rw [inv₁.rep.blocks_eq, inv₁.tiles.eq_fill (by decide) inv₁.separated, hnone, fill, gap, ← htop]
    exact if_congr BitVec.toNat_inj rfl rfl

/-- Requests that fit keep the invariant in every run. -/
theorem MallocInv.of_fitting {brk₀ : Word} (hbrk : brk₀ ≠ 0#64) {mem : ByteMem}
    {calls : List MallocCall} {s : MallocState Word}
    (run : Run (Guarded (fun _ call => call.Fits) AnyMallocStep) ⟨⟨brk₀, mem, 0#64⟩, []⟩ calls s) :
    MallocInv brk₀.toNat s := by
  refine run.invariant (MallocInv brk₀.toNat) ?_ (.init hbrk mem)
  rintro s call s' inv ⟨hfits, hlive, sbrk, fuel, result, hmoves, hrun⟩
  exact inv.step ⟨MallocCall.allowed hlive hfits, sbrk, fuel, result, hmoves.law, hrun⟩

/-- In every run of the allocator, alone on its break, with requests that fit, frees of live
    pointers can be reordered and repeated. -/
theorem user_frees_independent (brk₀ : Word) (hbrk : brk₀ ≠ 0#64) (mem : ByteMem)
    (calls : List MallocCall) (s : MallocState Word)
    (run : Run (Guarded (fun _ call => call.Fits) AnyMallocStep) ⟨⟨brk₀, mem, 0#64⟩, []⟩ calls s) :
    FreesIndependent brk₀ s := by
  exact (MallocInv.of_fitting hbrk run).freesIndependent

/-! ### Concrete runs -/

/-- A break that moves both ways, and fails instead of passing the last address. -/
def signedSbrk : Sbrk Word := fun brk mem increment =>
  if increment.toNat < 2 ^ 63 ∧ 2 ^ 64 ≤ brk.toNat + increment.toNat then some (brk, mem, -1#64)
  else some (brk + increment, mem, brk)

theorem signedSbrk_moves : SbrkMoves signedSbrk := by
  intro brk brk' mem mem' increment r hrun
  unfold signedSbrk at hrun
  split at hrun
  · cases hrun
    exact ⟨fun _ _ => rfl, .inl ⟨rfl, rfl⟩⟩
  · rename_i hroom
    cases hrun
    exact ⟨fun _ _ => rfl, .inr ⟨rfl, rfl, fun hlt => by omega⟩⟩

/-- It moves up only. -/
theorem plainSbrk_moves : SbrkMoves plainSbrk := by
  intro brk brk' mem mem' increment r hrun
  unfold plainSbrk at hrun
  split at hrun
  · rename_i hroom
    cases hrun
    exact ⟨fun _ _ => rfl, .inr ⟨rfl, rfl, fun _ => hroom⟩⟩
  · cases hrun
    exact ⟨fun _ _ => rfl, .inl ⟨rfl, rfl⟩⟩

/-- A call that the program may make is one that fits. -/
theorem MallocCall.play_anyStep {s s' : MallocState Word} {call : MallocCall}
    (h : call.play s = some s') : Guarded (fun _ call => call.Fits) AnyMallocStep s call s' := by
  obtain ⟨hallowed, result, hrun⟩ := play_some h
  have hboth : call.OnLive s ∧ call.Fits := by
    cases call with
    | malloc size => exact ⟨trivial, hallowed⟩
    | calloc nmemb size => exact ⟨trivial, hallowed⟩
    | realloc ptr size => exact hallowed
    | free ptr => exact ⟨hallowed, trivial⟩
    | write addr byte => exact ⟨hallowed, trivial⟩
  exact ⟨hboth.2, hboth.1, plainSbrk, 64, result, plainSbrk_moves, hrun⟩

theorem reusedHeap_run :
    Run (Guarded (fun _ call => call.Fits) AnyMallocStep) emptyHeap reuseCalls reusedHeap :=
  .of_foldlM (fun _ _ _ => MallocCall.play_anyStep) reusedHeap_played

/-- Two blocks freed in either order, one of them twice. -/
theorem user_frees_independent_two_orders :
    (freeAll [0x8004000020#64, 0x80040000E0#64] reusedHeap.heap).blocks =
        (freeAll [0x80040000E0#64, 0x8004000020#64, 0x80040000E0#64] reusedHeap.heap).blocks ∧
      (freeAll [0x8004000020#64, 0x80040000E0#64] reusedHeap.heap).blocks =
        [⟨0x8004000000, 208, true⟩] := by
  have hfree := user_frees_independent 0x8004000000#64 (by decide) _ _ _ reusedHeap_run
  have hlive := reusedHeap_live
  have hbreak : reusedHeap.heap.kernel = 0x80040000F0#64 := by decide +kernel
  constructor
  · refine hfree.order _ _ (fun ptr hptr => by rwa [hlive]) fun ptr => ?_
    refine ⟨List.mem_cons_of_mem _, fun hmem => ?_⟩
    rcases List.mem_cons.1 hmem with rfl | hmem
    · exact List.mem_cons_of_mem _ List.mem_cons_self
    · exact hmem
  · have hall := hfree.all [0x8004000020#64, 0x80040000E0#64] fun ptr => by rw [hlive]
    rw [hbreak, if_neg (by decide)] at hall
    exact hall

/-- The first break of the runs below, and the headers of their second and third block. -/
def orderBase : Word := 0x8004000000#64

def orderSecond : Word := 0x8004000030#64

def orderThird : Word := 0x8004000018#64

/-- The memory after `malloc(16)` on an empty heap. -/
def memOne : ByteMem := writeBlk orderBase 16#64 fun _ => 0#8

/-- The memory after `malloc(2^64 - 56)`, which moves the break down by 24. -/
def memTwo : ByteMem :=
  setNext orderBase orderSecond (setPrev orderSecond orderBase
    (writeBlk orderSecond 0xFFFFFFFFFFFFFFC8#64 memOne))

/-- The memory after `malloc(8)`, whose block ends in the header of the second. -/
def memThree : ByteMem :=
  setNext orderSecond orderThird (setPrev orderThird orderSecond (writeBlk orderThird 8#64 memTwo))

/-- A `malloc` that extends the heap is a step. -/
theorem malloc_anyStep {mem : ByteMem} {brk heapList last size : Word} {live : List Word} {fuel : Nat}
    (hsize : size ≠ 0#64)
    (hloop : mallocLoop (align8 size) mem fuel heapList 0#64 = some (.exhausted last))
    (hroom : ¬ ((blkSizeof + align8 size).toNat < 2 ^ 63 ∧
      2 ^ 64 ≤ brk.toNat + (blkSizeof + align8 size).toNat))
    (hbrk : brk ≠ -1#64 ∧ brk ≠ 0#64 ∧ brk + blkSizeof ≠ 0#64) :
    AnyMallocStep ⟨⟨brk, mem, heapList⟩, live⟩ (.malloc size)
      ⟨if heapList = 0#64 then ⟨brk + (blkSizeof + align8 size), writeBlk brk (align8 size) mem, brk⟩
        else ⟨brk + (blkSizeof + align8 size),
          setNext last brk (setPrev brk last (writeBlk brk (align8 size) mem)), heapList⟩,
        (brk + blkSizeof) :: live⟩ := by
  have hsbrk : signedSbrk brk mem (blkSizeof + align8 size) =
      some (brk + (blkSizeof + align8 size), mem, brk) := if_neg hroom
  have hmalloc := malloc_extends hsize hloop hsbrk hbrk.1 hbrk.2.1
  refine ⟨trivial, signedSbrk, fuel, brk + blkSizeof, signedSbrk_moves, ?_⟩
  refine Option.bind_eq_some_iff.2 ⟨_, hmalloc, ?_⟩
  show some (MallocState.mk _ (handOut (brk + blkSizeof) live), _) = _
  rw [handOut, if_neg hbrk.2.2]

theorem memOne_step : AnyMallocStep ⟨⟨orderBase, fun _ => 0#8, 0#64⟩, []⟩ (.malloc 16#64)
    ⟨⟨orderSecond, memOne, orderBase⟩, [0x8004000020#64]⟩ :=
  @malloc_anyStep _ _ _ 0#64 _ _ 1 (by decide) rfl (by decide) (by decide)

/-- The three blocks of the second run. -/
def orderState : MallocState Word :=
  ⟨⟨0x8004000040#64, memThree, orderBase⟩, [0x8004000038#64, 0x8004000050#64, 0x8004000020#64]⟩

theorem orderState_reached : Run AnyMallocStep ⟨⟨orderBase, fun _ => 0#8, 0#64⟩, []⟩
    [.malloc 16#64, .malloc 0xFFFFFFFFFFFFFFC8#64, .malloc 8#64] orderState := by
  have hnext₁ : blkNext memOne orderBase = 0#64 := by decide +kernel
  have hloop₁ : mallocLoop (align8 0xFFFFFFFFFFFFFFC8#64) memOne 2 orderBase 0#64 =
      some (.exhausted orderBase) := by
    rw [mallocLoop, if_neg (by decide), if_neg (by decide +kernel), hnext₁, mallocLoop, if_pos rfl]
  have hnext₂ : blkNext memTwo orderBase = orderSecond := by decide +kernel
  have hnext₃ : blkNext memTwo orderSecond = 0#64 := by decide +kernel
  have hloop₂ : mallocLoop (align8 8#64) memTwo 3 orderBase 0#64 = some (.exhausted orderSecond) := by
    rw [mallocLoop, if_neg (by decide), if_neg (by decide +kernel), hnext₂, mallocLoop,
      if_neg (by decide), if_neg (by decide +kernel), hnext₃, mallocLoop, if_pos rfl]
  have step₂ : AnyMallocStep ⟨⟨orderSecond, memOne, orderBase⟩, [0x8004000020#64]⟩
      (.malloc 0xFFFFFFFFFFFFFFC8#64)
      ⟨⟨orderThird, memTwo, orderBase⟩, [0x8004000050#64, 0x8004000020#64]⟩ :=
    malloc_anyStep (by decide) hloop₁ (by decide) (by decide)
  have step₃ : AnyMallocStep ⟨⟨orderThird, memTwo, orderBase⟩, [0x8004000050#64, 0x8004000020#64]⟩
      (.malloc 8#64) orderState :=
    malloc_anyStep (by decide) hloop₂ (by decide) (by decide)
  exact .cons memOne_step (.cons step₂ (.single step₃))

section Frees

variable {κ : Type} {h : UserHeap κ} {mem : ByteMem} {b ptr : Word}

theorem free_used (hne : ptr ≠ 0#64) (hb : ptr - blkSizeof = b)
    (hmagic : blkMagic h.mem b = usedMagic) :
    free h ptr = { h with mem := coalesceLeft b (coalesceRight b (mark b true h.mem)) } := by
  subst hb
  rw [free, if_neg hne]
  exact if_neg (not_not_intro hmagic)

theorem coalesceRight_stays (h : blkNext mem b = 0#64 ∨ blkFree mem (blkNext mem b) = 0#32) :
    coalesceRight b mem = mem := by
  refine if_neg ?_
  rintro ⟨hnext, hfree⟩
  exact h.elim hnext hfree

theorem coalesceLeft_stays (h : blkPrev mem b = 0#64 ∨ blkFree mem (blkPrev mem b) = 0#32) :
    coalesceLeft b mem = mem := by
  refine if_neg ?_
  rintro ⟨hprev, hfree⟩
  exact h.elim hprev hfree

end Frees

/-- The third block freed, and then the second, which takes it up. -/
theorem third_second_freed : freeAll [0x8004000038#64, 0x8004000050#64] orderState.heap =
    ⟨0x8004000040#64, linkPast orderSecond 0x8004000058#64 0#64
      (mark orderSecond true (mark orderThird true memThree)), orderBase⟩ := by
  have hfirst : free orderState.heap 0x8004000038#64 =
      ⟨0x8004000040#64, mark orderThird true memThree, orderBase⟩ := by
    rw [free_used (b := orderThird) (by decide) (by decide) (by decide +kernel),
      coalesceRight_stays (.inl (by decide +kernel)), coalesceLeft_stays (.inr (by decide +kernel))]
    rfl
  have hright : coalesceRight orderSecond (mark orderSecond true (mark orderThird true memThree)) =
      linkPast orderSecond 0x8004000058#64 0#64
        (mark orderSecond true (mark orderThird true memThree)) := by
    have hnext : blkNext (mark orderSecond true (mark orderThird true memThree)) orderSecond =
        orderThird := by decide +kernel
    have hsize : blkSize (mark orderSecond true (mark orderThird true memThree)) orderSecond +
        (blkSizeof + blkSize (mark orderSecond true (mark orderThird true memThree)) orderThird) =
          0x8004000058#64 := by decide +kernel
    have hnext' : blkNext (setSize orderSecond 0x8004000058#64
        (mark orderSecond true (mark orderThird true memThree))) orderSecond = orderThird := by
      decide +kernel
    have hlast : blkNext (setSize orderSecond 0x8004000058#64
        (mark orderSecond true (mark orderThird true memThree))) orderThird = 0#64 := by
      decide +kernel
    have hlast' : blkNext (setNext orderSecond 0#64 (setSize orderSecond 0x8004000058#64
        (mark orderSecond true (mark orderThird true memThree)))) orderSecond = 0#64 := by
      decide +kernel
    rw [coalesceRight, hnext, if_pos ⟨by decide, by decide +kernel⟩, hsize]
    dsimp only
    rw [hnext', hlast, hlast', linkPast]
  rw [freeAll, List.foldl_cons, hfirst, List.foldl_cons, List.foldl_nil,
    free_used (b := orderSecond) (by decide) (by decide) (by decide +kernel), hright,
    coalesceLeft_stays (.inr (by decide +kernel))]

/-- The second block freed, and then the third: its `prev` is the `size` that the merge writes. -/
theorem second_third_freed : freeAll [0x8004000050#64, 0x8004000038#64] orderState.heap =
    ⟨0x8004000040#64, setNext 0x8004000058#64 0#64 (setSize orderSecond 0x8004000058#64
      (mark orderThird true (mark orderSecond true memThree))), orderBase⟩ := by
  have hfirst : free orderState.heap 0x8004000050#64 =
      ⟨0x8004000040#64, mark orderSecond true memThree, orderBase⟩ := by
    rw [free_used (b := orderSecond) (by decide) (by decide) (by decide +kernel),
      coalesceRight_stays (.inr (by decide +kernel)), coalesceLeft_stays (.inr (by decide +kernel))]
    rfl
  have hleft : coalesceLeft orderThird (mark orderThird true (mark orderSecond true memThree)) =
      setNext 0x8004000058#64 0#64 (setSize orderSecond 0x8004000058#64
        (mark orderThird true (mark orderSecond true memThree))) := by
    have hprev : blkPrev (mark orderThird true (mark orderSecond true memThree)) orderThird =
        orderSecond := by decide +kernel
    have hsize : blkSize (mark orderThird true (mark orderSecond true memThree)) orderSecond +
        (blkSizeof + blkSize (mark orderThird true (mark orderSecond true memThree)) orderThird) =
          0x8004000058#64 := by decide +kernel
    have hprev' : blkPrev (setSize orderSecond 0x8004000058#64
        (mark orderThird true (mark orderSecond true memThree))) orderThird = 0x8004000058#64 := by
      decide +kernel
    have hnext : blkNext (setSize orderSecond 0x8004000058#64
        (mark orderThird true (mark orderSecond true memThree))) orderThird = 0#64 := by
      decide +kernel
    have hnext' : blkNext (setNext 0x8004000058#64 0#64 (setSize orderSecond 0x8004000058#64
        (mark orderThird true (mark orderSecond true memThree)))) orderThird = 0#64 := by
      decide +kernel
    rw [coalesceLeft, hprev, if_pos ⟨by decide, by decide +kernel⟩, hsize]
    dsimp only
    rw [hprev', hnext, hnext']
    exact if_pos rfl
  rw [freeAll, List.foldl_cons, hfirst, List.foldl_cons, List.foldl_nil,
    free_used (b := orderThird) (by decide) (by decide) (by decide +kernel),
    coalesceRight_stays (.inl (by decide +kernel)), hleft]

/-- A request that is negative as an increment moves the break back into a block in use, and the
    order of two frees shows in the list. -/
theorem user_frees_depend_on_order :
    ¬ ∀ (brk₀ : Word) (mem : ByteMem) (calls : List MallocCall) (s : MallocState Word),
      brk₀ ≠ 0#64 → Run AnyMallocStep ⟨⟨brk₀, mem, 0#64⟩, []⟩ calls s → FreesIndependent brk₀ s := by
  intro hall
  have hfree := hall orderBase _ _ _ (by decide) orderState_reached
  have heq := hfree.order [0x8004000038#64, 0x8004000050#64] [0x8004000050#64, 0x8004000038#64]
    (fun ptr hptr => by rcases List.mem_pair.1 hptr with rfl | rfl <;> simp [orderState])
    fun ptr => by
      simp only [List.mem_cons, List.not_mem_nil, or_false]
      exact or_comm
  rw [third_second_freed, second_third_freed] at heq
  revert heq
  decide +kernel

end CustomKernel.User
