/-
Module: CustomKernel.Proofs.KernelHeap
Layer: Proofs
Purpose: The kernel heap keeps its block list in shape. The headers in memory represent a list of
  blocks that tiles the heap; every operation replaces a stretch of that list by another one covering
  the same bytes and writes nowhere else, so the list stays a tiling through splits, frees and the
  coalescing pass. The pass also removes every pair of free neighbours, and it terminates because
  each round shortens the list or moves on in it.
Imports: CustomKernel.Memory.Heap, CustomKernel.Library.BlockList, CustomKernel.Library.Runs,
  CustomKernel.Proofs.PageEntry
Trusted boundary: none (fully proved)
Main exports: HeapRep, kernel_heap_invariant, HeapCall.play, usedHeap
-/
import CustomKernel.Memory.Heap
import CustomKernel.Library.BlockList
import CustomKernel.Library.Runs
import CustomKernel.Proofs.PageEntry

namespace CustomKernel.Memory

open ByteMemory BlockList StepSystem Bits

/-! ### Headers in memory -/

/-- First address of the heap. -/
def heapLo : Nat := 0xC0000000

/-- First address after the heap. -/
def heapHi : Nat := 0xC0000000 + 1024 * 4096

/-- The header of a block. It does not refer to the block before it. -/
structure HeaderAt (mem : ByteMem) (_prev : Nat) (b : Block) (next : Nat) : Prop where
  size : load mem 8 b.addr = b.size
  free : load mem 4 (b.addr + 8) = b.free.toNat
  next : load mem 8 (b.addr + 16) = next

section Header

variable {mem mem' : ByteMem} {prev next : Nat} {b : Block} {curr : Word}

theorem toNat_blockSize (mem : ByteMem) (curr : Word) :
    (blockSize mem curr).toNat = load mem 8 curr.toNat := by
  rw [blockSize, BitVec.toNat_ofNat]
  exact Nat.mod_eq_of_lt (load_lt mem 8 _)

theorem toNat_blockFree (mem : ByteMem) (curr : Word) :
    (blockFree mem curr).toNat = load mem 4 (curr.toNat + 8) := by
  rw [blockFree, BitVec.toNat_ofNat]
  exact Nat.mod_eq_of_lt (load_lt mem 4 _)

theorem toNat_blockNext (mem : ByteMem) (curr : Word) :
    (blockNext mem curr).toNat = load mem 8 (curr.toNat + 16) := by
  rw [blockNext, BitVec.toNat_ofNat]
  exact Nat.mod_eq_of_lt (load_lt mem 8 _)

theorem HeaderAt.congr (h : HeaderAt mem prev b next)
    (hsame : ∀ a, b.addr ≤ a → a < b.addr + 24 → mem' a = mem a) : HeaderAt mem' prev b next where
  size := by
    rw [load_congr fun a hlo hhi => hsame a hlo (by omega)]
    exact h.size
  free := by
    rw [load_congr fun a hlo hhi => hsame a (by omega) (by omega)]
    exact h.free
  next := by
    rw [load_congr fun a hlo hhi => hsame a (by omega) (by omega)]
    exact h.next

/-- Testing the `free` flag of a header. -/
theorem HeaderAt.blockFree_ne (h : HeaderAt mem prev b next) (hcurr : curr.toNat = b.addr) :
    blockFree mem curr ≠ 0#32 ↔ b.free = true := by
  have hnat : (blockFree mem curr).toNat = b.free.toNat := by
    rw [toNat_blockFree, hcurr, h.free]
  rw [Ne, ← BitVec.toNat_inj, hnat]
  cases b.free <;> simp

theorem HeaderAt.blockNext_eq (h : HeaderAt mem prev b next) (hcurr : curr.toNat = b.addr) :
    (blockNext mem curr).toNat = next := by
  rw [toNat_blockNext, hcurr, h.next]

theorem HeaderAt.blockSize_eq (h : HeaderAt mem prev b next) (hcurr : curr.toNat = b.addr) :
    (blockSize mem curr).toNat = b.size := by
  rw [toNat_blockSize, hcurr, h.size]

end Header

/-! ### The block list -/

/-- The headers in memory represent `blocks`, which tile the heap. -/
structure HeapRep (mem : ByteMem) (blocks : List Block) : Prop where
  linked : Linked (HeaderAt mem) 0 blocks 0
  tiles : Tiles 24 heapLo heapHi blocks
  sizes : ∀ b ∈ blocks, b.size % 8 = 0

section Rep

variable {mem mem' : ByteMem} {pre seg seg' post : List Block} {b : Block}

theorem HeapRep.ordered (rep : HeapRep mem seg) : Ordered 24 heapLo heapHi seg := rep.tiles.ordered

/-- Work inside a stretch of the list replaces it, if the new blocks cover the same bytes. -/
theorem HeapRep.replace (rep : HeapRep mem (pre ++ (seg ++ post)))
    (hfirst : ∀ n, firstAddr seg' n = firstAddr seg n)
    (htiles : ∀ lo hi, Tiles 24 lo hi seg → Tiles 24 lo hi seg')
    (hlinked : Linked (HeaderAt mem') 0 seg' (firstAddr post 0))
    (hsizes : ∀ b ∈ seg', b.size % 8 = 0)
    (hsame : ∀ a, (∀ b ∈ seg, a < b.addr ∨ b.stop 24 ≤ a) → mem' a = mem a) :
    HeapRep mem' (pre ++ (seg' ++ post)) := by
  obtain ⟨hpre, hrest⟩ := linked_append.1 rep.linked
  obtain ⟨-, hpost⟩ := linked_append.1 hrest
  have hpairs := rep.ordered.pairwise
  rw [List.pairwise_append] at hpairs
  obtain ⟨-, hpairs, hbefore⟩ := hpairs
  obtain ⟨-, -, hafter⟩ := List.pairwise_append.1 hpairs
  obtain ⟨mid, htpre, hrest⟩ := tiles_append.1 rep.tiles
  obtain ⟨mid', htseg, htpost⟩ := tiles_append.1 hrest
  refine ⟨linked_append.2 ⟨?_, linked_append.2 ⟨?_, ?_⟩⟩,
    tiles_append.2 ⟨mid, htpre, tiles_append.2 ⟨mid', htiles _ _ htseg, htpost⟩⟩, ?_⟩
  · rw [firstAddr_append, hfirst, ← firstAddr_append]
    refine hpre.imp fun c hc p n h => h.congr fun a hlo hhi => hsame a fun b hb => .inl ?_
    have := hbefore c hc b (List.mem_append_left _ hb)
    unfold Block.stop at this
    omega
  · exact hlinked.restart fun p p' b n h => ⟨h.size, h.free, h.next⟩
  · refine @Linked.restart _ (lastAddr (lastAddr 0 pre) seg) _ _ _
      (fun p p' b n h => ⟨h.size, h.free, h.next⟩) ?_
    refine hpost.imp fun c hc p n h => h.congr fun a hlo hhi => hsame a fun b hb => .inr ?_
    have := hafter b hb c hc
    omega
  · intro c hc
    rcases List.mem_append.1 hc with hmem | hmem
    · exact rep.sizes c (List.mem_append_left _ hmem)
    · rcases List.mem_append.1 hmem with hmem | hmem
      · exact hsizes c hmem
      · exact rep.sizes c (List.mem_append_right _ (List.mem_append_right _ hmem))

/-- The header of a block in the middle of the list. -/
theorem HeapRep.header (rep : HeapRep mem (pre ++ b :: post)) :
    HeaderAt mem (lastAddr 0 pre) b (firstAddr post 0) :=
  (linked_append.1 rep.linked).2.1

theorem HeapRep.bounds (rep : HeapRep mem seg) (hb : b ∈ seg) :
    heapLo ≤ b.addr ∧ b.addr + 24 + b.size ≤ heapHi :=
  rep.ordered.mem hb

end Rep

/-! ### Taking a block -/

section Take

variable {mem : ByteMem} {prev next : Nat} {b : Block} {curr size : Word}

theorem kmallocSplit_outside (hcurr : curr.toNat = b.addr)
    (hsplit : (curr + blockHeaderSize + size).toNat = b.addr + 24 + size.toNat)
    (hroom : size.toNat + 24 ≤ b.size) {a : Nat} (ha : a < b.addr ∨ b.stop 24 ≤ a) :
    kmallocSplit curr size mem a = mem a := by
  unfold Block.stop at ha
  simp only [kmallocSplit, setBlockSize, setBlockFree, setBlockNext, hcurr, hsplit]
  rw [store_outside (by omega), store_outside (by omega), store_outside (by omega),
    store_outside (by omega), store_outside (by omega)]

/-- The headers after a split, before the first part is marked used. -/
theorem kmallocSplit_headers (h : HeaderAt mem prev b next) (hcurr : curr.toNat = b.addr)
    (hsplit : (curr + blockHeaderSize + size).toNat = b.addr + 24 + size.toNat)
    (hroom : size.toNat + 24 ≤ b.size) :
    HeaderAt (kmallocSplit curr size mem) prev ⟨b.addr, size.toNat, b.free⟩
        (b.addr + 24 + size.toNat) ∧
      HeaderAt (kmallocSplit curr size mem) b.addr
        ⟨b.addr + 24 + size.toNat, b.size - size.toNat - 24, true⟩ next := by
  have hsize : (blockSize mem curr - size - blockHeaderSize).toNat = b.size - size.toNat - 24 := by
    have hnat := h.blockSize_eq hcurr
    have := (blockSize mem curr).isLt
    rw [blockHeaderSize, BitVec.toNat_sub, BitVec.toNat_sub, BitVec.toNat_ofNat]
    omega
  have hnext : ∀ {mem' : ByteMem}, load mem' 8 (b.addr + 16) = next →
      (blockNext mem' curr).toNat = next := by
    intro mem' heq
    rw [toNat_blockNext, hcurr, heq]
  refine ⟨⟨?_, ?_, ?_⟩, ⟨?_, ?_, ?_⟩⟩
  all_goals
    simp only [kmallocSplit, setBlockSize, setBlockFree, setBlockNext, hcurr, hsplit]
  · exact load_store_word size rfl
  · simp (disch := omega) only [load_store_apart]
    exact h.free
  · rw [load_store_apart (by omega), load_store]
    rw [← hsplit]
    exact (curr + blockHeaderSize + size).isLt
  · simp (disch := omega) only [load_store_apart]
    rw [load_store_word _ rfl, hsize]
  · simp (disch := omega) only [load_store_apart]
    exact load_store_word 1#32 rfl
  · rw [load_store_apart (by omega), load_store_apart (by omega), load_store_word _ rfl]
    refine hnext ?_
    simp (disch := omega) only [load_store_apart]
    exact h.next

theorem setBlockFree_outside {value : BitVec 32} (hcurr : curr.toNat = b.addr) {a : Nat}
    (ha : a < b.addr ∨ b.stop 24 ≤ a) : setBlockFree curr value mem a = mem a := by
  unfold Block.stop at ha
  rw [setBlockFree, hcurr, store_outside (by omega)]

/-- Changing the flag of a header. -/
theorem HeaderAt.setFree (h : HeaderAt mem prev b next) (hcurr : curr.toNat = b.addr)
    (value : Bool) :
    HeaderAt (setBlockFree curr (if value then 1#32 else 0#32) mem) prev { b with free := value }
      next where
  size := by
    rw [setBlockFree, hcurr, load_store_apart (by simp only; omega)]
    exact h.size
  free := by
    rw [setBlockFree, hcurr, load_store_word _ rfl]
    cases value <;> rfl
  next := by
    rw [setBlockFree, hcurr, load_store_apart (by simp only; omega)]
    exact h.next

/-- Where a block is cut, and when. -/
theorem HeapRep.split_at {pre post : List Block} (rep : HeapRep mem (pre ++ b :: post))
    (hcurr : curr.toNat = b.addr) (hfit : size.toNat ≤ b.size) :
    (curr + blockHeaderSize + size).toNat = b.addr + 24 + size.toNat ∧
      (size + blockHeaderSize + 8#64 < blockSize mem curr ↔ size.toNat + 24 + 9 ≤ b.size) := by
  obtain ⟨hlo, hhi⟩ := rep.bounds (b := b) (by simp)
  unfold heapHi at hhi
  constructor
  · rw [blockHeaderSize, BitVec.toNat_add, BitVec.toNat_add, BitVec.toNat_ofNat]
    omega
  · rw [BitVec.lt_def, rep.header.blockSize_eq hcurr, blockHeaderSize, BitVec.toNat_add,
      BitVec.toNat_add, BitVec.toNat_ofNat, BitVec.toNat_ofNat]
    omega

/-- Nothing changes outside the block that is taken from. -/
theorem HeapRep.take_outside {pre post : List Block} (rep : HeapRep mem (pre ++ b :: post))
    (hcurr : curr.toNat = b.addr) (hfit : size.toNat ≤ b.size) {a : Nat}
    (ha : a < b.addr ∨ b.stop 24 ≤ a) : kmallocTake curr size mem a = mem a := by
  obtain ⟨hsplit, hlt⟩ := rep.split_at hcurr hfit
  unfold kmallocTake
  by_cases hcut : size.toNat + 24 + 9 ≤ b.size
  · rw [if_pos (hlt.2 hcut), setBlockFree_outside hcurr ha,
      kmallocSplit_outside hcurr hsplit (by omega) ha]
  · rw [if_neg (fun h => hcut (hlt.1 h)), setBlockFree_outside hcurr ha]

/-- Taking `size` bytes from a block of the list. -/
theorem HeapRep.take {pre post : List Block} (rep : HeapRep mem (pre ++ b :: post))
    (hcurr : curr.toNat = b.addr) (hfit : size.toNat ≤ b.size) (hmod : size.toNat % 8 = 0) :
    HeapRep (kmallocTake curr size mem) (pre ++ (cut 24 9 size.toNat b ++ post)) := by
  have hheader := rep.header
  have hbmod := rep.sizes b (by simp)
  obtain ⟨hsplit, hlt⟩ := rep.split_at hcurr hfit
  refine @HeapRep.replace _ _ _ [b] _ _ rep firstAddr_cut (fun _ _ => tiles_cut) ?_ ?_
    (fun a ha => rep.take_outside hcurr hfit (ha b (List.mem_cons_self ..)))
  · unfold cut kmallocTake
    by_cases hcut : size.toNat + 24 + 9 ≤ b.size
    · simp only [if_pos hcut, if_pos (hlt.2 hcut)]
      obtain ⟨hfirst, hsecond⟩ := kmallocSplit_headers hheader hcurr hsplit (by omega)
      refine ⟨⟨(hfirst.setFree hcurr false).size, (hfirst.setFree hcurr false).free,
        (hfirst.setFree hcurr false).next⟩, ?_, trivial⟩
      refine hsecond.congr fun a ha _ => ?_
      change b.addr + 24 + size.toNat ≤ a at ha
      rw [setBlockFree, hcurr, store_outside (by omega)]
    · simp only [if_neg hcut, if_neg (fun h => hcut (hlt.1 h))]
      have hused := hheader.setFree hcurr false
      exact ⟨⟨hused.size, hused.free, hused.next⟩, trivial⟩
  · intro c hc
    unfold cut at hc
    split at hc
    · simp only [List.mem_cons, List.not_mem_nil, or_false] at hc
      rcases hc with rfl | rfl
      · exact hmod
      · show (b.size - size.toNat - 24) % 8 = 0
        omega
    · simp only [List.mem_cons, List.not_mem_nil, or_false] at hc
      rw [hc]
      exact hbmod

end Take

/-! ### The search loop -/

section Search

variable {mem : ByteMem} {size : Word}

/-- A pointer to the rest of a list is null exactly at its end. -/
theorem pointer_eq_zero {curr : Word} {lo hi : Nat} {rest : List Block} (hlo : 0 < lo)
    (hord : Ordered 24 lo hi rest) (hcurr : curr.toNat = firstAddr rest 0) :
    curr = 0#64 ↔ rest = [] := by
  rw [← BitVec.toNat_inj, hcurr]
  cases rest with
  | nil => simp
  | cons b rest =>
      have := hord.1
      simp only [firstAddr_cons, BitVec.toNat_ofNat, reduceCtorEq, iff_false]
      omega

/-- The search takes from the first free block that is large enough, if there is one. -/
theorem kmallocLoop_spec : ∀ {fuel prev lo hi : Nat} {curr : Word} {rest : List Block}
    {r : ByteMem × Word}, 0 < lo → Ordered 24 lo hi rest → curr.toNat = firstAddr rest 0 →
    Linked (HeaderAt mem) prev rest 0 → kmallocLoop size fuel curr mem = some r →
    (rest.find? (Block.fits size.toNat) = none ∧ r = (mem, 0#64)) ∨
      ∃ b, rest.find? (Block.fits size.toNat) = some b ∧ ∃ p : Word, p.toNat = b.addr ∧
        r = (kmallocTake p size mem, p + blockHeaderSize)
  | 0, _, _, _, _, _, _, _, _, _, _, hrun => by cases hrun
  | fuel + 1, prev, lo, hi, curr, rest, r, hlo, hord, hcurr, hlinked, hrun => by
      have hnull := pointer_eq_zero hlo hord hcurr
      rw [kmallocLoop] at hrun
      cases rest with
      | nil =>
          rw [if_pos (hnull.2 rfl)] at hrun
          cases hrun
          exact .inl ⟨rfl, rfl⟩
      | cons b rest =>
          rw [if_neg (fun h => by cases hnull.1 h)] at hrun
          have hheader := hlinked.1
          have hfits : (blockFree mem curr ≠ 0#32 ∧ size ≤ blockSize mem curr) ↔
              b.fits size.toNat = true := by
            rw [hheader.blockFree_ne hcurr, BitVec.le_def, hheader.blockSize_eq hcurr, Block.fits,
              Bool.and_eq_true, decide_eq_true_iff]
          by_cases hfit : blockFree mem curr ≠ 0#32 ∧ size ≤ blockSize mem curr
          · rw [if_pos hfit] at hrun
            cases hrun
            exact .inr ⟨b, List.find?_cons_of_pos (hfits.1 hfit), curr, hcurr, rfl⟩
          · rw [if_neg hfit] at hrun
            have hstop : 0 < b.stop 24 := by
              unfold Block.stop
              omega
            rw [List.find?_cons_of_neg fun h => hfit (hfits.2 h)]
            exact kmallocLoop_spec hstop hord.2 (hheader.blockNext_eq hcurr) hlinked.2 hrun

/-- The search ends, one round a block. -/
theorem kmallocLoop_returns : ∀ {fuel prev lo hi : Nat} {curr : Word} {rest : List Block},
    0 < lo → Ordered 24 lo hi rest → curr.toNat = firstAddr rest 0 →
    Linked (HeaderAt mem) prev rest 0 → rest.length < fuel →
    ∃ r, kmallocLoop size fuel curr mem = some r
  | 0, _, _, _, _, _, _, _, _, _, hfuel => by cases hfuel
  | fuel + 1, prev, lo, hi, curr, rest, hlo, hord, hcurr, hlinked, hfuel => by
      rw [kmallocLoop]
      split
      · exact ⟨_, rfl⟩
      · split
        · exact ⟨_, rfl⟩
        · rename_i hne _
          cases rest with
          | nil => exact absurd ((pointer_eq_zero hlo hord hcurr).2 rfl) hne
          | cons b rest =>
              have hstop : 0 < b.stop 24 := by
                unfold Block.stop
                omega
              exact kmallocLoop_returns hstop hord.2 (hlinked.1.blockNext_eq hcurr) hlinked.2
                (Nat.lt_of_succ_lt_succ hfuel)

end Search

/-! ### The coalescing pass -/

section Coalesce

variable {mem : ByteMem} {pre post : List Block} {b c : Block} {curr : Word}

/-- A merge writes the header of the block alone. -/
theorem mergeNext_outside (hcurr : curr.toNat = b.addr) {a : Nat}
    (ha : a < b.addr ∨ b.stop 24 ≤ a) : mergeNext curr mem a = mem a := by
  unfold Block.stop at ha
  simp only [mergeNext, setBlockNext, setBlockSize, hcurr]
  rw [store_outside (by omega), store_outside (by omega)]

theorem HeapRep.merge (rep : HeapRep mem (pre ++ b :: c :: post)) (hcurr : curr.toNat = b.addr) :
    HeapRep (mergeNext curr mem) (pre ++ join 24 b c :: post) := by
  have hb := rep.header
  have hc : HeaderAt mem b.addr c (firstAddr post 0) := (linked_append.1 rep.linked).2.2.1
  have hnext : (blockNext mem curr).toNat = c.addr := hb.blockNext_eq hcurr
  have hbmem : b ∈ pre ++ b :: c :: post := by simp
  have hcmem : c ∈ pre ++ b :: c :: post := by simp
  obtain ⟨hblo, hbhi⟩ := rep.bounds hbmem
  obtain ⟨hclo, hchi⟩ := rep.bounds hcmem
  have hbmod := rep.sizes b hbmem
  have hcmod := rep.sizes c hcmem
  have hadj : c.addr = b.addr + 24 + b.size := by
    obtain ⟨_, -, htiles⟩ := tiles_append.1 rep.tiles
    exact htiles.2.1
  unfold heapHi at hbhi hchi
  have hsize : (blockSize mem curr + (blockHeaderSize + blockSize mem (blockNext mem curr))).toNat =
      b.size + 24 + c.size := by
    rw [BitVec.toNat_add, BitVec.toNat_add, hb.blockSize_eq hcurr, hc.blockSize_eq hnext,
      blockHeaderSize, BitVec.toNat_ofNat]
    omega
  refine @HeapRep.replace _ _ _ [b, c] [join 24 b c] _ rep (fun n => rfl)
    (fun _ _ => tiles_join) ?_ ?_ ?_
  · have hkeep : (blockNext (setBlockSize curr
        (blockSize mem curr + (blockHeaderSize + blockSize mem (blockNext mem curr))) mem) curr) =
        blockNext mem curr := by
      rw [blockNext, blockNext, setBlockSize, load_store_apart (by omega)]
    refine ⟨⟨?_, ?_, ?_⟩, trivial⟩
    all_goals
      simp only [mergeNext, join, setBlockNext, hcurr]
    · rw [load_store_apart (by omega), setBlockSize, hcurr, load_store_word _ rfl, hsize]
    · rw [load_store_apart (by omega), setBlockSize, load_store_apart (by omega)]
      exact hb.free
    · rw [load_store_word _ rfl, hkeep, toNat_blockNext, hnext, setBlockSize,
        load_store_apart (by omega)]
      exact hc.next
  · intro d hd
    rw [List.mem_singleton.1 hd]
    show (b.size + 24 + c.size) % 8 = 0
    omega
  · intro a ha
    exact mergeNext_outside hcurr (ha b (by simp))

/-- The bytes of the blocks, their headers included, are the same. -/
def BytesKept (blocks : List Block) (mem mem' : ByteMem) : Prop :=
  ∀ b ∈ blocks, ∀ a, b.addr ≤ a → a < b.stop 24 → mem' a = mem a

theorem BytesKept.refl (blocks : List Block) (mem : ByteMem) : BytesKept blocks mem mem :=
  fun _ _ _ _ _ => rfl

theorem BytesKept.trans {blocks : List Block} {mem mem' mem'' : ByteMem}
    (h : BytesKept blocks mem mem') (h' : BytesKept blocks mem' mem'') :
    BytesKept blocks mem mem'' :=
  fun b hb a hlo hhi => (h' b hb a hlo hhi).trans (h b hb a hlo hhi)

theorem BytesKept.mono {blocks blocks' : List Block} {mem mem' : ByteMem}
    (h : BytesKept blocks mem mem') (hsub : blocks' ⊆ blocks) : BytesKept blocks' mem mem' :=
  fun b hb => h b (hsub hb)

/-- Work inside one block leaves the others alone. -/
theorem HeapRep.bytesKept {mem' : ByteMem} (rep : HeapRep mem (pre ++ b :: post))
    (hsame : ∀ a, a < b.addr ∨ b.stop 24 ≤ a → mem' a = mem a) {others : List Block}
    (hothers : ∀ d ∈ others, d ∈ pre ++ b :: post ∧ d ≠ b) : BytesKept others mem mem' := by
  intro d hd a hlo hhi
  obtain ⟨hmem, hne⟩ := hothers d hd
  have hb : b ∈ pre ++ b :: post := by simp
  have hapart := rep.ordered.apart hmem hb fun heq =>
    hne (rep.ordered.eq_of_addr (by decide) hmem hb heq)
  exact hsame a (by omega)

/-- Work inside a free block leaves the blocks in use alone. -/
theorem HeapRep.inUse_kept {mem' : ByteMem} (rep : HeapRep mem (pre ++ b :: post))
    (hfree : b.free = true) (hsame : ∀ a, a < b.addr ∨ b.stop 24 ≤ a → mem' a = mem a) :
    BytesKept (inUse (pre ++ b :: post)) mem mem' :=
  rep.bytesKept hsame fun d hd => by
    obtain ⟨hmem, hused⟩ := mem_inUse.1 hd
    refine ⟨hmem, ?_⟩
    rintro rfl
    rw [hfree] at hused
    cases hused

/-- The pass merges free neighbours until there are none, and leaves the blocks in use alone. -/
theorem coalesce_spec : ∀ {fuel : Nat} {curr : Word} {pre rest : List Block} {b : Block}
    {mem mem' : ByteMem}, HeapRep mem (pre ++ b :: rest) → curr.toNat = b.addr →
    Separated (pre ++ [b]) → coalesce fuel curr mem = some mem' →
    ∃ blocks, HeapRep mem' blocks ∧ Separated blocks ∧
      inUse blocks = inUse (pre ++ b :: rest) ∧ BytesKept (inUse (pre ++ b :: rest)) mem mem'
  | 0, _, _, _, _, _, _, _, _, _, hrun => by cases hrun
  | fuel + 1, curr, pre, rest, b, mem, mem', rep, hcurr, hsep, hrun => by
      have hheader := rep.header
      have hlo := (rep.bounds (b := b) (by simp)).1
      unfold heapLo at hlo
      have hne : curr ≠ 0#64 := by
        rintro rfl
        rw [BitVec.toNat_ofNat] at hcurr
        omega
      rw [coalesce] at hrun
      cases rest with
      | nil =>
          have hnext : blockNext mem curr = 0#64 :=
            BitVec.eq_of_toNat_eq (hheader.blockNext_eq hcurr)
          rw [if_pos (.inr hnext)] at hrun
          cases hrun
          exact ⟨_, rep, hsep, rfl, .refl _ _⟩
      | cons c post =>
          have hnext : (blockNext mem curr).toNat = c.addr := hheader.blockNext_eq hcurr
          have hclo := (rep.bounds (b := c) (by simp)).1
          unfold heapLo at hclo
          have hne' : blockNext mem curr ≠ 0#64 := by
            intro hzero
            rw [hzero, BitVec.toNat_ofNat] at hnext
            omega
          rw [if_neg (by simp [hne, hne'])] at hrun
          have hc : HeaderAt mem b.addr c (firstAddr post 0) :=
            (linked_append.1 rep.linked).2.2.1
          by_cases hboth : blockFree mem curr ≠ 0#32 ∧ blockFree mem (blockNext mem curr) ≠ 0#32
          · -- both free: merge and look at the merged block again
            rw [if_pos hboth] at hrun
            have hbfree := (hheader.blockFree_ne hcurr).1 hboth.1
            have hcfree := (hc.blockFree_ne hnext).1 hboth.2
            obtain ⟨blocks, hrep, hblocks, huse, hkept⟩ := coalesce_spec (b := join 24 b c)
              (rep.merge hcurr) hcurr ((separated_congr (b := b) (c := join 24 b c) rfl).1 hsep) hrun
            have hjoin : inUse (pre ++ join 24 b c :: post) = inUse (pre ++ b :: c :: post) := by
              rw [inUse_append, inUse_append, inUse_cons_free (b := join 24 b c) hbfree,
                inUse_cons_free hbfree, inUse_cons_free hcfree]
            rw [hjoin] at huse hkept
            exact ⟨blocks, hrep, hblocks, huse,
              (rep.inUse_kept hbfree fun a ha => mergeNext_outside hcurr ha).trans hkept⟩
          · -- otherwise the pair is settled
            rw [if_neg hboth] at hrun
            have happ : pre ++ b :: c :: post = (pre ++ [b]) ++ c :: post := by simp
            rw [happ] at rep ⊢
            refine coalesce_spec rep hnext ?_ hrun
            refine List.isChain_append.2 ⟨hsep, List.isChain_singleton _, ?_⟩
            intro x hx y hy
            simp only [List.getLast?_append, List.getLast?_singleton, Option.some_or,
              Option.mem_def, Option.some.injEq, List.head?_cons] at hx hy
            subst hx hy
            rwa [hheader.blockFree_ne hcurr, hc.blockFree_ne hnext] at hboth

/-- The pass terminates: each round merges or moves on. -/
theorem coalesce_returns : ∀ {fuel : Nat} {curr : Word} {pre rest : List Block} {b : Block}
    {mem : ByteMem}, HeapRep mem (pre ++ b :: rest) → curr.toNat = b.addr → rest.length < fuel →
    ∃ mem', coalesce fuel curr mem = some mem'
  | 0, _, _, _, _, _, _, _, hfuel => by cases hfuel
  | fuel + 1, curr, pre, rest, b, mem, rep, hcurr, hfuel => by
      have hheader := rep.header
      rw [coalesce]
      split
      · exact ⟨_, rfl⟩
      · rename_i hnull
        cases rest with
        | nil =>
            exact absurd (.inr (BitVec.eq_of_toNat_eq (hheader.blockNext_eq hcurr))) hnull
        | cons c post =>
            have hshorter : post.length < fuel := Nat.lt_of_succ_lt_succ hfuel
            split
            · exact coalesce_returns (b := join 24 b c) (rep.merge hcurr) hcurr hshorter
            · have happ : pre ++ b :: c :: post = (pre ++ [b]) ++ c :: post := by simp
              rw [happ] at rep
              exact coalesce_returns rep (hheader.blockNext_eq hcurr) hshorter

end Coalesce

/-! ### Histories -/

/-- The heap together with the pointers that were handed out and not freed. -/
structure HeapHistory where
  heap : KernelHeap
  live : List Word

/-- A call of the heap's interface, or a store into a block that is live. -/
inductive HeapCall where
  | kmalloc (size : Word)
  | kcalloc (n size : Word)
  | kfree (ptr : Word)
  | write (addr : Nat) (byte : BitVec 8)
deriving DecidableEq, Repr

/-- What callers keep to: no overflow in `kcalloc`, no `kfree` but of live pointers or `NULL`, and
    no store outside the payload of a live block. -/
def HeapCall.Allowed (s : HeapHistory) : HeapCall → Prop
  | .kmalloc _ => True
  | .kcalloc n size => n.toNat * size.toNat ≤ 2 ^ 64 - 8
  | .kfree ptr => ptr = 0#64 ∨ ptr ∈ s.live
  | .write addr _ => ∃ ptr ∈ s.live, ptr.toNat ≤ addr ∧
      addr < ptr.toNat + (blockSize s.heap.mem (ptr - blockHeaderSize)).toNat

def HeapCall.run (fuel : Nat) (s : HeapHistory) : HeapCall → Option HeapHistory
  | .kmalloc size => do
      let (heap, ptr) ← Memory.kmalloc fuel s.heap size
      return { heap := heap, live := if ptr = 0#64 then s.live else ptr :: s.live }
  | .kcalloc n size => do
      let (heap, ptr) ← Memory.kcalloc fuel s.heap n size
      return { heap := heap, live := if ptr = 0#64 then s.live else ptr :: s.live }
  | .kfree ptr => do
      let heap ← Memory.kfree fuel s.heap ptr
      return { heap := heap, live := s.live.filter (· ≠ ptr) }
  | .write addr byte =>
      some { s with heap := { s.heap with mem := store 1 addr byte.toNat s.heap.mem } }

/-- A call that returns. -/
def HeapHistoryStep (s : HeapHistory) (call : HeapCall) (s' : HeapHistory) : Prop :=
  call.Allowed s ∧ ∃ fuel, call.run fuel s = some s'

/-- The live pointers are the payloads of the blocks in use. -/
def LivePointers (live : List Word) (blocks : List Block) : Prop :=
  ∀ ptr : Word, ptr ∈ live ↔ ∃ b ∈ inUse blocks, ptr.toNat = b.addr + 24

/-- The invariant of the heap. -/
structure KernelHeapInv (s : HeapHistory) (blocks : List Block) : Prop where
  head : s.heap.heapHead = heapStart
  rep : HeapRep s.heap.mem blocks
  separated : Separated blocks
  live : LivePointers s.live blocks

section Invariant

variable {s s' : HeapHistory} {blocks pre post : List Block} {b : Block}

theorem toNat_align8 (size : Word) :
    (align8 size).toNat = (size.toNat + 7) % 2 ^ 64 / 8 * 8 := by
  have h := toNat_and_not_lowMask (size + 7#64) (n := 3) (by decide)
  rw [BitVec.toNat_add] at h
  exact h

theorem KernelHeapInv.init (mem : ByteMem) :
    KernelHeapInv ⟨heapInit mem, []⟩ [⟨heapLo, 1024 * 4096 - 24, true⟩] where
  head := rfl
  rep := by
    have hstart : heapStart.toNat = heapLo := rfl
    have hheader : HeaderAt (heapInit mem).mem 0 ⟨heapLo, 1024 * 4096 - 24, true⟩ 0 := by
      refine ⟨?_, ?_, ?_⟩
      all_goals
        simp only [heapInit, setBlockSize, setBlockFree, setBlockNext, hstart]
      · rw [load_store_apart (by omega), load_store_apart (by omega), load_store_word _ rfl]
        rfl
      · rw [load_store_apart (by omega)]
        exact load_store_word 1#32 rfl
      · exact load_store_word 0#64 rfl
    refine ⟨⟨hheader, trivial⟩, ⟨rfl, rfl⟩, fun b hb => ?_⟩
    rw [List.mem_singleton.1 hb]
    rfl
  separated := List.isChain_singleton _
  live ptr := by simp [inUse]

/-- The list is never empty: it starts with the first block of the heap. -/
theorem HeapRep.cons {mem : ByteMem} (rep : HeapRep mem blocks) :
    ∃ first rest, blocks = first :: rest ∧ first.addr = heapLo := by
  cases blocks with
  | nil => exact absurd rep.tiles (show ¬ heapLo = heapHi by decide)
  | cons first rest => exact ⟨first, rest, rfl, rep.tiles.1⟩

/-- What `kmalloc` does: it takes from the first free block that is large enough, or nothing if
    there is none. -/
theorem KernelHeapInv.kmalloc_first (inv : KernelHeapInv s blocks) {fuel : Nat} {size ptr : Word}
    {heap : KernelHeap} (hsize : size ≠ 0#64)
    (hrun : Memory.kmalloc fuel s.heap size = some (heap, ptr)) :
    (blocks.find? (Block.fits (align8 size).toNat) = none ∧ heap = s.heap ∧ ptr = 0#64) ∨
      ∃ pre b post, blocks = pre ++ b :: post ∧
        blocks.find? (Block.fits (align8 size).toNat) = some b ∧ heap.heapHead = heapStart ∧
        ptr.toNat = b.addr + 24 ∧
        HeapRep heap.mem (pre ++ (cut 24 9 (align8 size).toNat b ++ post)) ∧
        ∀ a, a < b.addr ∨ b.stop 24 ≤ a → heap.mem a = s.heap.mem a := by
  unfold Memory.kmalloc at hrun
  rw [if_neg hsize] at hrun
  cases hloop : kmallocLoop (align8 size) fuel s.heap.heapHead s.heap.mem with
  | none =>
      rw [hloop] at hrun
      cases hrun
  | some r =>
      rw [hloop] at hrun
      cases hrun
      obtain ⟨first, rest, hblocks, haddr⟩ := inv.rep.cons
      have hhead : s.heap.heapHead.toNat = firstAddr blocks 0 := by
        rw [inv.head, hblocks]
        exact haddr.symm
      rcases kmallocLoop_spec (by decide) inv.rep.ordered hhead inv.rep.linked hloop with
        ⟨hnone, rfl⟩ | ⟨b, hfind, p, hp, rfl⟩
      · exact .inl ⟨hnone, rfl, rfl⟩
      · obtain ⟨hfits, pre, post, hsplit, -⟩ := List.find?_eq_some_iff_append.1 hfind
        have hfit : (align8 size).toNat ≤ b.size :=
          of_decide_eq_true (Bool.and_eq_true_iff.1 hfits).2
        have hrep := hsplit ▸ inv.rep
        refine .inr ⟨pre, b, post, hsplit, hfind, inv.head, ?_,
          hrep.take hp hfit (by rw [toNat_align8]; omega), fun a ha => hrep.take_outside hp hfit ha⟩
        have := (inv.rep.bounds (b := b) (by rw [hsplit]; simp)).2
        unfold heapHi at this
        show (p + blockHeaderSize).toNat = _
        rw [BitVec.toNat_add, hp, blockHeaderSize, BitVec.toNat_ofNat]
        omega

/-- So it does nothing, or takes from a free block. -/
theorem KernelHeapInv.kmalloc (inv : KernelHeapInv s blocks) {fuel : Nat} {size ptr : Word}
    {heap : KernelHeap} (hrun : Memory.kmalloc fuel s.heap size = some (heap, ptr)) :
    (heap = s.heap ∧ ptr = 0#64) ∨
      ∃ pre b post, blocks = pre ++ b :: post ∧ b.free = true ∧ (align8 size).toNat ≤ b.size ∧
        heap.heapHead = heapStart ∧ ptr.toNat = b.addr + 24 ∧
        HeapRep heap.mem (pre ++ (cut 24 9 (align8 size).toNat b ++ post)) := by
  by_cases hzero : size = 0#64
  · unfold Memory.kmalloc at hrun
    rw [if_pos hzero] at hrun
    cases hrun
    exact .inl ⟨rfl, rfl⟩
  · rcases inv.kmalloc_first hzero hrun with
      ⟨-, hnull⟩ | ⟨pre, b, post, hsplit, hfind, hhead, hptr, hrep, -⟩
    · exact .inl hnull
    · have hfits : b.fits (align8 size).toNat = true := List.find?_some hfind
      obtain ⟨hfree, hfit⟩ := Bool.and_eq_true_iff.1 hfits
      exact .inr ⟨pre, b, post, hsplit, hfree, of_decide_eq_true hfit, hhead, hptr, hrep⟩

/-- Stores into a payload leave the list alone. -/
theorem HeapRep.payload {mem mem' : ByteMem} (rep : HeapRep mem (pre ++ b :: post))
    (hsame : ∀ a, a < b.addr + 24 ∨ b.stop 24 ≤ a → mem' a = mem a) :
    HeapRep mem' (pre ++ b :: post) := by
  have hheader : HeaderAt mem' 0 b (firstAddr post 0) := by
    have hold : HeaderAt mem 0 b (firstAddr post 0) :=
      ⟨rep.header.size, rep.header.free, rep.header.next⟩
    exact hold.congr fun a _ hhi => hsame a (.inl hhi)
  refine @HeapRep.replace _ _ _ [b] [b] _ rep (fun _ => rfl) (fun _ _ h => h)
    ⟨hheader, trivial⟩ (fun c hc => ?_) (fun a ha => ?_)
  · rw [List.mem_singleton.1 hc]
    exact rep.sizes b (by simp)
  · have := ha b (List.mem_cons_self ..)
    exact hsame a (by omega)

/-- A pointer to the payload of a block. -/
theorem toNat_sub_header {ptr : Word} {addr : Nat} (hptr : ptr.toNat = addr + 24) :
    (ptr - blockHeaderSize).toNat = addr := by
  have := ptr.isLt
  rw [blockHeaderSize, BitVec.toNat_sub, BitVec.toNat_ofNat]
  omega

/-- After a successful allocation, given that the payload's bytes may have been written. -/
theorem KernelHeapInv.allocated (inv : KernelHeapInv s (pre ++ b :: post)) (size : Nat)
    {heap : KernelHeap} {ptr : Word} (hfree : b.free = true) (hhead : heap.heapHead = heapStart)
    (hptr : ptr.toNat = b.addr + 24)
    (hrep : HeapRep heap.mem (pre ++ (cut 24 9 size b ++ post))) :
    KernelHeapInv ⟨heap, if ptr = 0#64 then s.live else ptr :: s.live⟩
      (pre ++ (cut 24 9 size b ++ post)) where
  head := hhead
  rep := hrep
  separated := separated_cut hfree inv.separated
  live other := by
    have hne : ptr ≠ 0#64 := by
      rintro rfl
      rw [BitVec.toNat_ofNat] at hptr
      omega
    simp only [if_neg hne, List.mem_cons, mem_inUse_cut hfree]
    rw [inv.live other, ← BitVec.toNat_inj, hptr]
    constructor
    · rintro (heq | ⟨c, hc, haddr⟩)
      · exact ⟨_, .inr rfl, heq⟩
      · exact ⟨c, .inl hc, haddr⟩
    · rintro ⟨c, hc | rfl, haddr⟩
      · exact .inr ⟨c, hc, haddr⟩
      · exact .inl haddr

/-- `kmalloc` and `kcalloc` keep the invariant. -/
theorem KernelHeapInv.step_kmalloc (inv : KernelHeapInv s blocks) {fuel : Nat} {size : Word}
    (hrun : (HeapCall.kmalloc size).run fuel s = some s') : ∃ blocks', KernelHeapInv s' blocks' := by
  obtain ⟨⟨heap, ptr⟩, hcall, hrun⟩ := Option.bind_eq_some_iff.1 hrun
  cases hrun
  rcases inv.kmalloc hcall with ⟨rfl, rfl⟩ | ⟨pre, b, post, rfl, hfree, -, hhead, hptr, hrep⟩
  · exact ⟨blocks, inv⟩
  · exact ⟨_, inv.allocated _ hfree hhead hptr hrep⟩

theorem KernelHeapInv.step_kcalloc (inv : KernelHeapInv s blocks) {fuel : Nat} {n size : Word}
    (hallowed : n.toNat * size.toNat ≤ 2 ^ 64 - 8)
    (hrun : (HeapCall.kcalloc n size).run fuel s = some s') :
    ∃ blocks', KernelHeapInv s' blocks' := by
  have hprod : (n * size).toNat = n.toNat * size.toNat := by
    rw [BitVec.toNat_mul, Nat.mod_eq_of_lt (by omega)]
  obtain ⟨⟨heap', ptr'⟩, hcalloc, hrun⟩ := Option.bind_eq_some_iff.1 hrun
  cases hrun
  obtain ⟨⟨heap, ptr⟩, hcall, hcalloc⟩ := Option.bind_eq_some_iff.1 hcalloc
  rcases inv.kmalloc hcall with ⟨rfl, rfl⟩ | ⟨pre, b, post, rfl, hfree, hfit, hhead, hptr, hrep⟩
  · cases hcalloc
    exact ⟨blocks, inv⟩
  · have hne : ptr ≠ 0#64 := by
      rintro rfl
      rw [BitVec.toNat_ofNat] at hptr
      omega
    simp only [if_neg hne] at hcalloc
    cases hcalloc
    obtain ⟨u, rest, hcut, haddr, -, hsize⟩ := @cut_cons 24 9 _ _ hfit
    rw [toNat_align8, hprod] at hsize
    refine ⟨_, inv.allocated (align8 (n * size)).toNat hfree hhead hptr ?_⟩
    rw [hcut] at hrep ⊢
    refine hrep.payload fun a ha => zero_loop_outside ?_
    rw [hprod, hptr, ← haddr]
    unfold Block.stop at ha
    omega

/-- A live pointer is the payload of a block in use. -/
theorem KernelHeapInv.live_block (inv : KernelHeapInv s blocks) {ptr : Word} (hlive : ptr ∈ s.live) :
    ∃ pre b post, blocks = pre ++ b :: post ∧ b.free = false ∧ ptr.toNat = b.addr + 24 := by
  obtain ⟨b, hb, hptr⟩ := (inv.live ptr).1 hlive
  obtain ⟨hmem, hused⟩ := mem_inUse.1 hb
  obtain ⟨pre, post, rfl⟩ := List.append_of_mem hmem
  exact ⟨pre, b, post, rfl, hused, hptr⟩

theorem HeapRep.setFree {mem : ByteMem} {curr : Word} (rep : HeapRep mem (pre ++ b :: post))
    (hcurr : curr.toNat = b.addr) (value : Bool) :
    HeapRep (setBlockFree curr (if value then 1#32 else 0#32) mem)
      (pre ++ { b with free := value } :: post) := by
  have hheader := rep.header.setFree hcurr value
  refine @HeapRep.replace _ _ _ [b] [{ b with free := value }] _ rep (fun _ => rfl)
    (fun _ _ h => h) ⟨⟨hheader.size, hheader.free, hheader.next⟩, trivial⟩ (fun c hc => ?_)
    fun a ha => setBlockFree_outside hcurr (ha b (List.mem_cons_self ..))
  rw [List.mem_singleton.1 hc]
  exact rep.sizes b (by simp)

/-- What `kfree` of a live pointer does: its block is no longer in use, free neighbours are merged,
    and the other blocks in use keep their bytes. -/
theorem KernelHeapInv.kfree_kept (inv : KernelHeapInv s blocks) {fuel : Nat} {ptr : Word}
    {heap : KernelHeap} (hlive : ptr ∈ s.live) (hrun : Memory.kfree fuel s.heap ptr = some heap) :
    ∃ blocks', KernelHeapInv ⟨heap, s.live.filter (· ≠ ptr)⟩ blocks' ∧
      inUse blocks' = ((inUse blocks).filter fun b => b.addr + 24 ≠ ptr.toNat) ∧
      BytesKept (inUse blocks') s.heap.mem heap.mem := by
  obtain ⟨pre, b, post, rfl, hused, hptr⟩ := inv.live_block hlive
  have hnull : ptr ≠ 0#64 := by
    rintro rfl
    rw [BitVec.toNat_ofNat] at hptr
    omega
  rw [Memory.kfree, if_neg hnull] at hrun
  obtain ⟨mem, hpass, hrun⟩ := Option.bind_eq_some_iff.1 hrun
  cases hrun
  have hrep := inv.rep.setFree (toNat_sub_header hptr) true
  obtain ⟨first, rest, hlist, haddr⟩ := hrep.cons
  rw [if_pos rfl] at hrep
  have hhead : s.heap.heapHead.toNat = first.addr := by
    rw [inv.head, haddr]
    rfl
  have hstart := hrep
  rw [hlist] at hstart
  obtain ⟨blocks', hrep', hsep', huse, hkept⟩ :=
    @coalesce_spec _ _ [] _ _ _ _ hstart hhead (List.isChain_singleton _) hpass
  have hleft : inUse blocks' =
      (inUse (pre ++ b :: post)).filter fun c => c.addr + 24 ≠ ptr.toNat := by
    rw [huse, List.nil_append, ← hlist, inUse_append, inUse_cons_free rfl,
      inUse_filter_ne (by decide) inv.rep.ordered hused, hptr]
    exact List.filter_congr fun c _ => decide_eq_decide.2 (not_congr Nat.add_right_cancel_iff.symm)
  -- the header of the block itself is written, and it is no longer in use
  have hothers : BytesKept (inUse blocks') s.heap.mem mem := by
    rw [← huse] at hkept
    refine BytesKept.trans ?_ hkept
    refine inv.rep.bytesKept (fun a ha => setBlockFree_outside (toNat_sub_header hptr) ha)
      fun d hd => ?_
    rw [hleft] at hd
    obtain ⟨hd, hne⟩ := List.mem_filter.1 hd
    refine ⟨(mem_inUse.1 hd).1, ?_⟩
    rintro rfl
    exact of_decide_eq_true hne hptr.symm
  refine ⟨blocks', ⟨inv.head, hrep', hsep', fun other => ?_⟩, hleft, hothers⟩
  rw [hleft, List.mem_filter, inv.live other]
  simp only [List.mem_filter, decide_eq_true_eq, ne_eq]
  constructor
  · rintro ⟨⟨c, hc, hother⟩, hne⟩
    exact ⟨c, ⟨hc, fun heq => hne (BitVec.eq_of_toNat_eq (hother.trans heq))⟩, hother⟩
  · rintro ⟨c, ⟨hc, hne⟩, hother⟩
    exact ⟨⟨c, hc, hother⟩, fun heq => hne (by rw [← hother, heq])⟩

/-- The blocks that are left. -/
theorem KernelHeapInv.kfree (inv : KernelHeapInv s blocks) {fuel : Nat} {ptr : Word}
    {heap : KernelHeap} (hlive : ptr ∈ s.live) (hrun : Memory.kfree fuel s.heap ptr = some heap) :
    ∃ blocks', KernelHeapInv ⟨heap, s.live.filter (· ≠ ptr)⟩ blocks' ∧
      inUse blocks' = (inUse blocks).filter fun b => b.addr + 24 ≠ ptr.toNat := by
  obtain ⟨blocks', inv', huse, -⟩ := inv.kfree_kept hlive hrun
  exact ⟨blocks', inv', huse⟩

theorem KernelHeapInv.step_kfree (inv : KernelHeapInv s blocks) {fuel : Nat} {ptr : Word}
    (hallowed : ptr = 0#64 ∨ ptr ∈ s.live) (hrun : (HeapCall.kfree ptr).run fuel s = some s') :
    ∃ blocks', KernelHeapInv s' blocks' := by
  obtain ⟨heap, hfree, hrun⟩ := Option.bind_eq_some_iff.1 hrun
  cases hrun
  rcases hallowed with hnull | hlive
  · -- `NULL` is not live, so nothing changes
    rw [Memory.kfree, if_pos hnull] at hfree
    cases hfree
    have hnot : ∀ other ∈ s.live, other ≠ ptr := by
      rintro other hother rfl
      obtain ⟨_, b, _, -, -, hptr⟩ := inv.live_block hother
      rw [hnull, BitVec.toNat_ofNat] at hptr
      omega
    refine ⟨blocks, inv.head, inv.rep, inv.separated, ?_⟩
    rw [List.filter_eq_self.2 (by simpa using hnot)]
    exact inv.live
  · obtain ⟨blocks', inv', -⟩ := inv.kfree hlive hfree
    exact ⟨blocks', inv'⟩

theorem KernelHeapInv.step_write (inv : KernelHeapInv s blocks) {fuel addr : Nat} {byte : BitVec 8}
    (hallowed : (HeapCall.write addr byte).Allowed s)
    (hrun : (HeapCall.write addr byte).run fuel s = some s') :
    ∃ blocks', KernelHeapInv s' blocks' := by
  cases hrun
  obtain ⟨ptr, hlive, hlo, hhi⟩ := hallowed
  obtain ⟨pre, b, post, rfl, -, hptr⟩ := inv.live_block hlive
  rw [inv.rep.header.blockSize_eq (toNat_sub_header hptr)] at hhi
  refine ⟨_, inv.head, inv.rep.payload fun a ha => store_outside ?_, inv.separated, inv.live⟩
  unfold Block.stop at ha
  omega

theorem KernelHeapInv.step (inv : KernelHeapInv s blocks) {call : HeapCall}
    (step : HeapHistoryStep s call s') : ∃ blocks', KernelHeapInv s' blocks' := by
  obtain ⟨hallowed, fuel, hrun⟩ := step
  cases call with
  | kmalloc size => exact inv.step_kmalloc hrun
  | kcalloc n size => exact inv.step_kcalloc hallowed hrun
  | kfree ptr => exact inv.step_kfree hallowed hrun
  | write addr byte => exact inv.step_write hallowed hrun

/-! ### Termination -/

theorem KernelHeapInv.kmalloc_returns (inv : KernelHeapInv s blocks) {fuel : Nat}
    (hfuel : heapHi - heapLo < fuel) (size : Word) :
    ∃ heap ptr, Memory.kmalloc fuel s.heap size = some (heap, ptr) := by
  unfold Memory.kmalloc
  split
  · exact ⟨_, _, rfl⟩
  · obtain ⟨first, rest, hblocks, haddr⟩ := inv.rep.cons
    have hhead : s.heap.heapHead.toNat = firstAddr blocks 0 := by
      rw [inv.head, hblocks]
      exact haddr.symm
    have hlength := inv.rep.ordered.length_le (by decide)
    obtain ⟨⟨mem, ptr⟩, hloop⟩ := @kmallocLoop_returns _ (align8 size) _ _ _ _ _ _ (by decide)
      inv.rep.ordered hhead inv.rep.linked (Nat.lt_of_le_of_lt hlength hfuel)
    rw [hloop]
    exact ⟨_, _, rfl⟩

theorem KernelHeapInv.kfree_returns (inv : KernelHeapInv s blocks) {fuel : Nat}
    (hfuel : heapHi - heapLo < fuel) {ptr : Word} (hallowed : ptr = 0#64 ∨ ptr ∈ s.live) :
    ∃ heap, Memory.kfree fuel s.heap ptr = some heap := by
  by_cases hnull : ptr = 0#64
  · exact ⟨s.heap, if_pos hnull⟩
  · obtain ⟨pre, b, post, rfl, -, hptr⟩ := inv.live_block (hallowed.resolve_left hnull)
    have hrep := inv.rep.setFree (toNat_sub_header hptr) true
    obtain ⟨first, rest, hlist, haddr⟩ := hrep.cons
    rw [if_pos rfl, hlist] at hrep
    have hhead : s.heap.heapHead.toNat = first.addr := by
      rw [inv.head, haddr]
      rfl
    have hlength := hrep.ordered.length_le (by decide)
    rw [List.length_cons] at hlength
    obtain ⟨mem, hpass⟩ := @coalesce_returns fuel _ [] _ _ _ hrep hhead (by omega)
    refine ⟨{ s.heap with mem := mem }, ?_⟩
    rw [Memory.kfree, if_neg hnull]
    exact Option.bind_eq_some_iff.2 ⟨mem, hpass, rfl⟩

/-- Every call returns once it has as many rounds as the heap has bytes. -/
theorem KernelHeapInv.returns (inv : KernelHeapInv s blocks) {call : HeapCall}
    (hallowed : call.Allowed s) {fuel : Nat} (hfuel : heapHi - heapLo < fuel) :
    ∃ s', call.run fuel s = some s' := by
  cases call with
  | kmalloc size =>
      obtain ⟨heap, ptr, hcall⟩ := inv.kmalloc_returns hfuel size
      exact ⟨_, Option.bind_eq_some_iff.2 ⟨_, hcall, rfl⟩⟩
  | kcalloc n size =>
      obtain ⟨heap, ptr, hcall⟩ := inv.kmalloc_returns hfuel (n * size)
      by_cases hnull : ptr = 0#64
      · exact ⟨_, Option.bind_eq_some_iff.2 ⟨(heap, ptr), Option.bind_eq_some_iff.2
          ⟨_, hcall, by simp [hnull]⟩, rfl⟩⟩
      · exact ⟨_, Option.bind_eq_some_iff.2 ⟨_, Option.bind_eq_some_iff.2
          ⟨_, hcall, by simp only [if_neg hnull]; rfl⟩, rfl⟩⟩
  | kfree ptr =>
      obtain ⟨heap, hcall⟩ := inv.kfree_returns hfuel hallowed
      exact ⟨_, Option.bind_eq_some_iff.2 ⟨_, hcall, rfl⟩⟩
  | write addr byte => exact ⟨_, rfl⟩

end Invariant

/-! ### The heap over all histories -/

/-- The shape of the heap: the blocks found from `heap_head` tile it, no two free ones are
    neighbours, and the payloads handed out are apart. -/
structure HeapTiled (s : HeapHistory) (blocks : List Block) : Prop where
  head : s.heap.heapHead.toNat = firstAddr blocks 0
  headers : ∀ b ∈ blocks, ∀ curr : Word, curr.toNat = b.addr →
    (blockSize s.heap.mem curr).toNat = b.size ∧
      blockFree s.heap.mem curr = (if b.free then 1#32 else 0#32) ∧
      (blockNext s.heap.mem curr).toNat = if b.stop 24 = heapHi then 0 else b.stop 24
  tiles : Tiles 24 heapLo heapHi blocks
  sizes : ∀ b ∈ blocks, b.size % 8 = 0
  separated : Separated blocks
  live : LivePointers s.live blocks
  inside : ∀ b ∈ inUse blocks, heapLo ≤ b.addr + 24 ∧ b.addr + 24 + b.size ≤ heapHi
  disjoint : (inUse blocks).Pairwise fun a b => a.addr + 24 + a.size ≤ b.addr + 24

theorem KernelHeapInv.tiled {s : HeapHistory} {blocks : List Block} (inv : KernelHeapInv s blocks) :
    HeapTiled s blocks where
  head := by
    obtain ⟨first, rest, hblocks, haddr⟩ := inv.rep.cons
    rw [inv.head, hblocks]
    exact haddr.symm
  headers b hb curr hcurr := by
    obtain ⟨p, hheader⟩ := inv.rep.linked.next_of_tiles (by decide) inv.rep.tiles hb
    refine ⟨hheader.blockSize_eq hcurr, BitVec.eq_of_toNat_eq ?_, hheader.blockNext_eq hcurr⟩
    rw [toNat_blockFree, hcurr, hheader.free]
    cases b.free <;> rfl
  tiles := inv.rep.tiles
  sizes := inv.rep.sizes
  separated := inv.separated
  live := inv.live
  inside b hb := by
    obtain ⟨hlo, hhi⟩ := inv.rep.bounds (mem_inUse.1 hb).1
    exact ⟨by omega, hhi⟩
  disjoint := by
    refine (inv.rep.ordered.pairwise.filter _).imp fun {a b} hab => ?_
    unfold Block.stop at hab
    omega

/-- Every history leaves a heap. -/
theorem KernelHeapInv.of_history {mem : ByteMem} {calls : List HeapCall} {s : HeapHistory}
    (run : Run HeapHistoryStep ⟨heapInit mem, []⟩ calls s) : ∃ blocks, KernelHeapInv s blocks := by
  refine run.invariant (fun s => ∃ blocks, KernelHeapInv s blocks) (fun s call s' h step => ?_)
    ⟨_, .init mem⟩
  obtain ⟨blocks, inv⟩ := h
  exact inv.step step

/-- After `heap_init` and any history of allocations, frees and stores into live blocks, the heap
    is tiled, and every further call terminates. -/
theorem kernel_heap_invariant (mem : ByteMem) (calls : List HeapCall) (s : HeapHistory)
    (run : Run HeapHistoryStep ⟨heapInit mem, []⟩ calls s) :
    (∃ blocks, HeapTiled s blocks) ∧
      ∀ call : HeapCall, call.Allowed s → ∀ fuel, heapHi - heapLo < fuel →
        ∃ s', call.run fuel s = some s' := by
  obtain ⟨blocks, inv⟩ := KernelHeapInv.of_history run
  exact ⟨⟨blocks, inv.tiled⟩, fun call hallowed fuel hfuel => inv.returns hallowed hfuel⟩

/-! ### A heap in use -/

instance (s : HeapHistory) (call : HeapCall) : Decidable (call.Allowed s) :=
  match call with
  | .kmalloc _ => inferInstanceAs (Decidable True)
  | .kcalloc n size => inferInstanceAs (Decidable (n.toNat * size.toNat ≤ 2 ^ 64 - 8))
  | .kfree ptr => inferInstanceAs (Decidable (ptr = 0#64 ∨ ptr ∈ s.live))
  | .write addr _ => inferInstanceAs (Decidable (∃ ptr ∈ s.live, ptr.toNat ≤ addr ∧
      addr < ptr.toNat + (blockSize s.heap.mem (ptr - blockHeaderSize)).toNat))

/-- A call that callers may make, in a heap of less than 64 blocks. -/
def HeapCall.play (s : HeapHistory) (call : HeapCall) : Option HeapHistory :=
  if call.Allowed s then call.run 64 s else none

theorem HeapCall.play_step {s s' : HeapHistory} {call : HeapCall} (h : call.play s = some s') :
    HeapHistoryStep s call s' := by
  rw [play] at h
  split at h
  · rename_i hallowed
    exact ⟨hallowed, 64, h⟩
  · cases h

/-- Three blocks; the first two are freed and join, and a smaller block is cut from them. -/
def usedCalls : List HeapCall :=
  [.kmalloc 64, .kmalloc 100, .kmalloc 8, .kfree 0xC0000018, .kfree 0xC0000070, .kmalloc 40]

/-- The heap behind these calls. -/
def usedHeap : HeapHistory :=
  (usedCalls.foldlM HeapCall.play ⟨heapInit fun _ => 0#8, []⟩).getD ⟨heapInit fun _ => 0#8, []⟩

theorem usedHeap_run : Run HeapHistoryStep ⟨heapInit fun _ => 0#8, []⟩ usedCalls usedHeap :=
  .of_foldlM (fun _ _ _ => HeapCall.play_step) (eq_some_getD (by decide +kernel) _)

theorem usedHeap_live : usedHeap.live = [0xC0000018#64, 0xC00000F0#64] := by decide +kernel

/-- The invariant applies to it, and a further call returns. -/
theorem kernel_heap_invariant_used_heap :
    (∃ blocks, HeapTiled usedHeap blocks) ∧
      ∃ s', (HeapCall.kfree 0xC00000F0).run (heapHi - heapLo + 1) usedHeap = some s' := by
  obtain ⟨htiled, hreturns⟩ := kernel_heap_invariant _ _ usedHeap usedHeap_run
  have hlive : 0xC00000F0#64 ∈ usedHeap.live := by
    rw [usedHeap_live]
    exact List.mem_cons_of_mem _ List.mem_cons_self
  exact ⟨htiled, hreturns (.kfree 0xC00000F0) (.inr hlive) _ (Nat.lt_succ_self _)⟩

end CustomKernel.Memory
