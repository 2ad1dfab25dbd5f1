/-
Module: CustomKernel.Proofs.UserMalloc
Layer: Proofs
Purpose: What `malloc`, `free`, `realloc` and `calloc` do to the block list. The headers in the
  process's memory represent a list of blocks in address order; each operation replaces a stretch of
  it, appends to it, or leaves it alone. Nothing here says where the memory comes from, so the
  results hold both when the blocks tile the heap and when other calls have moved the break between
  two extensions.
Imports: CustomKernel.User.Malloc, CustomKernel.User.BlockHeap, CustomKernel.Library.Bits
Trusted boundary: none (fully proved)
Main exports: MallocRep, MallocRep.take, MallocRep.free, MallocRep.append_first,
  MallocRep.append_last
-/
import CustomKernel.User.Malloc
import CustomKernel.User.BlockHeap
import CustomKernel.Library.Bits

namespace CustomKernel.User

open ByteMemory BlockList

/-! ### Headers in memory -/

/-- The magic number that goes with the `free` flag. -/
def magicOf (free : Bool) : BitVec 32 := if free then freeMagic else usedMagic

/-- The header of a block between two others, with 0 for no neighbour. -/
structure BlkAt (mem : ByteMem) (prev : Nat) (b : Block) (next : Nat) : Prop where
  size : load mem 8 b.addr = b.size
  magic : load mem 4 (b.addr + 8) = (magicOf b.free).toNat
  free : load mem 4 (b.addr + 12) = b.free.toNat
  next : load mem 8 (b.addr + 16) = next
  prev : load mem 8 (b.addr + 24) = prev

section Header

variable {mem mem' : ByteMem} {prev next : Nat} {b : Block} {p : Word}

theorem toNat_blkSize (mem : ByteMem) (p : Word) : (blkSize mem p).toNat = load mem 8 p.toNat := by
  rw [blkSize, BitVec.toNat_ofNat]
  exact Nat.mod_eq_of_lt (load_lt mem 8 _)

theorem toNat_blkNext (mem : ByteMem) (p : Word) :
    (blkNext mem p).toNat = load mem 8 (p.toNat + 16) := by
  rw [blkNext, BitVec.toNat_ofNat]
  exact Nat.mod_eq_of_lt (load_lt mem 8 _)

theorem toNat_blkPrev (mem : ByteMem) (p : Word) :
    (blkPrev mem p).toNat = load mem 8 (p.toNat + 24) := by
  rw [blkPrev, BitVec.toNat_ofNat]
  exact Nat.mod_eq_of_lt (load_lt mem 8 _)

theorem toNat_blkFree (mem : ByteMem) (p : Word) :
    (blkFree mem p).toNat = load mem 4 (p.toNat + 12) := by
  rw [blkFree, BitVec.toNat_ofNat]
  exact Nat.mod_eq_of_lt (load_lt mem 4 _)

theorem toNat_blkMagic (mem : ByteMem) (p : Word) :
    (blkMagic mem p).toNat = load mem 4 (p.toNat + 8) := by
  rw [blkMagic, BitVec.toNat_ofNat]
  exact Nat.mod_eq_of_lt (load_lt mem 4 _)

theorem BlkAt.congr (h : BlkAt mem prev b next)
    (hsame : ∀ a, b.addr ≤ a → a < b.addr + 32 → mem' a = mem a) : BlkAt mem' prev b next where
  size := (load_congr fun a hlo hhi => hsame a hlo (by omega)).trans h.size
  magic := (load_congr fun a hlo hhi => hsame a (by omega) (by omega)).trans h.magic
  free := (load_congr fun a hlo hhi => hsame a (by omega) (by omega)).trans h.free
  next := (load_congr fun a hlo hhi => hsame a (by omega) (by omega)).trans h.next
  prev := (load_congr fun a hlo hhi => hsame a (by omega) (by omega)).trans h.prev

/-- A header whose `prev` was rewritten. -/
theorem BlkAt.congr_prev {prev' : Nat} (h : BlkAt mem prev b next)
    (hsame : ∀ a, b.addr ≤ a → a < b.addr + 24 → mem' a = mem a)
    (hprev : load mem' 8 (b.addr + 24) = prev') : BlkAt mem' prev' b next where
  size := (load_congr fun a hlo hhi => hsame a hlo (by omega)).trans h.size
  magic := (load_congr fun a hlo hhi => hsame a (by omega) (by omega)).trans h.magic
  free := (load_congr fun a hlo hhi => hsame a (by omega) (by omega)).trans h.free
  next := (load_congr fun a hlo hhi => hsame a (by omega) (by omega)).trans h.next
  prev := hprev

theorem BlkAt.blkFree_ne (h : BlkAt mem prev b next) (hp : p.toNat = b.addr) :
    blkFree mem p ≠ 0#32 ↔ b.free = true := by
  have hnat : (blkFree mem p).toNat = b.free.toNat := by
    rw [toNat_blkFree, hp, h.free]
  rw [Ne, ← BitVec.toNat_inj, hnat]
  cases b.free <;> simp

theorem BlkAt.blkMagic_eq (h : BlkAt mem prev b next) (hp : p.toNat = b.addr) :
    blkMagic mem p = magicOf b.free :=
  BitVec.eq_of_toNat_eq (by rw [toNat_blkMagic, hp, h.magic])

theorem BlkAt.blkNext_eq (h : BlkAt mem prev b next) (hp : p.toNat = b.addr) :
    (blkNext mem p).toNat = next := by
  rw [toNat_blkNext, hp, h.next]

theorem BlkAt.blkPrev_eq (h : BlkAt mem prev b next) (hp : p.toNat = b.addr) :
    (blkPrev mem p).toNat = prev := by
  rw [toNat_blkPrev, hp, h.prev]

theorem BlkAt.blkSize_eq (h : BlkAt mem prev b next) (hp : p.toNat = b.addr) :
    (blkSize mem p).toNat = b.size := by
  rw [toNat_blkSize, hp, h.size]

end Header

/-! ### The block list -/

/-- The headers in memory represent `blocks`, which lie in `[lo, hi)` in address order. -/
structure MallocRep (mem : ByteMem) (heapList : Word) (lo hi : Nat) (blocks : List Block) :
    Prop where
  linked : Linked (BlkAt mem) 0 blocks 0
  ordered : Ordered 32 lo hi blocks
  head : heapList.toNat = firstAddr blocks 0
  pos : 0 < lo
  top : hi < 2 ^ 64

section Rep

variable {mem mem' : ByteMem} {heapList p : Word} {lo hi : Nat}
  {pre seg seg' post blocks : List Block} {b c : Block}

theorem MallocRep.bounds (rep : MallocRep mem heapList lo hi blocks) (hb : b ∈ blocks) :
    lo ≤ b.addr ∧ b.addr + 32 + b.size ≤ hi :=
  rep.ordered.mem hb

/-- The header of a block in the middle of the list. -/
theorem MallocRep.header (rep : MallocRep mem heapList lo hi (pre ++ b :: post)) :
    BlkAt mem (lastAddr 0 pre) b (firstAddr post 0) :=
  (linked_append.1 rep.linked).2.1

/-- Memory that agrees below the end of the heap represents the same list. -/
theorem MallocRep.congr (rep : MallocRep mem heapList lo hi blocks)
    (hsame : ∀ a < hi, mem' a = mem a) : MallocRep mem' heapList lo hi blocks where
  linked := by
    refine rep.linked.imp fun b hb p n h => h.congr fun a _ hhi => hsame a ?_
    have := (rep.bounds hb).2
    omega
  ordered := rep.ordered
  head := rep.head
  pos := rep.pos
  top := rep.top

/-- Work inside a stretch of the list and on the back link of the block after it replaces the
    stretch. -/
theorem MallocRep.replace (rep : MallocRep mem heapList lo hi (pre ++ (seg ++ post)))
    (hfirst : ∀ n, firstAddr seg' n = firstAddr seg n)
    (hord : ∀ lo hi, Ordered 32 lo hi seg → Ordered 32 lo hi seg')
    (hlinked : Linked (BlkAt mem') (lastAddr 0 pre) seg' (firstAddr post 0))
    (hprev : ∀ c rest, post = c :: rest →
      load mem' 8 (c.addr + 24) = lastAddr (lastAddr 0 pre) seg')
    (hsame : ∀ a, (∀ b ∈ seg, a < b.addr ∨ b.stop 32 ≤ a) →
      (∀ c rest, post = c :: rest → a < c.addr + 24 ∨ c.addr + 32 ≤ a) → mem' a = mem a) :
    MallocRep mem' heapList lo hi (pre ++ (seg' ++ post)) := by
  obtain ⟨hpre, hrest⟩ := linked_append.1 rep.linked
  obtain ⟨-, hpost⟩ := linked_append.1 hrest
  obtain ⟨mid, hopre, horest⟩ := ordered_append.1 rep.ordered
  obtain ⟨mid', hoseg, hopost⟩ := ordered_append.1 horest
  have hseg_le : ∀ b ∈ seg, mid ≤ b.addr ∧ b.stop 32 ≤ mid' := fun b hb => hoseg.mem hb
  have hpost_le : ∀ c ∈ post, mid' ≤ c.addr := fun c hc => (hopost.mem hc).1
  have hmid := hoseg.le
  refine ⟨linked_append.2 ⟨?_, linked_append.2 ⟨hlinked, ?_⟩⟩,
    ordered_append.2 ⟨mid, hopre, ordered_append.2 ⟨mid', hord _ _ hoseg, hopost⟩⟩, ?_,
    rep.pos, rep.top⟩
  · rw [firstAddr_append, hfirst, ← firstAddr_append]
    refine hpre.imp fun x hx p n h => h.congr fun a hlo hhi => hsame a (fun b hb => .inl ?_) ?_
    · have := (hopre.mem hx).2
      have := (hseg_le b hb).1
      unfold Block.stop at *
      omega
    · rintro c rest rfl
      have := (hopre.mem hx).2
      have := hpost_le c (List.mem_cons_self ..)
      unfold Block.stop at *
      omega
  · cases post with
    | nil => trivial
    | cons c rest =>
        have hc := hpost_le c (List.mem_cons_self ..)
        have hoff : ∀ a, c.addr ≤ a → ∀ b ∈ seg, a < b.addr ∨ b.stop 32 ≤ a :=
          fun a ha b hb => .inr (by have := (hseg_le b hb).2; omega)
        refine ⟨hpost.1.congr_prev (fun a hlo hhi => hsame a (hoff a hlo) ?_) (hprev c rest rfl), ?_⟩
        · rintro d rest' heq
          cases heq
          omega
        · refine hpost.2.imp fun x hx p n h => h.congr fun a hlo hhi => hsame a (hoff a ?_) ?_
          · have := (hopost.2.mem hx).1
            unfold Block.stop at this
            omega
          · rintro d rest' heq
            cases heq
            have := (hopost.2.mem hx).1
            unfold Block.stop at this
            omega
  · rw [rep.head, firstAddr_append, firstAddr_append, firstAddr_append, firstAddr_append, hfirst]

/-- Stores into a payload leave the list alone. -/
theorem MallocRep.payload (rep : MallocRep mem heapList lo hi blocks) (hb : b ∈ blocks)
    (hsame : ∀ a, a < b.addr + 32 ∨ b.stop 32 ≤ a → mem' a = mem a) :
    MallocRep mem' heapList lo hi blocks where
  linked := by
    obtain ⟨pre, post, rfl⟩ := List.append_of_mem hb
    obtain ⟨mid, hpre, hlo, hpost⟩ := ordered_append.1 rep.ordered
    refine rep.linked.imp fun c hc _ _ h => h.congr fun a hge hlt => hsame a ?_
    -- every header lies before the payload or behind the block
    rcases List.mem_append.1 hc with hmem | hmem
    · have := (hpre.mem hmem).2
      unfold Block.stop at this
      omega
    · rcases List.mem_cons.1 hmem with rfl | hmem
      · exact .inl hlt
      · exact .inr (Nat.le_trans (hpost.mem hmem).1 hge)
  ordered := rep.ordered
  head := rep.head
  pos := rep.pos
  top := rep.top

/-- The block after a block in the list lies behind it. -/
theorem MallocRep.next_ge (rep : MallocRep mem heapList lo hi (pre ++ b :: post)) :
    firstAddr post 0 = 0 ∨ b.addr + 32 + b.size ≤ firstAddr post 0 := by
  obtain ⟨_, -, hrest⟩ := ordered_append.1 rep.ordered
  cases post with
  | nil => exact .inl rfl
  | cons c rest => exact .inr hrest.2.1

end Rep

/-! ### Stores into headers -/

section Stores

variable {mem : ByteMem} {p q v : Word}

theorem setPrevIf_outside {a : Nat} (h : q.toNat = 0 ∨ a < q.toNat + 24 ∨ q.toNat + 32 ≤ a) :
    setPrevIf q v mem a = mem a := by
  unfold setPrevIf
  split
  · rfl
  · rename_i hne
    rcases h with hzero | h
    · exact absurd (BitVec.eq_of_toNat_eq hzero) hne
    · exact store_outside (by omega)

theorem load_setPrevIf_apart {m other : Nat}
    (h : q.toNat = 0 ∨ other + m ≤ q.toNat + 24 ∨ q.toNat + 32 ≤ other) :
    load (setPrevIf q v mem) m other = load mem m other :=
  load_congr fun _ hlo hhi => setPrevIf_outside (by omega)

theorem load_setPrevIf_self (h : q.toNat ≠ 0) :
    load (setPrevIf q v mem) 8 (q.toNat + 24) = v.toNat := by
  rw [setPrevIf, if_neg (fun hzero => h (by rw [hzero]; rfl)), setPrev, load_store_word _ rfl]

/-- Setting the flag of a block and the magic number that goes with it. -/
def mark (p : Word) (free : Bool) (mem : ByteMem) : ByteMem :=
  setMagic p (magicOf free) (setFree p (if free then 1#32 else 0#32) mem)

theorem mark_true : mark p true mem = setMagic p freeMagic (setFree p 1#32 mem) := rfl

theorem mark_outside {free : Bool} {a : Nat} (h : a < p.toNat + 8 ∨ p.toNat + 16 ≤ a) :
    mark p free mem a = mem a := by
  rw [mark, setMagic, setFree, store_outside (by omega), store_outside (by omega)]

end Stores

section Operations

variable {mem mem' : ByteMem} {heapList p size : Word} {lo hi : Nat}
  {pre post blocks : List Block} {b c : Block}

theorem MallocRep.mark (rep : MallocRep mem heapList lo hi (pre ++ b :: post))
    (hp : p.toNat = b.addr) (free : Bool) :
    MallocRep (User.mark p free mem) heapList lo hi (pre ++ { b with free := free } :: post) := by
  have hb := rep.header
  have hkeep : ∀ {m other : Nat}, other + m ≤ b.addr + 8 ∨ b.addr + 16 ≤ other →
      load (User.mark p free mem) m other = load mem m other :=
    fun h => load_congr fun a hlo hhi => mark_outside (by omega)
  refine @MallocRep.replace _ _ _ _ _ _ [b] [{ b with free := free }] _ rep (fun _ => rfl)
    (fun _ _ h => h) ⟨⟨?_, ?_, ?_, ?_, ?_⟩, trivial⟩ ?_ ?_
  · exact (hkeep (by simp only; omega)).trans hb.size
  · simp only [User.mark, setMagic, hp]
    exact load_store_word _ rfl
  · simp only [User.mark, setMagic, setFree, hp]
    rw [load_store_apart (by omega), load_store_word _ rfl]
    cases free <;> rfl
  · exact (hkeep (by simp only; omega)).trans hb.next
  · exact (hkeep (by simp only; omega)).trans hb.prev
  · rintro d rest rfl
    have hd : BlkAt mem b.addr d (firstAddr rest 0) := (linked_append.1 rep.linked).2.2.1
    have := rep.next_ge
    rw [firstAddr_cons] at this
    have hlo := (rep.bounds (b := b) (by simp)).1
    have hdlo := (rep.bounds (b := d) (by simp)).1
    have := rep.pos
    rw [hkeep (by omega), hd.prev]
    rfl
  · intro a ha _
    have := ha b (List.mem_cons_self ..)
    unfold Block.stop at this
    exact mark_outside (by omega)

theorem writeTail_outside (htail : (p + blkSizeof + size).toNat = b.addr + 32 + size.toNat) {a : Nat}
    (ha : a < b.addr + 32 + size.toNat ∨ b.addr + 64 + size.toNat ≤ a) :
    writeTail p size mem a = mem a := by
  simp only [writeTail, setPrev, setNext, User.setFree, setMagic, setSize, htail]
  rw [store_outside (by omega), store_outside (by omega), store_outside (by omega),
    store_outside (by omega), store_outside (by omega)]

/-- The header of the rest of a block that is cut. -/
theorem BlkAt.writeTail {prev next : Nat} (hb : BlkAt mem prev b next) (hp : p.toNat = b.addr)
    (htail : (p + blkSizeof + size).toNat = b.addr + 32 + size.toNat)
    (hroom : size.toNat + 32 ≤ b.size) :
    BlkAt (User.writeTail p size mem) b.addr
      ⟨b.addr + 32 + size.toNat, b.size - size.toNat - 32, true⟩ next := by
  have hsize : (blkSize mem p - size - blkSizeof).toNat = b.size - size.toNat - 32 := by
    have hnat := hb.blkSize_eq hp
    have := (blkSize mem p).isLt
    rw [blkSizeof, BitVec.toNat_sub, BitVec.toNat_sub, BitVec.toNat_ofNat]
    omega
  refine ⟨?_, ?_, ?_, ?_, ?_⟩
  all_goals
    simp only [User.writeTail, setPrev, setNext, User.setFree, setMagic, setSize, htail]
  · rw [load_store_apart (by omega), load_store_apart (by omega), load_store_apart (by omega),
      load_store_apart (by omega), load_store_word _ rfl, hsize]
  · rw [load_store_apart (by omega), load_store_apart (by omega), load_store_apart (by omega),
      load_store_word _ rfl]
    rfl
  · rw [load_store_apart (by omega), load_store_apart (by omega), load_store_word _ rfl]
    rfl
  · -- the pointer to the next block is read while the header is being written
    rw [load_store_apart (by omega), load_store_word _ rfl, toNat_blkNext, hp,
      load_store_apart (by omega), load_store_apart (by omega), load_store_apart (by omega), hb.next]
  · rw [load_store_word _ rfl, hp]

/-- Cutting a block in two. -/
theorem MallocRep.split (rep : MallocRep mem heapList lo hi (pre ++ b :: post))
    (hp : p.toNat = b.addr) (hroom : size.toNat + 32 ≤ b.size) :
    MallocRep (splitBlk p size mem) heapList lo hi (pre ++ ([⟨b.addr, size.toNat, b.free⟩,
      ⟨b.addr + 32 + size.toNat, b.size - size.toNat - 32, true⟩] ++ post)) := by
  have hb := rep.header
  have hnext_ge := rep.next_ge
  obtain ⟨hblo, hbhi⟩ := rep.bounds (b := b) (by simp)
  have hpos := rep.pos
  have htop := rep.top
  have htail : (p + blkSizeof + size).toNat = b.addr + 32 + size.toNat := by
    rw [blkSizeof, BitVec.toNat_add, BitVec.toNat_add, BitVec.toNat_ofNat]
    omega
  have hout : ∀ {a : Nat}, a < b.addr + 32 + size.toNat ∨ b.addr + 64 + size.toNat ≤ a →
      writeTail p size mem a = mem a := writeTail_outside htail
  have hnext : (blkNext (writeTail p size mem) p).toNat = firstAddr post 0 := by
    rw [toNat_blkNext, hp, load_congr fun a _ _ => hout (by omega), hb.next]
  -- the first header, with the stores into it still to come
  have hfirst : BlkAt (writeTail p size mem) (lastAddr 0 pre) b (firstAddr post 0) :=
    hb.congr fun a _ _ => hout (by omega)
  have hsecond := hb.writeTail hp htail hroom
  refine @MallocRep.replace _ _ _ _ _ _ [b] _ _ rep (fun _ => rfl) ?_
    ⟨⟨?_, ?_, ?_, ?_, ?_⟩, hsecond.congr ?_, trivial⟩ ?_ ?_
  · rintro lo hi ⟨hlo, hstop⟩
    refine ⟨hlo, Nat.le_refl _, ?_⟩
    change b.stop 32 ≤ hi at hstop
    show b.addr + 32 + size.toNat + 32 + (b.size - size.toNat - 32) ≤ hi
    unfold Block.stop at hstop
    omega
  · simp only [splitBlk, setSize, hp]
    exact load_store_word size rfl
  · simp only [splitBlk, setSize, setNext, hp]
    rw [load_store_apart (by omega), load_store_apart (by omega), load_setPrevIf_apart (by omega)]
    exact hfirst.magic
  · simp only [splitBlk, setSize, setNext, hp]
    rw [load_store_apart (by omega), load_store_apart (by omega), load_setPrevIf_apart (by omega)]
    exact hfirst.free
  · simp only [splitBlk, setSize, setNext, hp]
    rw [load_store_apart (by omega), load_store_word _ rfl]
    exact htail
  · simp only [splitBlk, setSize, setNext, hp]
    rw [load_store_apart (by omega), load_store_apart (by omega), load_setPrevIf_apart (by omega)]
    exact hfirst.prev
  · intro a hlo hhi
    simp only at hlo hhi
    rw [splitBlk, setSize, setNext, hp, store_outside (by omega), store_outside (by omega),
      setPrevIf_outside (by omega)]
  · rintro d rest rfl
    rw [firstAddr_cons] at hnext hnext_ge
    have hdlo := (rep.bounds (b := d) (by simp)).1
    rw [splitBlk, setSize, setNext, hp, load_store_apart (by omega), load_store_apart (by omega),
      ← hnext, load_setPrevIf_self (by omega), htail]
    rfl
  · intro a ha hrest
    have ha' := ha b (List.mem_cons_self ..)
    unfold Block.stop at ha'
    rw [splitBlk, setSize, setNext, hp, store_outside (by omega), store_outside (by omega),
      setPrevIf_outside ?_, hout (by omega)]
    cases post with
    | nil => exact .inl hnext
    | cons d rest =>
        rw [hnext]
        exact .inr (hrest d rest rfl)

/-- Taking `size` bytes from a block. -/
theorem MallocRep.take (rep : MallocRep mem heapList lo hi (pre ++ b :: post))
    (hp : p.toNat = b.addr) (hfit : size.toNat ≤ b.size) (hsize : size.toNat < 2 ^ 63) :
    MallocRep (takeBlk p size mem) heapList lo hi (pre ++ (cut 32 8 size.toNat b ++ post)) := by
  have hb := rep.header
  have hle : (size + blkSizeof + 8#64 ≤ blkSize mem p) ↔ size.toNat + 32 + 8 ≤ b.size := by
    rw [BitVec.le_def, hb.blkSize_eq hp, blkSizeof, BitVec.toNat_add, BitVec.toNat_add,
      BitVec.toNat_ofNat, BitVec.toNat_ofNat]
    omega
  unfold cut takeBlk
  by_cases hcut : size.toNat + 32 + 8 ≤ b.size
  · rw [if_pos hcut, if_pos (hle.2 hcut)]
    exact MallocRep.mark (b := ⟨b.addr, size.toNat, b.free⟩) (rep.split hp (by omega)) hp false
  · rw [if_neg hcut, if_neg (fun h => hcut (hle.1 h))]
    exact rep.mark hp false

/-- The stores that let a block absorb the one after it in the list. -/
def linkPast (p size next : Word) (mem : ByteMem) : ByteMem :=
  setPrevIf next p (setNext p next (setSize p size mem))

/-- The address lies in no `size`, `next` or `prev` field of a header of the list. -/
def OffLinks (blocks : List Block) (y : Nat) : Prop :=
  ∀ c ∈ blocks, y < c.addr ∨ (c.addr + 8 ≤ y ∧ y < c.addr + 16) ∨ c.addr + 32 ≤ y

/-- `linkPast` writes into such fields only. -/
theorem linkPast_offLinks {next : Word} {y : Nat} (hp : p.toNat = b.addr)
    (hnext : next.toNat = firstAddr post 0) (hy : OffLinks (pre ++ b :: c :: post) y) :
    linkPast p size next mem y = mem y := by
  have hb := hy b (by simp)
  rw [linkPast, setPrevIf_outside ?_, setNext, setSize, hp, store_outside (by omega),
    store_outside (by omega)]
  cases post with
  | nil => exact .inl hnext
  | cons d rest =>
      have hd := hy d (by simp)
      rw [hnext, firstAddr_cons]
      omega

theorem MallocRep.absorb {next : Word}
    (rep : MallocRep mem heapList lo hi (pre ++ b :: c :: post)) (hp : p.toNat = b.addr)
    (hsize : size.toNat = b.size + 32 + c.size) (hnext : next.toNat = firstAddr post 0) :
    MallocRep (linkPast p size next mem) heapList lo hi (pre ++ join 32 b c :: post) := by
  have hb := rep.header
  have hc_ge := rep.next_ge
  rw [firstAddr_cons] at hc_ge
  have hrep' : MallocRep mem heapList lo hi ((pre ++ [b]) ++ c :: post) := by simpa using rep
  have hnext_ge := hrep'.next_ge
  have hblo := (rep.bounds (b := b) (by simp)).1
  have hclo := (rep.bounds (b := c) (by simp)).1
  have hpos := rep.pos
  refine @MallocRep.replace _ _ _ _ _ _ [b, c] [join 32 b c] _ rep (fun _ => rfl)
    (fun _ _ => ordered_join) ⟨⟨?_, ?_, ?_, ?_, ?_⟩, trivial⟩ ?_ ?_
  · simp only [linkPast, setNext, setSize, hp, join]
    rw [load_setPrevIf_apart (by omega), load_store_apart (by omega), load_store_word _ rfl, hsize]
  · simp only [linkPast, setNext, setSize, hp, join]
    rw [load_setPrevIf_apart (by omega), load_store_apart (by omega), load_store_apart (by omega)]
    exact hb.magic
  · simp only [linkPast, setNext, setSize, hp, join]
    rw [load_setPrevIf_apart (by omega), load_store_apart (by omega), load_store_apart (by omega)]
    exact hb.free
  · simp only [linkPast, setNext, setSize, hp, join]
    rw [load_setPrevIf_apart (by omega), load_store_word _ rfl, hnext, firstAddr_nil]
  · simp only [linkPast, setNext, setSize, hp, join]
    rw [load_setPrevIf_apart (by omega), load_store_apart (by omega), load_store_apart (by omega)]
    exact hb.prev
  · rintro d rest rfl
    rw [firstAddr_cons] at hnext hnext_ge
    have hdlo := (rep.bounds (b := d) (by simp)).1
    rw [linkPast, ← hnext, load_setPrevIf_self (by omega), hp]
    rfl
  · intro a ha hrest
    have ha' := ha b (List.mem_cons_self ..)
    unfold Block.stop at ha'
    rw [linkPast, setPrevIf_outside ?_, setNext, setSize, hp, store_outside (by omega),
      store_outside (by omega)]
    cases post with
    | nil => exact .inl hnext
    | cons d rest =>
        rw [hnext]
        exact .inr (hrest d rest rfl)

/-! ### Coalescing -/

theorem MallocRep.coalesceRight (rep : MallocRep mem heapList lo hi (pre ++ b :: post))
    (hp : p.toNat = b.addr) :
    ∃ b' post', RightMerge b post b' post' ∧
      MallocRep (User.coalesceRight p mem) heapList lo hi (pre ++ b' :: post') ∧
      ∀ y, OffLinks (pre ++ b :: post) y → User.coalesceRight p mem y = mem y := by
  have hb := rep.header
  have hnext := hb.blkNext_eq hp
  have hpos := rep.pos
  unfold User.coalesceRight
  cases post with
  | nil =>
      have hnull : blkNext mem p = 0#64 := BitVec.eq_of_toNat_eq hnext
      rw [if_neg (by simp [hnull])]
      exact ⟨b, [], .stay (by simp), rep, fun _ _ => rfl⟩
  | cons c rest =>
      rw [firstAddr_cons] at hnext
      have hc : BlkAt mem b.addr c (firstAddr rest 0) := (linked_append.1 rep.linked).2.2.1
      obtain ⟨hclo, hchi⟩ := rep.bounds (b := c) (by simp)
      have hc_ge := rep.next_ge
      rw [firstAddr_cons] at hc_ge
      have htop := rep.top
      have hne : blkNext mem p ≠ 0#64 := by
        intro hzero
        rw [hzero, BitVec.toNat_ofNat] at hnext
        omega
      by_cases hfree : c.free = true
      · rw [if_pos ⟨hne, (hc.blkFree_ne hnext).2 hfree⟩]
        refine ⟨join 32 b c, rest, .merge hfree, ?_⟩
        have hsize : (blkSize mem p + (blkSizeof + blkSize mem (blkNext mem p))).toNat =
            b.size + 32 + c.size := by
          rw [BitVec.toNat_add, BitVec.toNat_add, hb.blkSize_eq hp, hc.blkSize_eq hnext, blkSizeof,
            BitVec.toNat_ofNat]
          omega
        -- neither store changes a pointer that is read after it
        have hkeep : ∀ v q : Word, q.toNat = b.addr ∨ q.toNat = c.addr →
            blkNext (setSize p v mem) q = blkNext mem q := by
          intro v q hq
          rw [blkNext, blkNext, setSize, load_store_apart (by omega)]
        have hlast : ∀ v (mem' : ByteMem), blkNext (setNext p v mem') p = v := by
          intro v mem'
          apply BitVec.eq_of_toNat_eq
          rw [toNat_blkNext, setNext, load_store_word _ rfl]
        have hmem := rep.absorb hp hsize (hc.blkNext_eq hnext)
        simp only [hkeep _ p (.inl hp), hkeep _ (blkNext mem p) (.inr hnext), hlast]
        exact ⟨hmem, fun y hy => linkPast_offLinks hp (hc.blkNext_eq hnext) hy⟩
      · rw [if_neg (fun h => hfree ((hc.blkFree_ne hnext).1 h.2))]
        exact ⟨b, c :: rest, .stay (by simpa using hfree), rep, fun _ _ => rfl⟩

theorem MallocRep.coalesceLeft (rep : MallocRep mem heapList lo hi (pre ++ b :: post))
    (hp : p.toNat = b.addr) :
    ∃ pre' b', LeftMerge b pre pre' b' ∧
      MallocRep (User.coalesceLeft p mem) heapList lo hi (pre' ++ b' :: post) ∧
      ∀ y, OffLinks (pre ++ b :: post) y → User.coalesceLeft p mem y = mem y := by
  have hb := rep.header
  have hprev := hb.blkPrev_eq hp
  have hpos := rep.pos
  unfold User.coalesceLeft
  rcases List.eq_nil_or_concat pre with rfl | ⟨pre', a, rfl⟩
  · have hnull : blkPrev mem p = 0#64 := BitVec.eq_of_toNat_eq hprev
    rw [if_neg (by simp [hnull])]
    exact ⟨[], b, .stay (by simp), rep, fun _ _ => rfl⟩
  · rw [List.concat_eq_append] at rep hprev ⊢
    rw [lastAddr_append, lastAddr_cons, lastAddr_nil] at hprev
    have hrep : MallocRep mem heapList lo hi (pre' ++ a :: b :: post) := by simpa using rep
    have ha : BlkAt mem (lastAddr 0 pre') a b.addr := hrep.header
    obtain ⟨halo, hahi⟩ := hrep.bounds (b := a) (by simp)
    obtain ⟨hblo, hbhi⟩ := hrep.bounds (b := b) (by simp)
    have hb_ge := hrep.next_ge
    rw [firstAddr_cons] at hb_ge
    have htop := rep.top
    have hne : blkPrev mem p ≠ 0#64 := by
      intro hzero
      rw [hzero, BitVec.toNat_ofNat] at hprev
      omega
    by_cases hfree : a.free = true
    · rw [if_pos ⟨hne, (ha.blkFree_ne hprev).2 hfree⟩]
      refine ⟨pre', join 32 a b, .merge hfree, ?_⟩
      have hsize : (blkSize mem (blkPrev mem p) + (blkSizeof + blkSize mem p)).toNat =
          a.size + 32 + b.size := by
        rw [BitVec.toNat_add, BitVec.toNat_add, ha.blkSize_eq hprev, hb.blkSize_eq hp, blkSizeof,
          BitVec.toNat_ofNat]
        omega
      -- the stores go to the header before, the reads to this one
      have hkeep : ∀ (mem' : ByteMem), (∀ x, b.addr ≤ x → x < b.addr + 32 → mem' x = mem x) →
          blkPrev mem' p = blkPrev mem p ∧ blkNext mem' p = blkNext mem p := by
        intro mem' hsame
        refine ⟨?_, ?_⟩
        · rw [blkPrev, blkPrev, hp, load_congr fun x _ _ => hsame x (by omega) (by omega)]
        · rw [blkNext, blkNext, hp, load_congr fun x _ _ => hsame x (by omega) (by omega)]
      have hkeep₁ := hkeep (setSize (blkPrev mem p)
        (blkSize mem (blkPrev mem p) + (blkSizeof + blkSize mem p)) mem)
        (fun x hlo hhi => by rw [setSize, hprev, store_outside (by omega)])
      have hkeep₂ := hkeep (setNext (blkPrev mem p) (blkNext mem p)
        (setSize (blkPrev mem p) (blkSize mem (blkPrev mem p) + (blkSizeof + blkSize mem p)) mem))
        (fun x hlo hhi => by
          rw [setNext, setSize, hprev, store_outside (by omega), store_outside (by omega)])
      have hmem := hrep.absorb hprev hsize (hb.blkNext_eq hp)
      simp only [hkeep₁.1, hkeep₁.2, hkeep₂.1, hkeep₂.2]
      refine ⟨hmem, fun y hy => ?_⟩
      rw [List.append_assoc] at hy
      exact linkPast_offLinks hprev (hb.blkNext_eq hp) hy
    · rw [if_neg (fun h => hfree ((ha.blkFree_ne hprev).1 h.2))]
      exact ⟨pre' ++ [a], b, .stay (by simpa using hfree), rep, fun _ _ => rfl⟩

/-- A pointer to the payload of a block. -/
theorem toNat_sub_sizeof {ptr : Word} {addr : Nat} (hptr : ptr.toNat = addr + 32) :
    (ptr - blkSizeof).toNat = addr := by
  have := ptr.isLt
  rw [blkSizeof, BitVec.toNat_sub, BitVec.toNat_ofNat]
  omega

/-- Merging to the right adds no header to the list. -/
theorem RightMerge.offLinks {b' : Block} {post' : List Block} {y : Nat}
    (h : RightMerge b post b' post') (hy : OffLinks (pre ++ b :: post) y) :
    OffLinks (pre ++ b' :: post') y := by
  cases h with
  | stay => exact hy
  | merge hc =>
      simp only [OffLinks, List.forall_mem_append, List.forall_mem_cons] at hy ⊢
      exact ⟨hy.1, hy.2.1, hy.2.2.2⟩

/-- `free` of a block in use: apart from the links of the list, its flag and magic number change. -/
theorem MallocRep.free {κ : Type} {h : UserHeap κ} {ptr : Word}
    (rep : MallocRep h.mem h.heapList lo hi (pre ++ b :: post)) (hused : b.free = false)
    (hptr : ptr.toNat = b.addr + 32) :
    ∃ b₁ post' pre' b₂, RightMerge { b with free := true } post b₁ post' ∧
      LeftMerge b₁ pre pre' b₂ ∧ (User.free h ptr).kernel = h.kernel ∧
      MallocRep (User.free h ptr).mem (User.free h ptr).heapList lo hi (pre' ++ b₂ :: post') ∧
      ∀ y, OffLinks (pre ++ b :: post) y →
        (User.free h ptr).mem y = User.mark (ptr - blkSizeof) true h.mem y := by
  have hne : ptr ≠ 0#64 := by
    intro hzero
    have hnat : ptr.toNat = 0 := by rw [hzero]; rfl
    omega
  have hp := toNat_sub_sizeof hptr
  have hmagic : ¬ blkMagic h.mem (ptr - blkSizeof) ≠ usedMagic := by
    rw [rep.header.blkMagic_eq hp, hused]
    exact fun h => h rfl
  obtain ⟨b₁, post', hright, rep₁, hsame₁⟩ := (rep.mark hp true).coalesceRight hp
  obtain ⟨pre', b₂, hleft, rep₂, hsame₂⟩ := rep₁.coalesceLeft (hp.trans hright.addr.symm)
  have hmem : (User.free h ptr).mem = User.coalesceLeft (ptr - blkSizeof)
      (User.coalesceRight (ptr - blkSizeof) (User.mark (ptr - blkSizeof) true h.mem)) := by
    simp only [User.free, if_neg hne, if_neg hmagic, mark_true]
  have hrest : (User.free h ptr).kernel = h.kernel ∧ (User.free h ptr).heapList = h.heapList := by
    simp only [User.free, if_neg hne, if_neg hmagic, and_self]
  refine ⟨b₁, post', pre', b₂, hright, hleft, hrest.1, ?_, fun y hy => ?_⟩
  · rw [hmem, hrest.2]
    exact rep₂
  · have hy' : OffLinks (pre ++ { b with free := true } :: post) y := by
      simp only [OffLinks, List.forall_mem_append, List.forall_mem_cons] at hy ⊢
      exact hy
    rw [hmem, hsame₂ y (hright.offLinks hy'), hsame₁ y hy']

/-! ### The search loop -/

theorem pointer_eq_zero {q : Word} {rest : List Block} (hlo : 0 < lo) (hord : Ordered 32 lo hi rest)
    (hq : q.toNat = firstAddr rest 0) : q = 0#64 ↔ rest = [] := by
  rw [← BitVec.toNat_inj, hq]
  cases rest with
  | nil => simp
  | cons b rest =>
      have := hord.1
      simp only [firstAddr_cons, BitVec.toNat_ofNat, reduceCtorEq, iff_false]
      omega

/-- The search reaches the end of the list, or takes from a free block that is large enough. -/
theorem mallocLoop_spec : ∀ {fuel prev lo hi : Nat} {q pr : Word} {rest : List Block} {r : Search},
    0 < lo → Ordered 32 lo hi rest → q.toNat = firstAddr rest 0 → pr.toNat = prev →
    Linked (BlkAt mem) prev rest 0 → mallocLoop size mem fuel q pr = some r →
    (∃ last, r = .exhausted last ∧ last.toNat = lastAddr prev rest) ∨
      ∃ mid c post, rest = mid ++ c :: post ∧ c.free = true ∧ size.toNat ≤ c.size ∧
        ∃ p : Word, p.toNat = c.addr ∧ r = .found (takeBlk p size mem) (p + blkSizeof)
  | 0, _, _, _, _, _, _, _, _, _, _, _, _, hrun => by cases hrun
  | fuel + 1, prev, lo, hi, q, pr, rest, r, hlo, hord, hq, hpr, hlinked, hrun => by
      have hnull := pointer_eq_zero hlo hord hq
      rw [mallocLoop] at hrun
      cases rest with
      | nil =>
          rw [if_pos (hnull.2 rfl)] at hrun
          cases hrun
          exact .inl ⟨pr, rfl, hpr⟩
      | cons c rest =>
          rw [if_neg (fun h => by cases hnull.1 h)] at hrun
          have hheader := hlinked.1
          by_cases hfit : blkFree mem q ≠ 0#32 ∧ size ≤ blkSize mem q
          · rw [if_pos hfit] at hrun
            cases hrun
            refine .inr ⟨[], c, rest, rfl, (hheader.blkFree_ne hq).1 hfit.1, ?_, q, hq, rfl⟩
            rw [← hheader.blkSize_eq hq]
            exact hfit.2
          · rw [if_neg hfit] at hrun
            have hstop : 0 < c.stop 32 := by
              unfold Block.stop
              omega
            rcases mallocLoop_spec hstop hord.2 (hheader.blkNext_eq hq) hq hlinked.2 hrun with
              ⟨last, hlast⟩ | ⟨mid, d, post, hrest, hd⟩
            · exact .inl ⟨last, hlast⟩
            · exact .inr ⟨c :: mid, d, post, by rw [hrest]; rfl, hd⟩

theorem mallocLoop_returns : ∀ {fuel prev lo hi : Nat} {q pr : Word} {rest : List Block},
    0 < lo → Ordered 32 lo hi rest → q.toNat = firstAddr rest 0 →
    Linked (BlkAt mem) prev rest 0 → rest.length < fuel →
    ∃ r, mallocLoop size mem fuel q pr = some r
  | 0, _, _, _, _, _, _, _, _, _, _, hfuel => by cases hfuel
  | fuel + 1, prev, lo, hi, q, pr, rest, hlo, hord, hq, hlinked, hfuel => by
      rw [mallocLoop]
      split
      · exact ⟨_, rfl⟩
      · split
        · exact ⟨_, rfl⟩
        · rename_i hne _
          cases rest with
          | nil => exact absurd ((pointer_eq_zero hlo hord hq).2 rfl) hne
          | cons c rest =>
              have hstop : 0 < c.stop 32 := by
                unfold Block.stop
                omega
              exact mallocLoop_returns hstop hord.2 (hlinked.1.blkNext_eq hq) hlinked.2
                (Nat.lt_of_succ_lt_succ hfuel)

/-! ### Appending a block -/

/-- The stores of `blk_extend` and those that put the new block in use. -/
def writeBlk (nb bytes : Word) (mem : ByteMem) : ByteMem :=
  User.mark nb false (setNext nb 0#64 (setPrev nb 0#64 (setFree nb 1#32 (setMagic nb freeMagic
    (setSize nb bytes mem)))))

theorem writeBlk_outside {nb : Word} {a : Nat} (ha : a < nb.toNat ∨ nb.toNat + 32 ≤ a) :
    writeBlk nb size mem a = mem a := by
  rw [writeBlk, mark_outside (by omega), setNext, setPrev, User.setFree, setMagic, setSize,
    store_outside (by omega), store_outside (by omega), store_outside (by omega),
    store_outside (by omega), store_outside (by omega)]

theorem writeBlk_header {nb : Word} :
    BlkAt (writeBlk nb size mem) 0 ⟨nb.toNat, size.toNat, false⟩ 0 := by
  refine ⟨?_, ?_, ?_, ?_, ?_⟩
  all_goals
    simp only [writeBlk, User.mark, setNext, setPrev, User.setFree, setMagic, setSize]
  · rw [load_store_apart (by omega), load_store_apart (by omega), load_store_apart (by omega),
      load_store_apart (by omega), load_store_apart (by omega), load_store_apart (by omega),
      load_store_word _ rfl]
  · exact load_store_word _ rfl
  · rw [load_store_apart (by omega), load_store_word _ rfl]
    rfl
  · rw [load_store_apart (by omega), load_store_apart (by omega), load_store_word _ rfl]
    rfl
  · rw [load_store_apart (by omega), load_store_apart (by omega), load_store_apart (by omega),
      load_store_word _ rfl]
    rfl

/-- A new block at the end of the heap becomes the first of the list. -/
theorem MallocRep.append_first {nb : Word} (rep : MallocRep mem heapList lo hi [])
    (hnb : nb.toNat = hi) (htop : hi + 32 + size.toNat < 2 ^ 64) :
    MallocRep (writeBlk nb size mem) nb lo (hi + 32 + size.toNat) [⟨hi, size.toNat, false⟩] where
  linked := ⟨hnb ▸ writeBlk_header, trivial⟩
  ordered := ⟨rep.ordered, Nat.le_refl _⟩
  head := hnb
  pos := rep.pos
  top := htop

/-- A new block at the end of the heap is linked behind the last one. -/
theorem MallocRep.append_last {nb last : Word} {l : Block} {front : List Block}
    (rep : MallocRep mem heapList lo hi (front ++ [l])) (hnb : nb.toNat = hi)
    (hlast : last.toNat = l.addr) (htop : hi + 32 + size.toNat < 2 ^ 64) :
    MallocRep (setNext last nb (setPrev nb last (writeBlk nb size mem))) heapList lo
      (hi + 32 + size.toNat) (front ++ ([l] ++ [⟨hi, size.toNat, false⟩])) := by
  have hl := rep.header
  obtain ⟨hllo, hlhi⟩ := rep.bounds (b := l) (by simp)
  have hsame : ∀ a, (a < l.addr + 16 ∨ l.addr + 24 ≤ a) → a < hi →
      setNext last nb (setPrev nb last (writeBlk nb size mem)) a = mem a := by
    intro a ha hahi
    rw [setNext, setPrev, hlast, hnb, store_outside (by omega), store_outside (by omega),
      writeBlk_outside (by omega)]
  have hnew := @writeBlk_header mem size nb
  obtain ⟨hfront, -⟩ := linked_append.1 rep.linked
  obtain ⟨mid, hofront, hol⟩ := ordered_append.1 rep.ordered
  refine ⟨linked_append.2 ⟨?_, ⟨?_, ?_, ?_, ?_, ?_⟩, ⟨?_, ?_, ?_, ?_, ?_⟩, trivial⟩,
    ordered_append.2 ⟨mid, hofront, hol.1, hol.2, Nat.le_refl _⟩, ?_, rep.pos, htop⟩
  · refine hfront.imp fun x hx _ _ h => h.congr fun a _ hhi => hsame a (.inl ?_) ?_
    all_goals
      have := (hofront.mem hx).2
      have := hol.1
      unfold Block.stop at *
      omega
  · exact (load_congr fun a _ _ => hsame a (by omega) (by omega)).trans hl.size
  · exact (load_congr fun a _ _ => hsame a (by omega) (by omega)).trans hl.magic
  · exact (load_congr fun a _ _ => hsame a (by omega) (by omega)).trans hl.free
  · rw [setNext, hlast, load_store_word _ rfl, hnb]
    rfl
  · exact (load_congr fun a _ _ => hsame a (by omega) (by omega)).trans hl.prev
  · rw [setNext, setPrev, hlast, hnb, load_store_apart (by simp only; omega),
      load_store_apart (by simp only; omega), ← hnb]
    exact hnew.size
  · rw [setNext, setPrev, hlast, hnb, load_store_apart (by simp only; omega),
      load_store_apart (by simp only; omega), ← hnb]
    exact hnew.magic
  · rw [setNext, setPrev, hlast, hnb, load_store_apart (by simp only; omega),
      load_store_apart (by simp only; omega), ← hnb]
    exact hnew.free
  · rw [setNext, setPrev, hlast, hnb, load_store_apart (by simp only; omega),
      load_store_apart (by simp only; omega), ← hnb]
    exact hnew.next
  · rw [setNext, setPrev, hlast, hnb, load_store_apart (by simp only; omega)]
    exact load_store (by omega)
  · rw [rep.head, firstAddr_append, firstAddr_append]
    rfl

end Operations

end CustomKernel.User
