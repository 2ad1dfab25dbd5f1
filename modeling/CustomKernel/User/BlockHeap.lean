/-
Module: CustomKernel.User.BlockHeap
Layer: User
Purpose: What the user allocator is for, without memory: a list of blocks below a break, from which
  blocks are taken, to which blocks are appended at the break, and in which a released block joins
  its free neighbours. The invariants of the allocator are proved here, once for every step; the
  code is related to this machine step by step.
Imports: CustomKernel.Library.BlockList
Trusted boundary: none (fully proved)
Main exports: BlockHeap, BlockStep, BlockStep.tiles, BlockStep.separated, BlockStep.covered,
  BlockStep.live
-/
import CustomKernel.Library.BlockList

namespace CustomKernel.User

open BlockList

/-! ### Joining free neighbours -/

/-- The two ways in which a free block meets the list behind it: it joins a free neighbour, or
    stays. -/
inductive RightMerge (b : Block) : (post : List Block) → (b' : Block) → (post' : List Block) → Prop
  | stay {post : List Block} (h : ∀ c ∈ post.head?, c.free = false) : RightMerge b post b post
  | merge {c : Block} {rest : List Block} (h : c.free = true) :
      RightMerge b (c :: rest) (join 32 b c) rest

/-- The same for the list before it. -/
inductive LeftMerge (b : Block) : (pre pre' : List Block) → (b' : Block) → Prop
  | stay {pre : List Block} (h : ∀ a ∈ pre.getLast?, a.free = false) : LeftMerge b pre pre b
  | merge {pre : List Block} {a : Block} (h : a.free = true) :
      LeftMerge b (pre ++ [a]) pre (join 32 a b)

section Merge

variable {b b' : Block} {pre pre' post post' : List Block} {lo hi : Nat}

theorem RightMerge.addr (h : RightMerge b post b' post') : b'.addr = b.addr := by
  cases h <;> rfl

theorem RightMerge.free (h : RightMerge b post b' post') : b'.free = b.free := by
  cases h <;> rfl

theorem LeftMerge.free (h : LeftMerge b pre pre' b') (hb : b.free = true) : b'.free = true := by
  cases h with
  | stay => exact hb
  | merge ha => exact ha

/-- Joining two neighbours in a tiling. -/
theorem tiles_join_mid {a c : Block} (ht : Tiles 32 lo hi (pre ++ a :: c :: post)) :
    Tiles 32 lo hi (pre ++ join 32 a c :: post) := by
  obtain ⟨mid, hpre, hrest⟩ := tiles_append.1 ht
  obtain ⟨mid', hpair, hpost⟩ := (@tiles_append _ _ _ [a, c] _).1 hrest
  exact tiles_append.2 ⟨mid, hpre, (@tiles_append _ _ _ [join 32 a c] _).2
    ⟨mid', tiles_join hpair, hpost⟩⟩

theorem RightMerge.tiles (h : RightMerge b post b' post') (ht : Tiles 32 lo hi (pre ++ b :: post)) :
    Tiles 32 lo hi (pre ++ b' :: post') := by
  cases h with
  | stay => exact ht
  | merge hc => exact tiles_join_mid ht

theorem LeftMerge.tiles (h : LeftMerge b pre pre' b') (ht : Tiles 32 lo hi (pre ++ b :: post)) :
    Tiles 32 lo hi (pre' ++ b' :: post) := by
  cases h with
  | stay => exact ht
  | merge ha =>
      rw [List.append_assoc] at ht
      exact tiles_join_mid ht

/-- Joining two neighbours keeps the list in order. -/
theorem ordered_join_mid {a c : Block} (ho : Ordered 32 lo hi (pre ++ a :: c :: post)) :
    Ordered 32 lo hi (pre ++ join 32 a c :: post) := by
  obtain ⟨mid, hpre, hrest⟩ := ordered_append.1 ho
  obtain ⟨mid', hpair, hpost⟩ := (@ordered_append _ _ _ [a, c] _).1 hrest
  exact ordered_append.2 ⟨mid, hpre, (@ordered_append _ _ _ [join 32 a c] _).2
    ⟨mid', ordered_join hpair, hpost⟩⟩

theorem RightMerge.ordered (h : RightMerge b post b' post')
    (ho : Ordered 32 lo hi (pre ++ b :: post)) : Ordered 32 lo hi (pre ++ b' :: post') := by
  cases h with
  | stay => exact ho
  | merge hc => exact ordered_join_mid ho

theorem LeftMerge.ordered (h : LeftMerge b pre pre' b') (ho : Ordered 32 lo hi (pre ++ b :: post)) :
    Ordered 32 lo hi (pre' ++ b' :: post) := by
  cases h with
  | stay => exact ho
  | merge ha =>
      rw [List.append_assoc] at ho
      exact ordered_join_mid ho

/-- After a merge the block behind, if there is one, is in use. -/
theorem RightMerge.separated (h : RightMerge b post b' post') (hs : Separated post) :
    Separated post' ∧ ∀ c ∈ post'.head?, c.free = false := by
  cases h with
  | stay hhead => exact ⟨hs, hhead⟩
  | merge hc =>
      obtain ⟨hhead, hrest⟩ := List.isChain_cons.1 hs
      refine ⟨hrest, fun d hd => ?_⟩
      have := hhead d hd
      simpa [hc] using this

theorem LeftMerge.separated (h : LeftMerge b pre pre' b') (hs : Separated pre) :
    Separated pre' ∧ ∀ a ∈ pre'.getLast?, a.free = false := by
  cases h with
  | stay hlast => exact ⟨hs, hlast⟩
  | merge ha =>
      obtain ⟨hpre, -, hseam⟩ := List.isChain_append.1 hs
      refine ⟨hpre, fun d hd => ?_⟩
      have := hseam d hd _ rfl
      simpa [ha] using this

theorem RightMerge.inUse (h : RightMerge b post b' post') :
    BlockList.inUse post' = BlockList.inUse post := by
  cases h with
  | stay => rfl
  | merge hc => rw [inUse_cons_free hc]

theorem LeftMerge.inUse (h : LeftMerge b pre pre' b') :
    BlockList.inUse pre' = BlockList.inUse pre := by
  cases h with
  | stay => rfl
  | merge ha =>
      rw [inUse_append, inUse_cons_free ha]
      exact (List.append_nil _).symm

end Merge

/-! ### The machine -/

/-- The blocks below a break, with the regions by which it was moved. -/
structure BlockHeap where
  blocks : List Block
  top : Nat
  owned : List (Nat × Nat)

/-- A step, with the address of the block it puts in use or releases. -/
inductive BlockEvent where
  | allocate (addr : Nat)
  | release (addr : Nat)
deriving DecidableEq, Repr

/-- The steps of the allocator: take from a free block, append a block at the break, release. -/
inductive BlockStep : BlockHeap → BlockEvent → BlockHeap → Prop
  | take {pre post : List Block} {b : Block} {size top : Nat} {owned : List (Nat × Nat)}
      (hfree : b.free = true) (hfit : size ≤ b.size) :
      BlockStep ⟨pre ++ b :: post, top, owned⟩ (.allocate b.addr)
        ⟨pre ++ (cut 32 8 size b ++ post), top, owned⟩
  | append {blocks : List Block} {size top : Nat} {owned : List (Nat × Nat)} :
      BlockStep ⟨blocks, top, owned⟩ (.allocate top)
        ⟨blocks ++ [⟨top, size, false⟩], top + 32 + size, (top, top + 32 + size) :: owned⟩
  | release {pre post pre' post' : List Block} {b b₁ b₂ : Block} {top : Nat}
      {owned : List (Nat × Nat)} (hused : b.free = false)
      (hright : RightMerge { b with free := true } post b₁ post')
      (hleft : LeftMerge b₁ pre pre' b₂) :
      BlockStep ⟨pre ++ b :: post, top, owned⟩ (.release b.addr) ⟨pre' ++ b₂ :: post', top, owned⟩

section Invariants

variable {s s' : BlockHeap} {event : BlockEvent} {lo : Nat}

theorem BlockStep.tiles (step : BlockStep s event s') (h : Tiles 32 lo s.top s.blocks) :
    Tiles 32 lo s'.top s'.blocks := by
  cases step with
  | take hfree hfit =>
      rename_i pre post b size top owned
      obtain ⟨mid, hpre, hrest⟩ := tiles_append.1 h
      obtain ⟨mid', hb, hpost⟩ := (@tiles_append _ _ _ [b] _).1 hrest
      exact tiles_append.2 ⟨mid, hpre, tiles_append.2 ⟨mid', tiles_cut hb, hpost⟩⟩
  | append => exact tiles_append.2 ⟨_, h, rfl, rfl⟩
  | release hused hright hleft =>
      rename_i pre post pre' post' b b₁ b₂ top owned
      have hmarked : Tiles 32 lo top (pre ++ { b with free := true } :: post) := by
        obtain ⟨mid, hpre, hfirst, hrest⟩ := tiles_append.1 h
        exact tiles_append.2 ⟨mid, hpre, hfirst, hrest⟩
      exact hleft.tiles (hright.tiles hmarked)

/-- Steps keep the blocks in order, whether or not they touch. -/
theorem BlockStep.ordered (step : BlockStep s event s') (h : Ordered 32 lo s.top s.blocks) :
    Ordered 32 lo s'.top s'.blocks := by
  cases step with
  | take hfree hfit =>
      rename_i pre post b size top owned
      obtain ⟨mid, hpre, hrest⟩ := ordered_append.1 h
      obtain ⟨mid', hb, hpost⟩ := (@ordered_append _ _ _ [b] _).1 hrest
      exact ordered_append.2 ⟨mid, hpre, ordered_append.2 ⟨mid', ordered_cut hb, hpost⟩⟩
  | append => exact ordered_append.2 ⟨_, h, Nat.le_refl _, Nat.le_refl _⟩
  | release hused hright hleft =>
      rename_i pre post pre' post' b b₁ b₂ top owned
      have hmarked : Ordered 32 lo top (pre ++ { b with free := true } :: post) := by
        obtain ⟨mid, hpre, hfirst, hrest⟩ := ordered_append.1 h
        exact ordered_append.2 ⟨mid, hpre, hfirst, hrest⟩
      exact hleft.ordered (hright.ordered hmarked)

theorem BlockStep.separated (step : BlockStep s event s') (h : Separated s.blocks) :
    Separated s'.blocks := by
  cases step with
  | take hfree hfit => exact separated_cut hfree h
  | append => exact (@separated_used _ _ [] rfl).2 ⟨h, List.isChain_nil⟩
  | release hused hright hleft =>
      obtain ⟨hpre, hpost⟩ := (separated_used hused).1 h
      obtain ⟨hpost', hhead⟩ := hright.separated hpost
      obtain ⟨hpre', hlast⟩ := hleft.separated hpre
      refine List.isChain_append.2 ⟨hpre', List.isChain_cons.2 ⟨fun c hc => ?_, hpost'⟩,
        fun a ha c hc => ?_⟩
      · simp [hhead c hc]
      · simp [hlast a ha]

/-- The addresses of the blocks in use. -/
def BlockHeap.Live (s : BlockHeap) (addr : Nat) : Prop := ∃ b ∈ inUse s.blocks, b.addr = addr

/-- A step puts one block in use or releases one. -/
theorem BlockStep.live (step : BlockStep s event s') {hi : Nat} (hord : Ordered 32 lo hi s.blocks)
    (addr : Nat) :
    s'.Live addr ↔ match event with
      | .allocate a => s.Live addr ∨ addr = a
      | .release a => s.Live addr ∧ addr ≠ a := by
  cases step with
  | take hfree hfit =>
      simp only [BlockHeap.Live, mem_inUse_cut hfree]
      constructor
      · rintro ⟨c, hc | rfl, haddr⟩
        · exact .inl ⟨c, hc, haddr⟩
        · exact .inr haddr.symm
      · rintro (⟨c, hc, haddr⟩ | haddr)
        · exact ⟨c, .inl hc, haddr⟩
        · exact ⟨_, .inr rfl, haddr.symm⟩
  | append =>
      simp only [BlockHeap.Live, inUse_append, List.mem_append]
      constructor
      · rintro ⟨c, hc | hc, haddr⟩
        · exact .inl ⟨c, hc, haddr⟩
        · obtain ⟨hmem, -⟩ := mem_inUse.1 hc
          rw [List.mem_singleton.1 hmem] at haddr
          exact .inr haddr.symm
      · rintro (⟨c, hc, haddr⟩ | haddr)
        · exact ⟨c, .inl hc, haddr⟩
        · exact ⟨_, .inr (mem_inUse.2 ⟨List.mem_singleton_self _, rfl⟩), haddr.symm⟩
  | release hused hright hleft =>
      rename_i pre post pre' post' b b₁ b₂ top owned
      have hfree : b₂.free = true := hleft.free (hright.free.trans rfl)
      simp only [BlockHeap.Live, inUse_append, inUse_cons_free hfree, inUse_cons_used hused,
        hleft.inUse, hright.inUse, List.mem_append, List.mem_cons]
      constructor
      · rintro ⟨c, hc, haddr⟩
        refine ⟨⟨c, hc.imp_right .inr, haddr⟩, ?_⟩
        rintro rfl
        have hmem : c ∈ pre ∨ c ∈ post := hc.imp (fun h => (mem_inUse.1 h).1)
          (fun h => (mem_inUse.1 h).1)
        exact hord.addr_ne (by decide) hmem haddr
      · rintro ⟨⟨c, hc, haddr⟩, hne⟩
        rcases hc with hc | rfl | hc
        · exact ⟨c, .inl hc, haddr⟩
        · exact absurd haddr.symm hne
        · exact ⟨c, .inr hc, haddr⟩

/-- Putting a block in use leaves those in use as they are. -/
theorem BlockStep.keeps {a : Nat} (step : BlockStep s (.allocate a) s') {c : Block}
    (hc : c ∈ inUse s.blocks) : c ∈ inUse s'.blocks := by
  generalize hevent : BlockEvent.allocate a = event at step
  cases step with
  | take hfree hfit => exact (mem_inUse_cut hfree).2 (.inl hc)
  | append =>
      rw [inUse_append]
      exact List.mem_append_left _ hc
  | release => cases hevent

/-- The block that is put in use was not in use. -/
theorem BlockStep.allocate_ne {a addr : Nat} (step : BlockStep s (.allocate a) s')
    (hord : Ordered 32 lo s.top s.blocks) (hlive : s.Live addr) : a ≠ addr := by
  obtain ⟨c, hc, rfl⟩ := hlive
  obtain ⟨hmem, hused⟩ := mem_inUse.1 hc
  generalize hevent : BlockEvent.allocate a = event at step
  cases step with
  | take hfree hfit =>
      cases hevent
      rcases List.mem_append.1 hmem with hpre | hrest
      · exact (hord.addr_ne (by decide) (.inl hpre)).symm
      · rcases List.mem_cons.1 hrest with rfl | hpost
        · rw [hused] at hfree
          cases hfree
        · exact (hord.addr_ne (by decide) (.inr hpost)).symm
  | append =>
      cases hevent
      have := (hord.mem hmem).2
      unfold Block.stop at this
      dsimp only at this
      omega
  | release => cases hevent

/-! ### Where the blocks lie -/

/-- Every byte of the block lies in one of the regions. -/
def Covered (owned : List (Nat × Nat)) (b : Block) : Prop :=
  ∀ x, b.addr ≤ x → x < b.stop 32 → ∃ r ∈ owned, r.1 ≤ x ∧ x < r.2

/-- Free neighbours of the block at `addr` touch it. -/
def TouchesFree (addr : Nat) (blocks : List Block) : Prop :=
  blocks.IsChain fun a b =>
    (a.addr = addr ∧ b.free = true) ∨ (b.addr = addr ∧ a.free = true) → a.stop 32 = b.addr

theorem covered_join {owned : List (Nat × Nat)} {b c : Block} (hb : Covered owned b)
    (hc : Covered owned c) (htouch : b.stop 32 = c.addr) : Covered owned (join 32 b c) := by
  intro x hlo hhi
  change b.addr ≤ x at hlo
  change x < b.addr + 32 + (b.size + 32 + c.size) at hhi
  by_cases hx : x < b.stop 32
  · exact hb x hlo hx
  · refine hc x (by omega) ?_
    unfold Block.stop at htouch ⊢
    omega

/-- Taking and appending keep all blocks in the regions, and so does releasing a block that touches
    its free neighbours. -/
theorem BlockStep.covered (step : BlockStep s event s')
    (htouch : ∀ addr, event = .release addr → TouchesFree addr s.blocks)
    (h : ∀ b ∈ s.blocks, Covered s.owned b) : ∀ b ∈ s'.blocks, Covered s'.owned b := by
  cases step with
  | take hfree hfit =>
      rename_i pre post b size top owned
      intro c hc x hlo hhi
      simp only [List.mem_append] at hc
      rcases hc with hc | hc | hc
      · exact h c (List.mem_append_left _ hc) x hlo hhi
      · obtain ⟨hge, hle⟩ := mem_cut hfit hc
        exact h b (by simp) x (by omega) (by omega)
      · exact h c (by simp [hc]) x hlo hhi
  | append =>
      intro c hc x hlo hhi
      rcases List.mem_append.1 hc with hc | hc
      · obtain ⟨r, hr, hrx⟩ := h c hc x hlo hhi
        exact ⟨r, List.mem_cons_of_mem _ hr, hrx⟩
      · rw [List.mem_singleton.1 hc] at hlo hhi
        exact ⟨_, List.mem_cons_self .., hlo, hhi⟩
  | release hused hright hleft =>
      rename_i pre post pre' post' b b₁ b₂ top owned
      have htouch := htouch b.addr rfl
      obtain ⟨-, hchain, hseam⟩ := List.isChain_append.1 htouch
      have hb : Covered owned { b with free := true } := h b (by simp)
      -- what the block joins behind it
      have hb₁ : Covered owned b₁ := by
        cases hright with
        | stay => exact hb
        | merge hc =>
            refine covered_join hb (h _ (by simp)) ?_
            exact (List.isChain_cons.1 hchain).1 _ rfl (.inl ⟨rfl, hc⟩)
      have hpost : ∀ c ∈ post', Covered owned c := by
        intro c hc
        cases hright with
        | stay => exact h c (by simp [hc])
        | merge => exact h c (by simp [hc])
      -- and before it
      have hpre : ∀ c ∈ pre', Covered owned c := by
        intro c hc
        cases hleft with
        | stay => exact h c (by simp [hc])
        | merge => exact h c (by simp [hc])
      have hb₂ : Covered owned b₂ := by
        cases hleft with
        | stay => exact hb₁
        | merge ha =>
            refine covered_join (h _ (by simp)) hb₁ ?_
            rw [hright.addr]
            exact hseam _ (by simp) b rfl (.inr ⟨rfl, ha⟩)
      intro c hc
      rcases List.mem_append.1 hc with hc | hc
      · exact hpre c hc
      · rcases List.mem_cons.1 hc with rfl | hc
        · exact hb₂
        · exact hpost c hc

/-- Appending moves the break over the region it records; no other step moves it. -/
theorem BlockStep.owned (step : BlockStep s event s') :
    (s'.top = s.top ∧ s'.owned = s.owned) ∨
      ((∃ a, event = .allocate a) ∧ s.top < s'.top ∧ s'.owned = (s.top, s'.top) :: s.owned) := by
  cases step with
  | take => exact .inl ⟨rfl, rfl⟩
  | append =>
      refine .inr ⟨⟨_, rfl⟩, ?_, rfl⟩
      dsimp only
      omega
  | release => exact .inl ⟨rfl, rfl⟩

/-- It is enough to look at the two neighbours of the block. -/
theorem touchesFree_of_neighbours {pre post : List Block} {b : Block} {hi : Nat}
    (hord : Ordered 32 lo hi (pre ++ b :: post))
    (hbefore : ∀ a ∈ pre.getLast?, a.free = true → a.stop 32 = b.addr)
    (hbehind : ∀ c ∈ post.head?, c.free = true → b.stop 32 = c.addr) :
    TouchesFree b.addr (pre ++ b :: post) := by
  -- a pair of other blocks is not concerned
  have hother : ∀ xs : List Block, (∀ x ∈ xs, x.addr ≠ b.addr) → TouchesFree b.addr xs := by
    intro xs hne
    refine (List.pairwise_of_forall_mem_list fun x hx y hy => ?_).isChain
    rintro (⟨h, -⟩ | ⟨h, -⟩)
    · exact absurd h (hne x hx)
    · exact absurd h (hne y hy)
  refine List.isChain_append.2 ⟨hother pre fun x hx => hord.addr_ne (by decide) (.inl hx),
    List.isChain_cons.2 ⟨fun c hc => ?_, hother post fun x hx => hord.addr_ne (by decide) (.inr hx)⟩,
    fun a ha c hc => ?_⟩
  · rintro (⟨-, hfree⟩ | ⟨haddr, -⟩)
    · exact hbehind c hc hfree
    · exact absurd haddr (hord.addr_ne (by decide) (.inr (List.mem_of_mem_head? hc)))
  · cases hc
    rintro (⟨haddr, -⟩ | ⟨-, hfree⟩)
    · exact absurd haddr (hord.addr_ne (by decide) (.inl (List.mem_of_getLast? ha)))
    · exact hbefore a ha hfree

/-- Putting a block in use does not part another block from its free neighbours. -/
theorem BlockStep.touchesFree {a addr hi : Nat} (step : BlockStep s (.allocate a) s')
    (hord : Ordered 32 lo hi s.blocks) (hlive : s.Live addr) (htop : addr < s.top)
    (h : TouchesFree addr s.blocks) : TouchesFree addr s'.blocks := by
  obtain ⟨l, hl, rfl⟩ := hlive
  obtain ⟨hmem, hused⟩ := mem_inUse.1 hl
  generalize hevent : BlockEvent.allocate a = event at step
  cases step with
  | take hfree hfit =>
      rename_i pre post b size top owned
      obtain ⟨hpre, hrest, hseam⟩ := List.isChain_append.1 h
      obtain ⟨hhead, hpost⟩ := List.isChain_cons.1 hrest
      -- the block in question lies before or behind the one that is cut
      have hout : ∀ x, b.addr ≤ x → x < b.stop 32 → x ≠ l.addr := by
        rintro x hlo hhi rfl
        obtain ⟨mid, hopre, hob, hopost⟩ := ordered_append.1 hord
        rcases List.mem_append.1 hmem with hl | hl
        · have := (hopre.mem hl).2
          unfold Block.stop at this
          omega
        · rcases List.mem_cons.1 hl with rfl | hl
          · rw [hused] at hfree
            cases hfree
          · have := (hopost.mem hl).1
            omega
      have hb : b.addr ≠ l.addr := hout b.addr (Nat.le_refl _) (by unfold Block.stop; omega)
      unfold cut
      split
      · have htail : b.addr + 32 + size ≠ l.addr :=
          hout _ (by omega) (by unfold Block.stop; omega)
        refine List.isChain_append.2 ⟨hpre, List.isChain_cons_cons.2 ⟨?_, List.isChain_cons.2
          ⟨fun y hy => ?_, hpost⟩⟩, fun x hx y hy => ?_⟩
        · rintro (⟨hx, -⟩ | ⟨hy, -⟩)
          · exact absurd hx hb
          · exact absurd hy htail
        · rintro (⟨hx, -⟩ | ⟨hy', -⟩)
          · exact absurd hx htail
          · rw [← hhead y hy (.inr ⟨hy', hfree⟩)]
            show b.addr + 32 + size + 32 + (b.size - size - 32) = b.addr + 32 + b.size
            omega
        · cases hy
          rintro (⟨-, hy⟩ | ⟨hy, -⟩)
          · cases hy
          · exact absurd hy hb
      · refine List.isChain_append.2 ⟨hpre, List.isChain_cons.2 ⟨fun y hy => ?_, hpost⟩,
          fun x hx y hy => ?_⟩
        · rintro (⟨hx, -⟩ | ⟨-, hx⟩)
          · exact absurd hx hb
          · cases hx
        · cases hy
          rintro (⟨-, hy⟩ | ⟨hy, -⟩)
          · cases hy
          · exact absurd hy hb
  | append =>
      refine List.isChain_append.2 ⟨h, List.isChain_singleton _, fun x hx y hy => ?_⟩
      cases hy
      rintro (⟨-, hy⟩ | ⟨hy, -⟩)
      · cases hy
      · exact absurd hy (Nat.ne_of_gt htop)
  | release => cases hevent

end Invariants

end CustomKernel.User
