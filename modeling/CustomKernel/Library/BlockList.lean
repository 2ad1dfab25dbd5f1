/-
Module: CustomKernel.Library.BlockList
Layer: Library
Purpose: The block lists of allocators that keep a header in front of every block. Blocks are given
  by the address of their header, the size of what follows it and whether they are free; `Ordered`
  says that they follow each other in memory without overlap, `Tiles` that they do so without gaps,
  `Separated` that no two free ones are neighbours, and `Linked` that a property of every block and
  its two neighbours (such as the contents of its header) holds along the list.
Imports: Mathlib.Tactic
Trusted boundary: none (fully proved)
Main exports: Block, Ordered, Tiles, Separated, inUse, cut, join, Linked, ordered_append,
  tiles_append, separated_used, linked_append, fill, Tiles.eq_fill, gaps, Tiles.find_fits,
  find_gap_lowest, Ordered.inUse_ext, inUse_filter_ne
-/
import Mathlib.Tactic

namespace BlockList

/-- A block: the address of its header, the size of its payload, and whether it is free. -/
structure Block where
  addr : Nat
  size : Nat
  free : Bool
deriving DecidableEq, Repr

/-- Address of the first block of a list that continues at `next`. -/
def firstAddr : (blocks : List Block) → (next : Nat) → Nat
  | [], next => next
  | b :: _, _ => b.addr

/-- Address of the last block of a list that starts after `prev`. -/
def lastAddr : (prev : Nat) → (blocks : List Block) → Nat
  | prev, [] => prev
  | _, b :: blocks => lastAddr b.addr blocks

@[simp] theorem firstAddr_nil (next : Nat) : firstAddr [] next = next := rfl

@[simp] theorem firstAddr_cons (b : Block) (blocks : List Block) (next : Nat) :
    firstAddr (b :: blocks) next = b.addr := rfl

@[simp] theorem lastAddr_nil (prev : Nat) : lastAddr prev [] = prev := rfl

@[simp] theorem lastAddr_cons (prev : Nat) (b : Block) (blocks : List Block) :
    lastAddr prev (b :: blocks) = lastAddr b.addr blocks := rfl

theorem firstAddr_append (xs ys : List Block) (next : Nat) :
    firstAddr (xs ++ ys) next = firstAddr xs (firstAddr ys next) := by
  cases xs <;> rfl

theorem lastAddr_append (prev : Nat) (xs ys : List Block) :
    lastAddr prev (xs ++ ys) = lastAddr (lastAddr prev xs) ys := by
  induction xs generalizing prev with
  | nil => rfl
  | cons b xs ih => exact ih b.addr

/-! ### Position -/

section Position

variable {hdr lo mid hi : Nat} {b : Block} {xs ys : List Block}

/-- First address after a block with a header of `hdr` bytes. -/
def Block.stop (hdr : Nat) (b : Block) : Nat := b.addr + hdr + b.size

/-- The blocks lie in `[lo, hi)`, one after the other. -/
def Ordered (hdr lo hi : Nat) : List Block → Prop
  | [] => lo ≤ hi
  | b :: blocks => lo ≤ b.addr ∧ Ordered hdr (b.stop hdr) hi blocks

/-- The blocks cover `[lo, hi)`, one after the other. -/
def Tiles (hdr lo hi : Nat) : List Block → Prop
  | [] => lo = hi
  | b :: blocks => b.addr = lo ∧ Tiles hdr (b.stop hdr) hi blocks

theorem Ordered.le (h : Ordered hdr lo hi xs) : lo ≤ hi := by
  induction xs generalizing lo with
  | nil => exact h
  | cons b xs ih =>
      have hrest := ih h.2
      have hfirst := h.1
      unfold Block.stop at hrest
      omega

theorem ordered_append :
    Ordered hdr lo hi (xs ++ ys) ↔ ∃ mid, Ordered hdr lo mid xs ∧ Ordered hdr mid hi ys := by
  induction xs generalizing lo with
  | nil =>
      refine ⟨fun h => ⟨lo, Nat.le_refl lo, h⟩, fun ⟨mid, hle, h⟩ => ?_⟩
      change lo ≤ mid at hle
      cases ys with
      | nil =>
          change mid ≤ hi at h
          exact Nat.le_trans hle h
      | cons b ys => exact ⟨Nat.le_trans hle h.1, h.2⟩
  | cons b xs ih =>
      constructor
      · rintro ⟨hfirst, hrest⟩
        obtain ⟨mid, hxs, hys⟩ := ih.1 hrest
        exact ⟨mid, ⟨hfirst, hxs⟩, hys⟩
      · rintro ⟨mid, ⟨hfirst, hxs⟩, hys⟩
        exact ⟨hfirst, ih.2 ⟨mid, hxs, hys⟩⟩

theorem tiles_append :
    Tiles hdr lo hi (xs ++ ys) ↔ ∃ mid, Tiles hdr lo mid xs ∧ Tiles hdr mid hi ys := by
  induction xs generalizing lo with
  | nil => exact ⟨fun h => ⟨lo, rfl, h⟩, fun ⟨mid, heq, h⟩ => (show lo = mid from heq) ▸ h⟩
  | cons b xs ih =>
      constructor
      · rintro ⟨hfirst, hrest⟩
        obtain ⟨mid, hxs, hys⟩ := ih.1 hrest
        exact ⟨mid, ⟨hfirst, hxs⟩, hys⟩
      · rintro ⟨mid, ⟨hfirst, hxs⟩, hys⟩
        exact ⟨hfirst, ih.2 ⟨mid, hxs, hys⟩⟩

theorem Tiles.ordered (h : Tiles hdr lo hi xs) : Ordered hdr lo hi xs := by
  induction xs generalizing lo with
  | nil => exact Nat.le_of_eq h
  | cons b xs ih => exact ⟨Nat.le_of_eq h.1.symm, ih h.2⟩

theorem Ordered.mem (h : Ordered hdr lo hi xs) (hb : b ∈ xs) : lo ≤ b.addr ∧ b.stop hdr ≤ hi := by
  induction xs generalizing lo with
  | nil => cases hb
  | cons c xs ih =>
      rcases List.mem_cons.1 hb with rfl | hmem
      · exact ⟨h.1, h.2.le⟩
      · obtain ⟨hlo, hhi⟩ := ih h.2 hmem
        have hfirst := h.1
        refine ⟨?_, hhi⟩
        unfold Block.stop at hlo
        omega

/-- Blocks at different places of an ordered list do not overlap. -/
theorem Ordered.pairwise (h : Ordered hdr lo hi xs) :
    xs.Pairwise fun a b => a.stop hdr ≤ b.addr := by
  induction xs generalizing lo with
  | nil => exact .nil
  | cons b xs ih => exact .cons (fun c hc => (h.2.mem hc).1) (ih h.2)

theorem Ordered.mono {lo' hi' : Nat} (h : Ordered hdr lo hi xs) (hlo : lo' ≤ lo) (hhi : hi ≤ hi') :
    Ordered hdr lo' hi' xs := by
  induction xs generalizing lo lo' with
  | nil =>
      change lo ≤ hi at h
      show lo' ≤ hi'
      omega
  | cons b xs ih => exact ⟨Nat.le_trans hlo h.1, ih h.2 (Nat.le_refl _)⟩

/-- An ordered list with nonempty headers is no longer than its space. -/
theorem Ordered.length_le (h : Ordered hdr lo hi xs) (hhdr : 1 ≤ hdr) : xs.length ≤ hi - lo := by
  induction xs generalizing lo with
  | nil => exact Nat.zero_le _
  | cons b xs ih =>
      have hrest := ih h.2
      have hle := h.2.le
      have hfirst := h.1
      simp only [Block.stop, List.length_cons] at hrest hle ⊢
      omega

/-- Two blocks of an ordered list with different addresses do not overlap. -/
theorem Ordered.apart (h : Ordered hdr lo hi xs) {a b : Block} (ha : a ∈ xs) (hb : b ∈ xs)
    (hne : a.addr ≠ b.addr) : a.stop hdr ≤ b.addr ∨ b.stop hdr ≤ a.addr := by
  induction xs generalizing lo with
  | nil => cases ha
  | cons c xs ih =>
      rcases List.mem_cons.1 ha with rfl | ha'
      · rcases List.mem_cons.1 hb with rfl | hb'
        · exact absurd rfl hne
        · exact .inl (h.2.mem hb').1
      · rcases List.mem_cons.1 hb with rfl | hb'
        · exact .inr (h.2.mem ha').1
        · exact ih h.2 ha' hb'

/-- In an ordered list one header address is one block. -/
theorem Ordered.addr_ne (h : Ordered hdr lo hi (xs ++ b :: ys)) (hhdr : 1 ≤ hdr) {c : Block}
    (hc : c ∈ xs ∨ c ∈ ys) : c.addr ≠ b.addr := by
  obtain ⟨mid, hxs, hlo, hys⟩ := ordered_append.1 h
  unfold Block.stop at hys
  rcases hc with hmem | hmem
  · have := (hxs.mem hmem).2
    unfold Block.stop at this
    omega
  · have := (hys.mem hmem).1
    omega

/-- Blocks of an ordered list with one address are the same. -/
theorem Ordered.eq_of_addr (h : Ordered hdr lo hi xs) (hhdr : 1 ≤ hdr) {a b : Block} (ha : a ∈ xs)
    (hb : b ∈ xs) (heq : a.addr = b.addr) : a = b := by
  obtain ⟨pre, post, rfl⟩ := List.append_of_mem hb
  rcases List.mem_append.1 ha with hpre | hrest
  · exact absurd heq (h.addr_ne hhdr (.inl hpre))
  · rcases List.mem_cons.1 hrest with rfl | hpost
    · rfl
    · exact absurd heq (h.addr_ne hhdr (.inr hpost))

end Position

/-! ### Free neighbours -/

/-- No two neighbours are both free. -/
def Separated (blocks : List Block) : Prop :=
  blocks.IsChain fun a b => ¬ (a.free = true ∧ b.free = true)

section Free

variable {b c : Block} {xs ys : List Block}

/-- A block in use parts the list. -/
theorem separated_used (hb : b.free = false) :
    Separated (xs ++ b :: ys) ↔ Separated xs ∧ Separated ys := by
  simp [Separated, List.isChain_append, List.isChain_cons, hb]

/-- Only the flags matter. -/
theorem separated_congr (hfree : b.free = c.free) :
    Separated (xs ++ b :: ys) ↔ Separated (xs ++ c :: ys) := by
  simp [Separated, List.isChain_append, List.isChain_cons, hfree]

theorem Separated.left (h : Separated (xs ++ ys)) : Separated xs := (List.isChain_append.1 h).1

theorem Separated.right (h : Separated (xs ++ ys)) : Separated ys := (List.isChain_append.1 h).2.1

/-- The blocks in use. -/
def inUse (blocks : List Block) : List Block := blocks.filter fun b => !b.free

@[simp] theorem inUse_append (xs ys : List Block) : inUse (xs ++ ys) = inUse xs ++ inUse ys :=
  List.filter_append ..

theorem inUse_cons_free (hb : b.free = true) : inUse (b :: xs) = inUse xs := by
  simp [inUse, hb]

theorem inUse_cons_used (hb : b.free = false) : inUse (b :: xs) = b :: inUse xs := by
  simp [inUse, hb]

theorem mem_inUse : b ∈ inUse xs ↔ b ∈ xs ∧ b.free = false := by
  simp [inUse]

end Free

/-! ### Cutting and joining -/

section Operations

variable {hdr room size lo hi : Nat} {b c : Block} {pre post : List Block}

/-- What becomes of a free block from which `size` bytes are taken: the rest becomes a block of its
    own if it has room for a header and `room` bytes. -/
def cut (hdr room size : Nat) (b : Block) : List Block :=
  if size + hdr + room ≤ b.size then
    [⟨b.addr, size, false⟩, ⟨b.addr + hdr + size, b.size - size - hdr, true⟩]
  else [⟨b.addr, b.size, false⟩]

/-- Two neighbours as one block, under the first one's flag. -/
def join (hdr : Nat) (b c : Block) : Block := ⟨b.addr, b.size + hdr + c.size, b.free⟩

theorem firstAddr_cut (next : Nat) : firstAddr (cut hdr room size b) next = b.addr := by
  unfold cut
  split <;> rfl

theorem tiles_cut (h : Tiles hdr lo hi [b]) : Tiles hdr lo hi (cut hdr room size b) := by
  obtain ⟨hfirst, hstop⟩ := h
  change b.stop hdr = hi at hstop
  unfold cut
  split
  · refine ⟨hfirst, rfl, ?_⟩
    show b.addr + hdr + size + hdr + (b.size - size - hdr) = hi
    unfold Block.stop at hstop
    omega
  · exact ⟨hfirst, hstop⟩

theorem ordered_cut (h : Ordered hdr lo hi [b]) : Ordered hdr lo hi (cut hdr room size b) := by
  obtain ⟨hfirst, hstop⟩ := h
  change b.stop hdr ≤ hi at hstop
  unfold cut
  split
  · refine ⟨hfirst, Nat.le_refl _, ?_⟩
    show b.addr + hdr + size + hdr + (b.size - size - hdr) ≤ hi
    unfold Block.stop at hstop
    omega
  · exact ⟨hfirst, hstop⟩

/-- The blocks of a cut lie inside the block that was cut. -/
theorem mem_cut (hfit : size ≤ b.size) (hc : c ∈ cut hdr room size b) :
    b.addr ≤ c.addr ∧ c.stop hdr ≤ b.stop hdr := by
  unfold cut at hc
  unfold Block.stop
  split at hc
  · simp only [List.mem_cons, List.not_mem_nil, or_false] at hc
    rcases hc with rfl | rfl
    · simp only
      omega
    · simp only
      omega
  · simp only [List.mem_cons, List.not_mem_nil, or_false] at hc
    subst hc
    exact ⟨Nat.le_refl _, Nat.le_refl _⟩

/-- The block that a cut puts in use comes first and has the bytes asked for. -/
theorem cut_cons (hfit : size ≤ b.size) :
    ∃ u rest, cut hdr room size b = u :: rest ∧ u.addr = b.addr ∧ u.free = false ∧ size ≤ u.size := by
  unfold cut
  split
  · exact ⟨_, _, rfl, rfl, rfl, Nat.le_refl _⟩
  · exact ⟨_, _, rfl, rfl, rfl, hfit⟩

/-- It is the only one in use. -/
theorem cut_inUse (hdr room size : Nat) (b : Block) :
    ∃ u rest, cut hdr room size b = u :: rest ∧ u.addr = b.addr ∧ u.free = false ∧
      inUse rest = [] := by
  unfold cut
  split
  · exact ⟨_, _, rfl, rfl, rfl, rfl⟩
  · exact ⟨_, _, rfl, rfl, rfl, rfl⟩

/-- Cutting a free block keeps free blocks apart. -/
theorem separated_cut (hfree : b.free = true) (h : Separated (pre ++ b :: post)) :
    Separated (pre ++ (cut hdr room size b ++ post)) := by
  have hpre : Separated pre := h.left
  have hpost : Separated (b :: post) := h.right
  unfold cut
  split
  · refine (separated_used (b := ⟨b.addr, size, false⟩) rfl).2 ⟨hpre, ?_⟩
    exact (@separated_congr b _ [] _ hfree).1 hpost
  · exact (separated_used (b := ⟨b.addr, b.size, false⟩) rfl).2 ⟨hpre, hpost.tail⟩

/-- Cutting a free block puts one block in use. -/
theorem mem_inUse_cut (hfree : b.free = true) :
    c ∈ inUse (pre ++ (cut hdr room size b ++ post)) ↔
      c ∈ inUse (pre ++ b :: post) ∨
        c = ⟨b.addr, if size + hdr + room ≤ b.size then size else b.size, false⟩ := by
  unfold cut
  rw [inUse_append, inUse_append, inUse_append, inUse_cons_free hfree]
  split
  · rw [inUse_cons_used rfl, inUse_cons_free rfl]
    simp only [inUse, List.filter_nil, List.mem_append, List.mem_cons, List.not_mem_nil, or_false]
    tauto
  · rw [inUse_cons_used rfl]
    simp only [inUse, List.filter_nil, List.mem_append, List.mem_cons, List.not_mem_nil, or_false]
    tauto

theorem tiles_join (h : Tiles hdr lo hi [b, c]) : Tiles hdr lo hi [join hdr b c] := by
  obtain ⟨hfirst, hsecond, hstop⟩ := h
  change c.stop hdr = hi at hstop
  refine ⟨hfirst, ?_⟩
  show b.addr + hdr + (b.size + hdr + c.size) = hi
  unfold Block.stop at hsecond hstop
  omega

theorem ordered_join (h : Ordered hdr lo hi [b, c]) : Ordered hdr lo hi [join hdr b c] := by
  obtain ⟨hfirst, hsecond, hstop⟩ := h
  change c.stop hdr ≤ hi at hstop
  refine ⟨hfirst, ?_⟩
  show b.addr + hdr + (b.size + hdr + c.size) ≤ hi
  unfold Block.stop at hsecond hstop
  omega

end Operations

/-! ### The canonical list -/

section Canonical

variable {hdr lo hi : Nat} {xs ys : List Block}

/-- The free block that covers `[lo, hi)`, if there is anything to cover. -/
def gap (hdr lo hi : Nat) : List Block := if lo = hi then [] else [⟨lo, hi - lo - hdr, true⟩]

/-- The list that covers `[lo, hi)` with the given blocks in use and one free block for each gap. -/
def fill (hdr lo hi : Nat) : (used : List Block) → List Block
  | [] => gap hdr lo hi
  | b :: used => gap hdr lo b.addr ++ b :: fill hdr (b.stop hdr) hi used

theorem gap_self : gap hdr lo lo = [] := if_pos rfl

/-- A free block fills its own gap. -/
theorem gap_block (hhdr : 1 ≤ hdr) {b : Block} (hfree : b.free = true) :
    gap hdr b.addr (b.stop hdr) = [b] := by
  unfold gap Block.stop
  rw [if_neg (by omega), show b.addr + hdr + b.size - b.addr - hdr = b.size from by omega, ← hfree]

/-- A tiling without free neighbours is determined by its blocks in use. -/
theorem Tiles.eq_fill (hhdr : 1 ≤ hdr) : ∀ {xs : List Block} {lo : Nat}, Tiles hdr lo hi xs →
    Separated xs → xs = fill hdr lo hi (inUse xs)
  | [], lo, h, _ => by
      rw [show lo = hi from h]
      exact gap_self.symm
  | b :: rest, lo, h, hsep => by
      obtain ⟨rfl, hrest⟩ := h
      have ih := Tiles.eq_fill hhdr hrest (@Separated.right [b] _ hsep)
      cases hb : b.free with
      | false =>
          rw [inUse_cons_used hb, fill, gap_self, List.nil_append, ← ih]
      | true =>
          rw [inUse_cons_free hb]
          -- the block after a free one is in use, and the gap ends there
          cases rest with
          | nil => rw [show hi = b.stop hdr from hrest.symm, inUse, List.filter_nil, fill,
              gap_block hhdr hb]
          | cons c rest =>
              have hc : c.free = false := by
                have hpair := (List.isChain_cons_cons.1 hsep).1
                rwa [hb, eq_self_iff_true, true_and, Bool.not_eq_true] at hpair
              rw [inUse_cons_used hc] at ih ⊢
              rw [fill] at ih ⊢
              rw [show c.addr = b.stop hdr from hrest.1, gap_block hhdr hb]
              rw [show c.addr = b.stop hdr from hrest.1, gap_self, List.nil_append] at ih
              rw [List.singleton_append, ← ih]

/-- The maximal gaps between the blocks in use and the ends of `[lo, hi)`, empty ones included. -/
def gaps (hdr lo hi : Nat) : (used : List Block) → List (Nat × Nat)
  | [] => [(lo, hi)]
  | b :: used => (lo, b.addr) :: gaps hdr (b.stop hdr) hi used

/-- A gap with room for a header and `size` bytes. -/
def hasRoom (hdr size : Nat) (g : Nat × Nat) : Bool := decide (g.1 + hdr + size ≤ g.2)

/-- A free block of `size` bytes or more. -/
def Block.fits (size : Nat) (b : Block) : Bool := b.free && decide (size ≤ b.size)

theorem hasRoom_self {size : Nat} (hhdr : 1 ≤ hdr) : hasRoom hdr size (lo, lo) = false :=
  decide_eq_false (by dsimp only; omega)

/-- A free block has the room of its gap. -/
theorem hasRoom_block {size : Nat} {b : Block} (hfree : b.free = true) :
    hasRoom hdr size (b.addr, b.stop hdr) = b.fits size := by
  unfold hasRoom Block.fits Block.stop
  rw [hfree, Bool.true_and]
  exact decide_eq_decide.2 (by dsimp only; omega)

/-- A free block in front of the list is its gap in front of the gaps. -/
theorem find_fits_free {size : Nat} {b : Block} {gs : List (Nat × Nat)} (hfree : b.free = true)
    (h : xs.find? (Block.fits size) =
      (gs.find? (hasRoom hdr size)).map fun g => ⟨g.1, g.2 - g.1 - hdr, true⟩) :
    (b :: xs).find? (Block.fits size) =
      (((b.addr, b.stop hdr) :: gs).find? (hasRoom hdr size)).map
        fun g => ⟨g.1, g.2 - g.1 - hdr, true⟩ := by
  have hsize : b.stop hdr - b.addr - hdr = b.size := by
    unfold Block.stop
    omega
  cases hfits : b.fits size with
  | true =>
      rw [List.find?_cons_of_pos hfits, List.find?_cons_of_pos ((hasRoom_block hfree).trans hfits),
        Option.map_some, hsize, ← hfree]
  | false =>
      have hno : ¬ b.fits size = true := by
        rw [hfits]
        exact Bool.false_ne_true
      have hroom : ¬ hasRoom hdr size (b.addr, b.stop hdr) = true := by
        rw [hasRoom_block hfree]
        exact hno
      rw [List.find?_cons_of_neg hno, List.find?_cons_of_neg hroom, h]

/-- Without free neighbours, the first block that fits is the first gap with room. -/
theorem Tiles.find_fits {size : Nat} (hhdr : 1 ≤ hdr) : ∀ {xs : List Block} {lo : Nat},
    Tiles hdr lo hi xs → Separated xs →
    xs.find? (Block.fits size) = ((gaps hdr lo hi (inUse xs)).find? (hasRoom hdr size)).map
      fun g => ⟨g.1, g.2 - g.1 - hdr, true⟩
  | [], lo, h, _ => by
      have hempty : ¬ hasRoom hdr size (hi, hi) = true := by simp [hasRoom_self hhdr]
      rw [show lo = hi from h, show inUse [] = [] from rfl, gaps, List.find?_cons_of_neg hempty]
      rfl
  | b :: rest, lo, h, hsep => by
      obtain ⟨rfl, hrest⟩ := h
      have ih := @Tiles.find_fits size hhdr _ _ hrest (@Separated.right [b] _ hsep)
      have hempty : ∀ addr, ¬ hasRoom hdr size (addr, addr) = true := by simp [hasRoom_self hhdr]
      cases hb : b.free with
      | false =>
          have hskip : ¬ b.fits size = true := by simp [Block.fits, hb]
          rw [List.find?_cons_of_neg hskip, ih, inUse_cons_used hb, gaps,
            List.find?_cons_of_neg (hempty b.addr)]
      | true =>
          rw [inUse_cons_free hb]
          -- the block after a free one is in use, and the gap ends there
          cases rest with
          | nil =>
              rw [show inUse [] = [] from rfl, gaps, show hi = b.stop hdr from hrest.symm]
              exact find_fits_free hb rfl
          | cons c rest =>
              have hc : c.free = false := by
                have hpair := (List.isChain_cons_cons.1 hsep).1
                rwa [hb, eq_self_iff_true, true_and, Bool.not_eq_true] at hpair
              rw [inUse_cons_used hc] at ih ⊢
              rw [gaps] at ih ⊢
              rw [show c.addr = b.stop hdr from hrest.1] at ih ⊢
              rw [List.find?_cons_of_neg (hempty _)] at ih
              exact find_fits_free hb ih

/-- The blocks in use follow each other as well. -/
theorem ordered_inUse : ∀ {xs : List Block} {lo : Nat}, Ordered hdr lo hi xs →
    Ordered hdr lo hi (inUse xs)
  | [], _, h => h
  | b :: rest, lo, h => by
      have ih := ordered_inUse h.2
      cases hb : b.free with
      | false =>
          rw [inUse_cons_used hb]
          exact ⟨h.1, ih⟩
      | true =>
          have hstop : lo ≤ b.stop hdr := Nat.le_trans h.1 (by unfold Block.stop; omega)
          rw [inUse_cons_free hb]
          exact ih.mono hstop (Nat.le_refl hi)

/-- Gaps are listed from low to high addresses. -/
theorem gaps_sorted : ∀ {used : List Block} {lo : Nat}, Ordered hdr lo hi used →
    (∀ g ∈ gaps hdr lo hi used, lo ≤ g.1) ∧
      (gaps hdr lo hi used).Pairwise fun g g' => g.1 ≤ g'.1
  | [], lo, _ => by simp [gaps]
  | b :: used, lo, h => by
      obtain ⟨hge, hsorted⟩ := gaps_sorted h.2
      have hstop : lo ≤ b.stop hdr := Nat.le_trans h.1 (by unfold Block.stop; omega)
      rw [gaps]
      refine ⟨fun g hg => ?_, List.pairwise_cons.2 ⟨fun g hg => ?_, hsorted⟩⟩
      · rcases List.mem_cons.1 hg with rfl | hmem
        · exact Nat.le_refl lo
        · exact Nat.le_trans hstop (hge g hmem)
      · exact Nat.le_trans hstop (hge g hg)

/-- The first gap with room is the lowest one. -/
theorem find_gap_lowest {size : Nat} {used : List Block} {g : Nat × Nat}
    (hord : Ordered hdr lo hi used) (h : (gaps hdr lo hi used).find? (hasRoom hdr size) = some g) :
    g ∈ gaps hdr lo hi used ∧ hasRoom hdr size g = true ∧
      ∀ g' ∈ gaps hdr lo hi used, hasRoom hdr size g' = true → g.1 ≤ g'.1 := by
  obtain ⟨hroom, before, behind, hsplit, hnone⟩ := List.find?_eq_some_iff_append.1 h
  refine ⟨List.mem_of_find?_eq_some h, hroom, fun g' hg' hroom' => ?_⟩
  have hsorted := (gaps_sorted hord).2
  rw [hsplit] at hg' hsorted
  rcases List.mem_append.1 hg' with hbefore | hbehind
  · have := hnone g' hbefore
    rw [hroom'] at this
    cases this
  · rcases List.mem_cons.1 hbehind with rfl | hmem
    · exact Nat.le_refl _
    · exact (List.pairwise_cons.1 (List.pairwise_append.1 hsorted).2.1).1 g' hmem

/-- The blocks in use of an ordered list are determined by which they are. -/
theorem Ordered.inUse_ext {lo' hi' : Nat} (hhdr : 1 ≤ hdr) (hx : Ordered hdr lo hi xs)
    (hy : Ordered hdr lo' hi' ys) (hmem : ∀ b, b ∈ inUse xs ↔ b ∈ inUse ys) : inUse xs = inUse ys := by
  have hlt : ∀ {a b : Block}, a.stop hdr ≤ b.addr → a.addr < b.addr := by
    intro a b hab
    unfold Block.stop at hab
    omega
  have hsorted : ∀ {lo hi : Nat} {zs : List Block}, Ordered hdr lo hi zs →
      (inUse zs).Pairwise fun a b => a.addr < b.addr :=
    fun hz => (hz.pairwise.filter _).imp hlt
  have : Std.Antisymm fun a b : Block => a.addr < b.addr :=
    ⟨fun a b hab hba => absurd hab (Nat.lt_asymm hba)⟩
  have : Std.Irrefl fun a b : Block => a.addr < b.addr := ⟨fun a => Nat.lt_irrefl _⟩
  exact (hsorted hx).eq_of_mem_iff (hsorted hy) hmem

/-- Without the block in use at `b`, the blocks in use are those at other addresses. -/
theorem inUse_filter_ne {b : Block} (hhdr : 1 ≤ hdr) (hord : Ordered hdr lo hi (xs ++ b :: ys))
    (hused : b.free = false) :
    inUse xs ++ inUse ys = (inUse (xs ++ b :: ys)).filter fun c => c.addr ≠ b.addr := by
  have hkeep : ∀ {zs : List Block}, (∀ c ∈ zs, c ∈ xs ∨ c ∈ ys) →
      (inUse zs).filter (fun c => c.addr ≠ b.addr) = inUse zs := by
    intro zs hzs
    refine List.filter_eq_self.2 fun c hc => decide_eq_true ?_
    exact hord.addr_ne hhdr (hzs c (mem_inUse.1 hc).1)
  rw [inUse_append, inUse_cons_used hused, List.filter_append, List.filter_cons_of_neg (by simp),
    hkeep fun c hc => .inl hc, hkeep fun c hc => .inr hc]

end Canonical

/-! ### Links -/

section Links

variable {node node' : Nat → Block → Nat → Prop} {prev next : Nat} {b : Block} {xs ys : List Block}

/-- Every block of the list satisfies `node`, given the addresses of its two neighbours. -/
def Linked (node : (prev : Nat) → Block → (next : Nat) → Prop) :
    (prev : Nat) → List Block → (next : Nat) → Prop
  | _, [], _ => True
  | prev, b :: blocks, next => node prev b (firstAddr blocks next) ∧ Linked node b.addr blocks next

theorem linked_append : Linked node prev (xs ++ ys) next ↔
    Linked node prev xs (firstAddr ys next) ∧ Linked node (lastAddr prev xs) ys next := by
  induction xs generalizing prev with
  | nil => simp [Linked]
  | cons b xs ih =>
      simp only [List.cons_append, Linked, ih, firstAddr_append, lastAddr_cons, and_assoc]

theorem Linked.imp (h : Linked node prev xs next)
    (himp : ∀ b ∈ xs, ∀ p n, node p b n → node' p b n) : Linked node' prev xs next := by
  induction xs generalizing prev with
  | nil => trivial
  | cons b xs ih =>
      exact ⟨himp b (List.mem_cons_self ..) _ _ h.1,
        ih h.2 fun c hc => himp c (List.mem_cons_of_mem _ hc)⟩

theorem Linked.mem (h : Linked node prev xs next) (hb : b ∈ xs) : ∃ p n, node p b n := by
  induction xs generalizing prev with
  | nil => cases hb
  | cons c xs ih =>
      rcases List.mem_cons.1 hb with rfl | hmem
      · exact ⟨_, _, h.1⟩
      · exact ih h.2 hmem

/-- In a tiling the block after a block is where it ends, or there is none. -/
theorem Linked.next_of_tiles {hdr lo hi : Nat} (hhdr : 1 ≤ hdr) (ht : Tiles hdr lo hi xs)
    (h : Linked node prev xs 0) (hb : b ∈ xs) :
    ∃ p, node p b (if b.stop hdr = hi then 0 else b.stop hdr) := by
  induction xs generalizing prev lo with
  | nil => cases hb
  | cons c rest ih =>
      rcases List.mem_cons.1 hb with rfl | hmem
      · refine ⟨prev, ?_⟩
        have hnode := h.1
        cases rest with
        | nil => rwa [if_pos (show b.stop hdr = hi from ht.2)]
        | cons d rest =>
            have hnext := ht.2.1
            have hend := ht.2.2.ordered.le
            unfold Block.stop at hend
            rw [if_neg (by omega), ← hnext]
            exact hnode
      · exact ih ht.2 h.2 hmem

/-- Where blocks do not refer to the one before them, the start of the list does not matter. -/
theorem Linked.restart {prev' : Nat} (hprev : ∀ p p' b n, node p b n → node p' b n)
    (h : Linked node prev xs next) : Linked node prev' xs next := by
  cases xs with
  | nil => trivial
  | cons b xs => exact ⟨hprev _ _ _ _ h.1, h.2⟩

end Links

end BlockList
