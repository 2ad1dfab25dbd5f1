/-
Module: CustomKernel.Library.RingBuffer
Layer: Library
Purpose: A ring buffer of `n` slots with a read and a write position, in the variant that tells full
  from empty by keeping one slot free: equal positions mean empty, and an item that would make them
  equal is dropped. The positions carry their bound.
Imports: Mathlib.Tactic
Trusted boundary: none (fully proved)
Main exports: Ring, Ring.push, Ring.drop, Ring.buffered, hasItem_iff, buffered_push_le,
  buffered_drop, offer, Ring.contents, contents_push, contents_eq_cons, contents_eq_nil
-/
import Mathlib.Tactic

namespace RingBuffer

/-- A queue of bounded length: an item that finds it full is dropped. -/
def offer {α : Type*} (capacity : Nat) (queue : List α) (x : α) : List α :=
  if queue.length < capacity then queue ++ [x] else queue

/-- A ring buffer of `n` slots. -/
structure Ring (α : Type*) (n : Nat) where
  slots : Nat → α
  readPos : Nat
  writePos : Nat
  readPos_lt : readPos < n
  writePos_lt : writePos < n

namespace Ring

variable {α : Type*} {n : Nat}

/-- The slot after `pos`. -/
def after (r : Ring α n) (pos : Nat) : { p : Nat // p < n } :=
  ⟨(pos + 1) % n, Nat.mod_lt _ (Nat.lt_of_le_of_lt (Nat.zero_le _) r.readPos_lt)⟩

/-- Something can be read. -/
def HasItem (r : Ring α n) : Prop := r.readPos ≠ r.writePos

instance (r : Ring α n) : Decidable r.HasItem := inferInstanceAs (Decidable (_ ≠ _))

/-- Write an item, unless the buffer is full. -/
def push (r : Ring α n) (x : α) : Ring α n :=
  if (r.after r.writePos).1 = r.readPos then r
  else
    { r with
      slots := Function.update r.slots r.writePos x
      writePos := (r.after r.writePos).1
      writePos_lt := (r.after r.writePos).2 }

/-- The item at the read position. -/
def front (r : Ring α n) : α := r.slots r.readPos

/-- Step over the item at the read position. -/
def drop (r : Ring α n) : Ring α n :=
  { r with readPos := (r.after r.readPos).1, readPos_lt := (r.after r.readPos).2 }

/-- How many items are buffered. -/
def buffered (r : Ring α n) : Nat :=
  if r.readPos ≤ r.writePos then r.writePos - r.readPos else r.writePos + n - r.readPos

theorem after_eq (r : Ring α n) {pos : Nat} (h : pos < n) :
    (r.after pos).1 = if pos + 1 = n then 0 else pos + 1 := by
  show (pos + 1) % n = _
  split
  · rename_i hend
    rw [hend, Nat.mod_self]
  · exact Nat.mod_eq_of_lt (by omega)

theorem buffered_lt (r : Ring α n) : r.buffered < n := by
  have hread := r.readPos_lt
  have hwrite := r.writePos_lt
  unfold buffered
  split <;> omega

theorem hasItem_iff (r : Ring α n) : r.HasItem ↔ 0 < r.buffered := by
  have hread := r.readPos_lt
  unfold HasItem buffered
  split <;> omega

/-- Dropping an item leaves one item less. -/
theorem buffered_drop {r : Ring α n} (h : r.HasItem) : r.drop.buffered + 1 = r.buffered := by
  have hread := r.readPos_lt
  have hwrite := r.writePos_lt
  have hafter := r.after_eq hread
  unfold HasItem at h
  unfold buffered drop
  dsimp only
  split at hafter <;> split <;> split <;> omega

/-- A write adds at most one item. -/
theorem buffered_push_le (r : Ring α n) (x : α) : (r.push x).buffered ≤ r.buffered + 1 := by
  have hread := r.readPos_lt
  have hwrite := r.writePos_lt
  have hafter := r.after_eq hwrite
  unfold push
  split
  · omega
  · rename_i hroom
    unfold buffered
    dsimp only
    split at hafter <;> split <;> split <;> omega

/-! ### The queue in the buffer -/

/-- The buffered items, the oldest first. -/
def contents (r : Ring α n) : List α :=
  (List.range r.buffered).map fun k => r.slots ((r.readPos + k) % n)

@[simp] theorem length_contents (r : Ring α n) : r.contents.length = r.buffered := by
  simp [contents]

/-- The write position is as many slots behind the read position as items are buffered. -/
theorem readPos_add_buffered (r : Ring α n) : (r.readPos + r.buffered) % n = r.writePos := by
  have hread := r.readPos_lt
  have hwrite := r.writePos_lt
  unfold buffered
  split
  · rw [show r.readPos + (r.writePos - r.readPos) = r.writePos from by omega, Nat.mod_eq_of_lt hwrite]
  · rw [show r.readPos + (r.writePos + n - r.readPos) = r.writePos + n from by omega,
      Nat.add_mod_right, Nat.mod_eq_of_lt hwrite]

/-- The slots of the buffered items are not the one at the write position. -/
theorem slot_ne_writePos (r : Ring α n) {k : Nat} (hk : k < r.buffered) :
    (r.readPos + k) % n ≠ r.writePos := by
  have hread := r.readPos_lt
  have hwrite := r.writePos_lt
  intro heq
  have hmod := r.readPos_add_buffered
  have hlt := r.buffered_lt
  have hwrap : ∀ m < n, (r.readPos + m) % n = if r.readPos + m < n then r.readPos + m
      else r.readPos + m - n := by
    intro m hm
    split
    · exact Nat.mod_eq_of_lt ‹_›
    · rw [Nat.mod_eq_sub_mod (by omega), Nat.mod_eq_of_lt (by omega)]
  rw [hwrap k (by omega)] at heq
  rw [hwrap _ hlt] at hmod
  split at heq <;> split at hmod <;> omega

/-- The buffer is full when all slots but one are taken. -/
theorem full_iff (r : Ring α n) : (r.after r.writePos).1 = r.readPos ↔ r.buffered + 1 = n := by
  have hread := r.readPos_lt
  have hwrite := r.writePos_lt
  have hafter := r.after_eq hwrite
  unfold buffered
  split at hafter <;> split <;> omega

/-- A write is an offer to a queue that holds one item less than there are slots. -/
theorem contents_push (r : Ring α n) (x : α) :
    (r.push x).contents = offer (n - 1) r.contents x := by
  have hlt := r.buffered_lt
  unfold offer push
  rw [length_contents]
  by_cases hfull : (r.after r.writePos).1 = r.readPos
  · have hcount := r.full_iff.1 hfull
    rw [if_pos hfull, if_neg (by omega)]
  · have hcount : r.buffered + 1 ≠ n := fun h => hfull (r.full_iff.2 h)
    rw [if_neg hfull, if_pos (by omega)]
    have hone : (r.push x).buffered = r.buffered + 1 := by
      have hread := r.readPos_lt
      have hwrite := r.writePos_lt
      have hafter := r.after_eq hwrite
      rw [push, if_neg hfull]
      unfold buffered
      dsimp only
      split at hafter <;> split <;> split <;> omega
    rw [push, if_neg hfull] at hone
    unfold contents
    rw [hone, List.range_succ, List.map_append]
    dsimp only
    congr 1
    · refine List.map_congr_left fun k hk => ?_
      exact Function.update_of_ne (r.slot_ne_writePos (List.mem_range.1 hk)) _ _
    · rw [List.map_singleton, r.readPos_add_buffered, Function.update_self]

/-- The item at the read position is the oldest one. -/
theorem contents_eq_cons {r : Ring α n} (h : r.HasItem) :
    r.contents = r.front :: r.drop.contents := by
  have hcount := buffered_drop h
  have hread := r.readPos_lt
  unfold contents
  rw [← hcount, List.range_succ_eq_map, List.map_cons, List.map_map, Nat.add_zero,
    Nat.mod_eq_of_lt hread]
  congr 1
  refine List.map_congr_left fun k _ => ?_
  show r.slots ((r.readPos + (k + 1)) % n) = r.slots (((r.readPos + 1) % n + k) % n)
  rw [Nat.mod_add_mod, Nat.add_assoc, Nat.add_comm 1 k]

theorem contents_eq_nil {r : Ring α n} (h : ¬ r.HasItem) : r.contents = [] := by
  have hzero : r.buffered = 0 := Nat.eq_zero_of_not_pos fun hpos => h (r.hasItem_iff.2 hpos)
  rw [contents, hzero]
  rfl

end Ring

end RingBuffer
