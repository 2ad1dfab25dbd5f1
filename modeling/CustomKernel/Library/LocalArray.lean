/-
Module: CustomKernel.Library.LocalArray
Layer: Library
Purpose: A local array of fixed size, accessed through an `int` index. An access outside the array has
  no result, so a computation that has one keeps all its indices in the array. `Holds` says what
  stands in the array from an index on.
Imports: Mathlib.Logic.Basic
Trusted boundary: none (fully proved)
Main exports: LocalArray, LocalArray.load, LocalArray.store, LocalArray.Holds,
  LocalArray.Holds.right, LocalArray.Holds.load, LocalArray.Holds.push, LocalArray.Holds.snoc,
  LocalArray.string, LocalArray.Holds.string
-/
import Mathlib.Logic.Basic

/-- `α buf[size]`. -/
structure LocalArray (α : Type*) (size : Nat) where
  cells : Int → α

namespace LocalArray

variable {α : Type*} {size : Nat} {a a' : LocalArray α size} {i : Int} {c : α} {text : List α}

/-- `buf[i]`. -/
def load (a : LocalArray α size) (i : Int) : Option α :=
  if 0 ≤ i ∧ i < size then some (a.cells i) else none

/-- `buf[i] = c`. -/
def store (a : LocalArray α size) (i : Int) (c : α) : Option (LocalArray α size) :=
  if 0 ≤ i ∧ i < size then some { cells := fun j => if j = i then c else a.cells j } else none

/-- The array holds the text from index `i` on. -/
def Holds (a : LocalArray α size) (i : Int) (text : List α) : Prop :=
  ∀ k (h : k < text.length), a.cells (i + k) = text[k]

theorem Holds.nil (a : LocalArray α size) (i : Int) : a.Holds i [] := fun _ h => nomatch h

theorem Holds.head (h : a.Holds i (c :: text)) : a.cells i = c := by
  have := h 0 (Nat.zero_lt_succ _)
  rwa [Int.natCast_zero, Int.add_zero] at this

theorem Holds.tail (h : a.Holds i (c :: text)) : a.Holds (i + 1) text := by
  intro k hk
  have := h (k + 1) (Nat.succ_lt_succ hk)
  rw [Int.natCast_add, Int.natCast_one, Int.add_comm (k : Int) 1, ← Int.add_assoc] at this
  exact this

theorem Holds.cons (hc : a.cells i = c) (h : a.Holds (i + 1) text) : a.Holds i (c :: text) := by
  intro k hk
  cases k with
  | zero =>
      rw [Int.natCast_zero, Int.add_zero]
      exact hc
  | succ k =>
      have := h k (Nat.lt_of_succ_lt_succ hk)
      rw [Int.natCast_add, Int.natCast_one, Int.add_comm (k : Int) 1, ← Int.add_assoc]
      exact this

/-- The rest of the text. -/
theorem Holds.right {front : List α} (h : a.Holds i (front ++ text)) :
    a.Holds (i + front.length) text := by
  intro k hk
  have := h (front.length + k) (by rw [List.length_append]; omega)
  rwa [List.getElem_append_right (Nat.le_add_right ..), Int.natCast_add, ← Int.add_assoc,
    getElem_congr_idx (Nat.add_sub_cancel_left ..)] at this

/-- A load of what the array holds. -/
theorem Holds.load (h : a.Holds i (c :: text)) (hlo : 0 ≤ i) (hhi : i < size) :
    a.load i = some c := by
  rw [LocalArray.load, if_pos ⟨hlo, hhi⟩, h.head]

/-- A store in front of the text. -/
theorem Holds.push (h : a.Holds (i + 1) text) (hlo : 0 ≤ i) (hhi : i < size) (c : α) :
    ∃ a', a.store i c = some a' ∧ a'.Holds i (c :: text) := by
  refine ⟨_, if_pos ⟨hlo, hhi⟩, Holds.cons (if_pos rfl) fun k hk => ?_⟩
  rw [← h k hk]
  exact if_neg (by omega)

/-- A store behind the text. -/
theorem Holds.snoc (h : a.Holds 0 text) (hhi : text.length < size) (c : α) :
    ∃ a', a.store text.length c = some a' ∧ a'.Holds 0 (text ++ [c]) := by
  refine ⟨_, if_pos ⟨by omega, by omega⟩, fun k hk => ?_⟩
  show (if (0 : Int) + k = text.length then c else a.cells (0 + k)) = _
  rw [List.length_append, List.length_singleton] at hk
  by_cases hlast : k = text.length
  · rw [if_pos (by omega)]
    subst hlast
    rw [List.getElem_concat_length rfl]
  · rw [if_neg (by omega), h k (by omega), List.getElem_append_left (by omega)]

section Strings

variable {zero : α} [DecidableEq α]

/-- The characters from index `i` on up to a terminator, at most `fuel` of them. -/
def readString (zero : α) (a : LocalArray α size) : (fuel : Nat) → (i : Int) → Option (List α)
  | 0, _ => none
  | fuel + 1, i => do
      let c ← a.load i
      if c = zero then some [] else (c :: ·) <$> readString zero a fuel (i + 1)

/-- The string at `&buf[i]`. Its terminator has to be in the array. -/
def string (zero : α) (a : LocalArray α size) (i : Int) : Option (List α) :=
  readString zero a (size + 1) i

theorem Holds.readString : ∀ {text : List α} {i : Int} {fuel : Nat}, a.Holds i (text ++ [zero]) →
    zero ∉ text → 0 ≤ i → i + text.length < size → text.length < fuel →
    LocalArray.readString zero a fuel i = some text
  | [], i, fuel + 1, h, _, hlo, hhi, _ => by
      rw [LocalArray.readString, Holds.load h hlo (by simpa using hhi)]
      exact if_pos rfl
  | c :: text, i, fuel + 1, h, hzero, hlo, hhi, hfuel => by
      rw [List.length_cons] at hhi hfuel
      have hc : c ≠ zero := fun heq => hzero (heq ▸ List.mem_cons_self ..)
      have hrest := Holds.readString (Holds.tail h) (fun hmem => hzero (List.mem_cons_of_mem _ hmem))
        (by omega) (by omega) (Nat.lt_of_succ_lt_succ hfuel)
      rw [LocalArray.readString, Holds.load h hlo (by omega)]
      show (if c = zero then some [] else (c :: ·) <$> LocalArray.readString zero a fuel (i + 1)) = _
      rw [if_neg hc, hrest]
      rfl

/-- The string is the text before the terminator. -/
theorem Holds.string (h : a.Holds i (text ++ [zero])) (hzero : zero ∉ text) (hlo : 0 ≤ i)
    (hhi : i + text.length < size) : LocalArray.string zero a i = some text :=
  Holds.readString h hzero hlo hhi (by omega)

end Strings

end LocalArray
