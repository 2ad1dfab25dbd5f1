/-
Module: CustomKernel.Library.LinkedSegment
Layer: Library
Purpose: Segments of a singly linked structure: `Seg next a l b` says that following `next` from `a`
  visits exactly the nodes of `l`, in order, and then arrives at `b`. A list that ends in a null
  pointer is a segment to null, a ring is a segment from a node back to itself.
Imports: Mathlib.Logic.Basic
Trusted boundary: none (fully proved)
Main exports: Seg, seg_append, Seg.congr, Seg.rotate
-/
import Mathlib.Logic.Basic

namespace LinkedSegment

variable {α : Type*}

/-- Following `next` from `a` visits the nodes `l` in order and then arrives at `b`. -/
def Seg (next : α → α) : α → List α → α → Prop
  | a, [], b => next a = b
  | a, x :: l, b => next a = x ∧ Seg next x l b

variable {next next' : α → α} {a b x : α} {l m : List α}

/-- A segment through `x` is a segment to `x` followed by one from `x`. -/
theorem seg_append : Seg next a (l ++ x :: m) b ↔ Seg next a l x ∧ Seg next x m b := by
  induction l generalizing a with
  | nil => exact Iff.rfl
  | cons y l ih => simp only [List.cons_append, Seg, ih, and_assoc]

/-- A segment only depends on the pointers of its own nodes. -/
theorem Seg.congr (h : Seg next a l b) (same : ∀ y, y = a ∨ y ∈ l → next' y = next y) :
    Seg next' a l b := by
  induction l generalizing a with
  | nil => exact (same a (.inl rfl)).trans h
  | cons y l ih =>
      refine ⟨(same a (.inl rfl)).trans h.1, ih h.2 fun z hz => same z (.inr ?_)⟩
      rcases hz with rfl | hz
      · exact List.mem_cons_self ..
      · exact List.mem_cons_of_mem _ hz

/-- A ring can be read from any of its nodes. -/
theorem Seg.rotate (h : Seg next a (l ++ x :: m) a) : Seg next x (m ++ a :: l) x := by
  obtain ⟨hfirst, hsecond⟩ := seg_append.1 h
  exact seg_append.2 ⟨hsecond, hfirst⟩

/-- Where the first pointer of a segment leads. -/
theorem Seg.next_eq (h : Seg next a l b) : next a = (l ++ [b]).head (by simp) := by
  cases l with
  | nil => exact h
  | cons y l => exact h.1

end LinkedSegment
