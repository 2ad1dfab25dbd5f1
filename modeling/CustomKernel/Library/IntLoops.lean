/-
Module: CustomKernel.Library.IntLoops
Layer: Library
Purpose: The counting loop `for (; i < hi; i++) body` whose counter is an `int` of 32 bits, and its
  invariant rule. The counter does not overflow: it is below `hi` when it is incremented.
Imports: Mathlib.Tactic
Trusted boundary: none (fully proved)
Main exports: toInt_eq, toInt_succ_of_slt, forInt, forInt_invariant, forInt_upto
-/
import Mathlib.Tactic

namespace IntLoops

universe u

variable {σ : Type u}

/-- An `int` as a number. -/
theorem toInt_eq (i : BitVec 32) :
    i.toInt = if i.toNat < 2 ^ 31 then (i.toNat : Int) else i.toNat - 2 ^ 32 := by
  rw [BitVec.toInt_eq_toNat_cond]
  split_ifs <;> first | rfl | omega

/-- A counter below its bound is not the largest `int`. -/
theorem toInt_succ_of_slt {i hi : BitVec 32} (h : i.slt hi = true) : (i + 1).toInt = i.toInt + 1 := by
  have hlt : i.toInt < hi.toInt := BitVec.slt_iff_toInt_lt.1 h
  have hnext : (i + 1).toNat = (i.toNat + 1) % 2 ^ 32 := BitVec.toNat_add i 1
  have := i.isLt
  have := hi.isLt
  rw [toInt_eq i, toInt_eq hi] at hlt
  rw [toInt_eq, toInt_eq, hnext]
  split_ifs at hlt ⊢ <;> omega

/-- `for (; i < hi; i++) s = body(i, s)`. -/
def forInt (hi : BitVec 32) (body : BitVec 32 → σ → σ) (i : BitVec 32) (s : σ) : σ :=
  if i.slt hi then forInt hi body (i + 1) (body i s) else s
termination_by (hi.toInt - i.toInt).toNat
decreasing_by
  rename_i h
  have hlt : i.toInt < hi.toInt := BitVec.slt_iff_toInt_lt.1 h
  rw [toInt_succ_of_slt h]
  omega

/-- The invariant rule: what holds at the first counter and is carried from each counter below `hi` to
    the next one holds behind the loop. -/
theorem forInt_invariant {hi : BitVec 32} {body : BitVec 32 → σ → σ} (P : Int → σ → Prop)
    (i : BitVec 32) (s : σ) (start : P i.toInt s)
    (step : ∀ (j : BitVec 32) s, i.toInt ≤ j.toInt → j.toInt < hi.toInt → P j.toInt s →
      P (j.toInt + 1) (body j s)) :
    P (max i.toInt hi.toInt) (forInt hi body i s) := by
  fun_induction forInt hi body i s with
  | case1 i s h ih =>
      have hlt : i.toInt < hi.toInt := BitVec.slt_iff_toInt_lt.1 h
      have hnext := toInt_succ_of_slt h
      have hfirst := step i s (Int.le_refl _) hlt start
      rw [← hnext] at hfirst
      have hrest := ih hfirst fun j s hle => step j s (by omega)
      rw [hnext] at hrest
      rwa [Int.max_eq_right (Int.le_of_lt hlt),
        ← Int.max_eq_right (show i.toInt + 1 ≤ hi.toInt by omega)]
  | case2 i s h =>
      have hle : hi.toInt ≤ i.toInt := Int.not_lt.1 fun hlt => h (BitVec.slt_iff_toInt_lt.2 hlt)
      rwa [Int.max_eq_left hle]

/-- A loop that counts up from zero. -/
theorem forInt_upto (hi : BitVec 32) (body : BitVec 32 → σ → σ) (P : Int → σ → Prop) (s : σ)
    (start : P 0 s)
    (step : ∀ (j : BitVec 32) s, 0 ≤ j.toInt → j.toInt < hi.toInt → P j.toInt s →
      P (j.toInt + 1) (body j s)) :
    P (max 0 hi.toInt) (forInt hi body 0 s) :=
  forInt_invariant P 0 s start step

end IntLoops
