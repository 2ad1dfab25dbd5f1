/-
Module: CustomKernel.Library.Loops
Layer: Library
Purpose: The counting loop `for (i = lo; i < hi; i++) body` as a total function on the loop's state,
  with its invariant rule; and the same loop with a body that can fail.
Imports: Mathlib.Order.Basic
Trusted boundary: none (fully proved)
Main exports: forRange, forRange_invariant, bind_ok, forRangeE, forRangeE_invariant,
  forRangeE_ok
-/
import Mathlib.Order.Basic

namespace Loops

universe u

variable {σ : Type u}

/-- `count` iterations of `body`, the first one at index `i`. -/
def iterateFrom (body : Nat → σ → σ) : (count i : Nat) → σ → σ
  | 0, _, s => s
  | count + 1, i, s => iterateFrom body count (i + 1) (body i s)

/-- `for (i = lo; i < hi; i++) s = body(i, s)`. -/
def forRange (lo hi : Nat) (body : Nat → σ → σ) (s : σ) : σ :=
  iterateFrom body (hi - lo) lo s

theorem iterateFrom_invariant {body : Nat → σ → σ} (P : Nat → σ → Prop) (hi : Nat)
    (step : ∀ i s, i < hi → P i s → P (i + 1) (body i s)) :
    ∀ (count i : Nat) (s : σ), i + count = hi → P i s → P hi (iterateFrom body count i s)
  | 0, i, s, hend, hP => by
      have : i = hi := by omega
      exact this ▸ hP
  | count + 1, i, s, hend, hP =>
      iterateFrom_invariant P hi step count (i + 1) (body i s) (by omega)
        (step i s (by omega) hP)

/-- The invariant rule of the counting loop: what holds at `lo` and is carried from `i` to `i + 1`
    by the body holds at `hi` afterwards. -/
theorem forRange_invariant {body : Nat → σ → σ} (P : Nat → σ → Prop) {lo hi : Nat} {s : σ}
    (hle : lo ≤ hi) (start : P lo s)
    (step : ∀ i s, lo ≤ i → i < hi → P i s → P (i + 1) (body i s)) :
    P hi (forRange lo hi body s) := by
  have carried : ∀ i s, i < hi → (lo ≤ i ∧ P i s) → (lo ≤ i + 1 ∧ P (i + 1) (body i s)) :=
    fun i s hi h => ⟨Nat.le_succ_of_le h.1, step i s h.1 hi h.2⟩
  exact (iterateFrom_invariant (fun i s => lo ≤ i ∧ P i s) hi carried (hi - lo) lo s (by omega)
    ⟨Nat.le_refl lo, start⟩).2

variable {ε : Type*}

/-- A sequence of two fallible computations returns if both parts do. -/
theorem bind_ok {τ : Type u} {x : Except ε σ} {f : σ → Except ε τ} {b : τ}
    (h : x >>= f = .ok b) : ∃ a, x = .ok a ∧ f a = .ok b := by
  cases x with
  | error e => cases h
  | ok a => exact ⟨a, rfl, h⟩

/-- Two continuations that agree on what the first part returns. -/
theorem bind_congr_ok {τ : Type u} {x : Except ε σ} {f g : σ → Except ε τ}
    (h : ∀ a, x = .ok a → f a = g a) : x >>= f = x >>= g := by
  cases x with
  | error e => rfl
  | ok a => exact h a rfl

/-- `count` iterations of a body that can fail, the first one at index `i`. -/
def iterateFromE (body : Nat → σ → Except ε σ) : (count i : Nat) → σ → Except ε σ
  | 0, _, s => .ok s
  | count + 1, i, s => body i s >>= iterateFromE body count (i + 1)

/-- `for (i = lo; i < hi; i++)` around a body that can fail. -/
def forRangeE (lo hi : Nat) (body : Nat → σ → Except ε σ) (s : σ) : Except ε σ :=
  iterateFromE body (hi - lo) lo s

theorem iterateFromE_invariant {body : Nat → σ → Except ε σ} (P : Nat → σ → Prop) {hi : Nat}
    (step : ∀ i s s', i < hi → P i s → body i s = .ok s' → P (i + 1) s') :
    ∀ (count i : Nat) (s t : σ), i + count = hi → P i s → iterateFromE body count i s = .ok t →
      P hi t
  | 0, i, s, t, hend, hP, hrun => by
      have : i = hi := by omega
      cases hrun
      exact this ▸ hP
  | count + 1, i, s, t, hend, hP, hrun => by
      obtain ⟨s', hbody, hrest⟩ := bind_ok hrun
      exact iterateFromE_invariant P step count (i + 1) s' t (by omega)
        (step i s s' (by omega) hP hbody) hrest

/-- The invariant rule of the loop that can fail: it speaks of the runs that return. -/
theorem forRangeE_invariant {body : Nat → σ → Except ε σ} (P : Nat → σ → Prop) {lo hi : Nat}
    {s t : σ} (hle : lo ≤ hi) (start : P lo s)
    (step : ∀ i s s', i < hi → P i s → body i s = .ok s' → P (i + 1) s')
    (hrun : forRangeE lo hi body s = .ok t) : P hi t :=
  iterateFromE_invariant P step (hi - lo) lo s t (by omega) start hrun

theorem iterateFromE_ok {body : Nat → σ → Except ε σ} (P : Nat → σ → Prop) {hi : Nat}
    (step : ∀ i s, i < hi → P i s → ∃ s', body i s = .ok s' ∧ P (i + 1) s') :
    ∀ (count i : Nat) (s : σ), i + count = hi → P i s →
      ∃ t, iterateFromE body count i s = .ok t ∧ P hi t
  | 0, i, s, hend, hP => by
      have : i = hi := by omega
      exact ⟨s, rfl, this ▸ hP⟩
  | count + 1, i, s, hend, hP => by
      obtain ⟨s', hbody, hP'⟩ := step i s (by omega) hP
      obtain ⟨t, hrest, hPt⟩ := iterateFromE_ok P step count (i + 1) s' (by omega) hP'
      refine ⟨t, ?_, hPt⟩
      rw [iterateFromE, hbody]
      exact hrest

/-- The loop returns if each iteration does, from every state the invariant allows. -/
theorem forRangeE_ok {body : Nat → σ → Except ε σ} (P : Nat → σ → Prop) {lo hi : Nat} {s : σ}
    (hle : lo ≤ hi) (start : P lo s)
    (step : ∀ i s, i < hi → P i s → ∃ s', body i s = .ok s' ∧ P (i + 1) s') :
    ∃ t, forRangeE lo hi body s = .ok t ∧ P hi t :=
  iterateFromE_ok P step (hi - lo) lo s (by omega) start

end Loops
