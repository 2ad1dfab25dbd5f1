/-
Module: CustomKernel.Library.Runs
Layer: Library
Purpose: Finite runs of a labelled step relation, and the two rules every safety proof of a step
  system uses: an invariant that each step keeps holds after every run, and a run of a stronger
  relation is a run of a weaker one. A fallible step function `f` enters as the relation
  `fun s a s' => f s a = some s'`, so a run is exactly a sequence of calls that all return.
Imports: Mathlib.Logic.Basic
Trusted boundary: none (fully proved)
Main exports: Run, Run.invariant, Run.imp, Run.append, Run.of_foldlM, Guarded, Run.of_guarded
-/
import Mathlib.Logic.Basic

namespace StepSystem

variable {σ α : Type*}

/-- `Run step s as s'`: the actions `as`, taken in order from `s`, can lead to `s'`. -/
inductive Run (step : σ → α → σ → Prop) : σ → List α → σ → Prop where
  | nil (s : σ) : Run step s [] s
  | cons {s t u : σ} {a : α} {as : List α}
      (head : step s a t) (tail : Run step t as u) : Run step s (a :: as) u

/-- A step relation restricted to the steps that meet a condition on the state they start in. -/
def Guarded (ok : σ → α → Prop) (step : σ → α → σ → Prop) (s : σ) (a : α) (s' : σ) : Prop :=
  ok s a ∧ step s a s'

namespace Run

variable {step weaker : σ → α → σ → Prop} {s t u : σ} {as bs : List α}

/-- The run of a single step. -/
theorem single {a : α} (h : step s a t) : Run step s [a] t :=
  .cons h (.nil t)

/-- What holds at the start and is kept by every step holds after every run. -/
theorem invariant (inv : σ → Prop) (kept : ∀ s a s', inv s → step s a s' → inv s')
    (run : Run step s as t) (start : inv s) : inv t := by
  induction run with
  | nil => exact start
  | cons head _ ih => exact ih (kept _ _ _ start head)

/-- A run of a relation is a run of every relation it implies. -/
theorem imp (h : ∀ s a s', step s a s' → weaker s a s') (run : Run step s as t) :
    Run weaker s as t := by
  induction run with
  | nil => exact .nil _
  | cons head _ ih => exact .cons (h _ _ _ head) ih

/-- Runs compose. -/
theorem append (first : Run step s as t) (second : Run step t bs u) :
    Run step s (as ++ bs) u := by
  induction first with
  | nil => exact second
  | cons head _ ih => exact .cons head (ih second)

/-- A step function that takes every action of a list in turn gives a run. -/
theorem of_foldlM {play : σ → α → Option σ}
    (sound : ∀ s a s', play s a = some s' → step s a s') :
    ∀ {as : List α} {s t : σ}, as.foldlM play s = some t → Run step s as t
  | [], s, t, h => by
      obtain rfl : s = t := Option.some.inj h
      exact .nil s
  | a :: as, s, t, h => by
      rw [List.foldlM_cons] at h
      obtain ⟨u, hhead, htail⟩ := Option.bind_eq_some_iff.1 h
      exact .cons (sound s a u hhead) (of_foldlM sound htail)

/-- A guarded run is a run. -/
theorem of_guarded {ok : σ → α → Prop} (run : Run (Guarded ok step) s as t) : Run step s as t :=
  run.imp fun _ _ _ h => h.2

end Run

/-- A step function that returns, returns what it returns: for runs on fixed inputs. -/
theorem eq_some_getD {o : Option σ} (h : o.isSome = true) (d : σ) : o = some (o.getD d) := by
  obtain ⟨s, rfl⟩ := Option.isSome_iff_exists.1 h
  rfl

end StepSystem
