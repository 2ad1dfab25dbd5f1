/-
Module: CustomKernel.Library.CyclicOrder
Layer: Library
Purpose: The cyclic order of a list, read from one of its members. `successors l c` lists the other
  members in the order in which one meets them going round from `c`; `between l c p` is the part of
  it that comes before `p`. Moving on to a member before `p`, and appending a new member to the
  list, never put anything else in front of `p`, which is the whole argument for the fairness of a
  round robin.
Imports: Mathlib.Data.List.Basic, Mathlib.Tactic
Trusted boundary: none (fully proved)
Main exports: successors, between, successors_of_split, successors_move, mem_between_of_find,
  mem_between_move, mem_between_append
-/
import Mathlib.Data.List.Basic
import Mathlib.Tactic

namespace CyclicOrder

variable {α : Type*} [DecidableEq α]

/-- The members of `l` after `c`, going round. -/
def successors (l : List α) (c : α) : List α :=
  (l.dropWhile (· ≠ c)).tail ++ l.takeWhile (· ≠ c)

/-- The members of `l` that come after `c` and before `p`, going round. -/
def between (l : List α) (c p : α) : List α :=
  (successors l c).takeWhile (· ≠ p)

variable {l pre post X Y : List α} {c d p q n : α}

/-- Cutting a list at the first occurrence of an element. -/
theorem takeWhile_ne_append (h : c ∉ pre) : (pre ++ c :: post).takeWhile (· ≠ c) = pre := by
  induction pre with
  | nil => simp
  | cons x pre ih =>
      have hx : x ≠ c := fun h' => h (by simp [h'])
      have hpre : c ∉ pre := fun h' => h (List.mem_cons_of_mem _ h')
      simpa [hx] using ih hpre

theorem dropWhile_ne_append (h : c ∉ pre) : (pre ++ c :: post).dropWhile (· ≠ c) = c :: post := by
  induction pre with
  | nil => simp
  | cons x pre ih =>
      have hx : x ≠ c := fun h' => h (by simp [h'])
      have hpre : c ∉ pre := fun h' => h (List.mem_cons_of_mem _ h')
      simpa [hx] using ih hpre

/-- Going round from `c` one meets what comes after it, then what comes before it. -/
theorem successors_of_split (h : c ∉ pre) : successors (pre ++ c :: post) c = post ++ pre := by
  simp only [successors, takeWhile_ne_append h, dropWhile_ne_append h, List.tail_cons]

omit [DecidableEq α] in
/-- A member of a list without repetition splits it. -/
theorem exists_split (hnd : l.Nodup) (hc : c ∈ l) :
    ∃ pre post, l = pre ++ c :: post ∧ c ∉ pre ∧ c ∉ post := by
  obtain ⟨pre, post, rfl⟩ := List.append_of_mem hc
  have hnd' := List.nodup_middle.1 hnd
  have hnot : c ∉ pre ++ post := (List.nodup_cons.1 hnd').1
  exact ⟨pre, post, rfl, fun h => hnot (List.mem_append_left _ h),
    fun h => hnot (List.mem_append_right _ h)⟩

theorem mem_successors (hnd : l.Nodup) (hc : c ∈ l) : q ∈ successors l c ↔ q ∈ l ∧ q ≠ c := by
  obtain ⟨pre, post, rfl, hpre, hpost⟩ := exists_split hnd hc
  rw [successors_of_split hpre]
  simp only [List.mem_append, List.mem_cons]
  constructor
  · rintro (h | h)
    · exact ⟨.inr (.inr h), fun he => hpost (he ▸ h)⟩
    · exact ⟨.inl h, fun he => hpre (he ▸ h)⟩
  · rintro ⟨h | h | h, hne⟩
    · exact .inr h
    · exact absurd h hne
    · exact .inl h

theorem successors_nodup (hnd : l.Nodup) (hc : c ∈ l) : (successors l c).Nodup := by
  obtain ⟨pre, post, rfl, hpre, -⟩ := exists_split hnd hc
  rw [successors_of_split hpre]
  have hrest : (pre ++ post).Nodup := (List.nodup_cons.1 (List.nodup_middle.1 hnd)).2
  exact List.nodup_append_comm.1 hrest

/-- Going round from a later member: the rest of the round, then the member one started from, then
    what was passed on the way. -/
theorem successors_move (hnd : l.Nodup) (hc : c ∈ l) (h : successors l c = X ++ d :: Y) :
    successors l d = Y ++ c :: X := by
  have hsn := successors_nodup hnd hc
  have hdc : d ≠ c :=
    ((mem_successors hnd hc).1 (by rw [h]; exact List.mem_append_right _ (by simp))).2
  obtain ⟨pre, post, rfl, hpre, hpost⟩ := exists_split hnd hc
  rw [successors_of_split hpre] at h hsn
  rw [h] at hsn
  have hX : d ∉ X := by
    have := (List.nodup_cons.1 (List.nodup_middle.1 hsn)).1
    exact fun hx => this (List.mem_append_left _ hx)
  -- `d` lies either after `c` in the list or before it
  rcases List.append_eq_append_iff.1 h with ⟨W, hXW, hpreW⟩ | ⟨W, hpostW, hYW⟩
  · subst hXW hpreW
    have hsplit : W ++ d :: Y ++ c :: post = W ++ d :: (Y ++ c :: post) := by simp
    rw [hsplit, successors_of_split (fun hw => hX (List.mem_append_right _ hw))]
    simp
  · cases W with
    | nil =>
        simp only [List.append_nil, List.nil_append] at hpostW hYW
        subst hpostW
        rw [← hYW]
        have hsplit : d :: Y ++ c :: post = [] ++ d :: (Y ++ c :: post) := by simp
        rw [hsplit, successors_of_split (by simp)]
        simp
    | cons e W =>
        simp only [List.cons_append, List.cons.injEq] at hYW
        obtain ⟨rfl, rfl⟩ := hYW
        subst hpostW
        have hsplit : pre ++ c :: (X ++ d :: W) = (pre ++ c :: X) ++ d :: W := by simp
        have hd : d ∉ pre ++ c :: X := by
          intro hmem
          have hdpre : d ∉ W ++ pre := by
            have := (List.nodup_cons.1 (List.nodup_middle.1 hsn)).1
            exact fun hx => this (List.mem_append_right _ hx)
          rcases List.mem_append.1 hmem with h' | h'
          · exact hdpre (List.mem_append_right _ h')
          · rcases List.mem_cons.1 h' with h' | h'
            · exact hdc h'
            · exact hX h'
        rw [hsplit, successors_of_split hd]
        simp

/-- Reading up to `p`: the part before its first occurrence. -/
theorem between_of_split (h : successors l c = X ++ p :: Y) (hX : p ∉ X) : between l c p = X := by
  rw [between, h, takeWhile_ne_append hX]

/-- What a search that would stop at `p` finds instead of `p` lies before `p`. -/
theorem mem_between_of_find {f : α → Bool} (hp : p ∈ successors l c) (hfp : f p = true)
    (hfind : (successors l c).find? f = some d) (hd : d ≠ p) : d ∈ between l c p := by
  obtain ⟨X, Y, hsucc, hX⟩ := List.eq_append_cons_of_mem hp
  rw [between_of_split hsucc hX]
  rw [hsucc, List.find?_append] at hfind
  cases hfX : X.find? f with
  | some e =>
      simp only [hfX, Option.some_or, Option.some.injEq] at hfind
      exact hfind ▸ List.mem_of_find?_eq_some hfX
  | none =>
      simp only [hfX, Option.none_or, List.find?_cons, hfp, Option.some.injEq] at hfind
      exact absurd hfind.symm hd

/-- Moving on to a member `d` before `p` leaves `d` and everything passed behind. -/
theorem mem_between_move (hnd : l.Nodup) (hc : c ∈ l) (hp : p ∈ successors l c)
    (hd : d ∈ between l c p) (hq : q ∈ between l d p) : q ∈ between l c p ∧ q ≠ d := by
  obtain ⟨A, B, hsucc, hA⟩ := List.eq_append_cons_of_mem hp
  rw [between_of_split hsucc hA] at hd ⊢
  obtain ⟨X, Z, rfl⟩ := List.append_of_mem hd
  have hnds := successors_nodup hnd hc
  rw [hsucc] at hnds
  have hmove : successors l d = Z ++ p :: (B ++ c :: X) := by
    have h : successors l c = X ++ d :: (Z ++ p :: B) := by rw [hsucc]; simp
    rw [successors_move hnd hc h]
    simp
  rw [between_of_split hmove fun hz => hA (List.mem_append_right _ (List.mem_cons_of_mem _ hz))] at hq
  refine ⟨List.mem_append_right _ (List.mem_cons_of_mem _ hq), ?_⟩
  rintro rfl
  have hnd' : (X ++ q :: Z).Nodup := (List.nodup_append.1 hnds).1
  exact (List.nodup_cons.1 (List.nodup_middle.1 hnd')).1 (List.mem_append_right _ hq)

/-- A member appended to the list is the only one that can come in front of `p`. -/
theorem mem_between_append (hnd : l.Nodup) (hc : c ∈ l) (hp : p ∈ successors l c)
    (hq : q ∈ between (l ++ [n]) c p) : q ∈ between l c p ∨ q = n := by
  obtain ⟨pre, post, rfl, hpre, -⟩ := exists_split hnd hc
  have hext : successors (pre ++ c :: post ++ [n]) c = post ++ n :: pre := by
    have h : pre ++ c :: post ++ [n] = pre ++ c :: (post ++ [n]) := by simp
    rw [h, successors_of_split hpre]
    simp
  have hold := @successors_of_split _ _ _ post _ hpre
  rw [between, hext] at hq
  rw [between, hold]
  by_cases hpost : p ∈ post
  · obtain ⟨A, B, rfl, hA⟩ := List.eq_append_cons_of_mem hpost
    have hsplit : ∀ Z, A ++ p :: B ++ Z = A ++ p :: (B ++ Z) := fun Z => by simp
    rw [hsplit, takeWhile_ne_append hA] at hq ⊢
    exact .inl hq
  · rw [hold] at hp
    have hppre : p ∈ pre := (List.mem_append.1 hp).resolve_left hpost
    obtain ⟨A, B, rfl, hA⟩ := List.eq_append_cons_of_mem hppre
    have hpA : p ∉ post ++ A := fun h => (List.mem_append.1 h).elim hpost hA
    rw [show post ++ (A ++ p :: B) = (post ++ A) ++ p :: B by simp, takeWhile_ne_append hpA]
    by_cases hn : n = p
    · subst hn
      rw [takeWhile_ne_append hpost] at hq
      exact .inl (List.mem_append_left _ hq)
    · have hpn : p ∉ post ++ n :: A := by
        intro h
        rcases List.mem_append.1 h with h | h
        · exact hpost h
        · rcases List.mem_cons.1 h with h | h
          · exact hn h.symm
          · exact hA h
      rw [show post ++ n :: (A ++ p :: B) = (post ++ n :: A) ++ p :: B by simp,
        takeWhile_ne_append hpn] at hq
      rcases List.mem_append.1 hq with h | h
      · exact .inl (List.mem_append_left _ h)
      · rcases List.mem_cons.1 h with h | h
        · exact .inr h
        · exact .inl (List.mem_append_right _ h)

end CyclicOrder
