/-
Module: CustomKernel.Proofs.SchedulerRing
Layer: Proofs
Purpose: The scheduler's pointer walks on a well-formed ring. Under `RingInv` the descriptors are
  linked in the order of `members`, so each of the four loops terminates and computes a function of
  that list: the wake loop maps over it, the selection loop is a search along the cyclic order from
  the current process, the tail search finds its last element. `schedulerTick_eq` puts the first two
  together and is what every later proof about a tick starts from.
Imports: Mathlib.Tactic, CustomKernel.Process.Scheduler, CustomKernel.Library.LinkedSegment,
  CustomKernel.Library.CyclicOrder
Trusted boundary: none (fully proved)
Main exports: RingInv, woken, chosen, schedulerTick_eq, schedulerAdd_spec, keyWaiter,
  schedulerWakeKeyWaiter_eq
-/
import Mathlib.Tactic
import CustomKernel.Process.Scheduler
import CustomKernel.Library.LinkedSegment
import CustomKernel.Library.CyclicOrder

namespace CustomKernel.Scheduler

open LinkedSegment CyclicOrder

/-- The `next` pointers of a descriptor map. -/
def nextOf (procs : Nat → Process) (p : Nat) : Nat := (procs p).next

/-- The ring is the list of members: no address twice, none of them `NULL`, idle first, linked in
    this order and back to idle. -/
structure RingInv (s : Scheduler) : Prop where
  idle_first : s.members = s.idle :: s.members.tail
  nodup : s.members.Nodup
  nonnull : 0 ∉ s.members
  linked : Seg (nextOf s.procs) s.idle s.members.tail s.idle
  current_mem : s.current ∈ s.members

namespace RingInv

variable {s : Scheduler}

theorem idle_mem (ring : RingInv s) : s.idle ∈ s.members := by
  rw [ring.idle_first]
  exact List.mem_cons_self ..

theorem idle_notMem_tail (ring : RingInv s) : s.idle ∉ s.members.tail := by
  have h := ring.nodup
  rw [ring.idle_first] at h
  exact (List.nodup_cons.1 h).1

theorem tail_nodup (ring : RingInv s) : s.members.tail.Nodup := ring.nodup.tail

theorem mem_iff (ring : RingInv s) {p : Nat} : p ∈ s.members ↔ p = s.idle ∨ p ∈ s.members.tail := by
  conv_lhs => rw [ring.idle_first]
  exact List.mem_cons

theorem ne_null (ring : RingInv s) {p : Nat} (h : p ∈ s.members) : p ≠ 0 :=
  fun h0 => ring.nonnull (h0 ▸ h)

theorem tail_length (ring : RingInv s) : s.members.tail.length + 1 = s.members.length := by
  conv_rhs => rw [ring.idle_first]
  simp

/-- The ring read from any member. -/
theorem linked_from (ring : RingInv s) {c : Nat} (hc : c ∈ s.members) :
    Seg (nextOf s.procs) c (successors s.members c) c := by
  obtain ⟨pre, post, hsplit, hpre, -⟩ := exists_split ring.nodup hc
  have hfirst := ring.idle_first
  rw [hsplit, successors_of_split hpre]
  cases pre with
  | nil =>
      rw [hsplit] at hfirst
      have hidle : c = s.idle := by simpa using congrArg List.head? hfirst
      have hlink := ring.linked
      rw [hsplit] at hlink
      simpa [hidle] using hlink
  | cons x pre =>
      rw [hsplit] at hfirst
      have hidle : x = s.idle := by simpa using congrArg List.head? hfirst
      have hlink := ring.linked
      rw [hsplit, ← hidle] at hlink
      exact hlink.rotate

/-- The ring only depends on the pointers. -/
theorem of_next (ring : RingInv s) {s' : Scheduler} (hidle : s'.idle = s.idle)
    (hmem : s'.members = s.members) (hcur : s'.current ∈ s.members)
    (hnext : ∀ p ∈ s.members, (s'.procs p).next = (s.procs p).next) : RingInv s' where
  idle_first := by rw [hmem, hidle]; exact ring.idle_first
  nodup := by rw [hmem]; exact ring.nodup
  nonnull := by rw [hmem]; exact ring.nonnull
  linked := by
    rw [hmem, hidle]
    refine ring.linked.congr fun p hp => hnext p ?_
    exact ring.mem_iff.2 hp
  current_mem := by rw [hmem]; exact hcur

theorem next_mem (ring : RingInv s) {p : Nat} (hp : p ∈ s.members) :
    (s.procs p).next ∈ s.members := by
  have hseg := (ring.linked_from hp).next_eq
  rw [nextOf] at hseg
  rw [hseg]
  cases hsucc : successors s.members p with
  | nil => simpa using hp
  | cons q l =>
      have hq : q ∈ successors s.members p := by rw [hsucc]; exact List.mem_cons_self ..
      simpa using ((mem_successors ring.nodup hp).1 hq).1

end RingInv

/-! ### The wake loop -/

@[simp] theorem wakeSleeper_next (now : Word) (p : Process) : (wakeSleeper now p).next = p.next := by
  unfold wakeSleeper
  split <;> rfl

/-- Along a segment to idle the wake loop handles exactly the nodes of the segment. -/
theorem wakeLoop_eq (now : Word) (idle : Nat) : ∀ (l : List Nat) (budget p : Nat)
    (procs : Nat → Process), p ≠ idle → idle ∉ l → (p :: l).Nodup →
    Seg (nextOf procs) p l idle → l.length + 2 ≤ budget →
    wakeLoop now idle budget procs p =
      some fun q => if q = p ∨ q ∈ l then wakeSleeper now (procs q) else procs q
  | [], budget, p, procs, hp, _, _, hseg, hbudget => by
      obtain ⟨budget, rfl⟩ : ∃ b, budget = b + 2 := ⟨budget - 2, by simp at hbudget; omega⟩
      have hnext : (procs p).next = idle := hseg
      simp only [wakeLoop, if_neg hp, setProcess_self, wakeSleeper_next, hnext, if_true]
      congr 1
      funext q
      by_cases hq : q = p
      · simp [hq]
      · simp [hq]
  | x :: l, budget, p, procs, hp, hidle, hnd, hseg, hbudget => by
      obtain ⟨budget, rfl⟩ : ∃ b, budget = b + 1 := ⟨budget - 1, by simp at hbudget; omega⟩
      have hnext : (procs p).next = x := hseg.1
      have hx : x ≠ idle := fun h => hidle (by simp [h])
      have hp_notMem : p ∉ x :: l := (List.nodup_cons.1 hnd).1
      have hl : idle ∉ l := fun h => hidle (List.mem_cons_of_mem _ h)
      -- the body changes no pointer, so the rest of the segment is still there
      have hrest : Seg (nextOf (setProcess procs p (wakeSleeper now (procs p)))) x l idle := by
        refine hseg.2.congr fun y hy => ?_
        have hyp : y ≠ p := fun h => hp_notMem (List.mem_cons.2 (h ▸ hy))
        simp [nextOf, setProcess_of_ne hyp]
      simp only [wakeLoop, if_neg hp, setProcess_self, wakeSleeper_next, hnext]
      rw [wakeLoop_eq now idle l budget x _ hx hl hnd.tail hrest (by simp at hbudget; omega)]
      congr 1
      funext q
      by_cases hq : q = p
      · subst hq
        have hq' : ¬ (q = x ∨ q ∈ l) := fun h => hp_notMem (List.mem_cons.2 h)
        simp [hq']
      · simp [hq, List.mem_cons]

/-- The descriptors after the wake loop. -/
def woken (s : Scheduler) (p : Nat) : Process :=
  if p ∈ s.members.tail then wakeSleeper s.ticks (s.procs p) else s.procs p

theorem wakeLoop_ring {s : Scheduler} (ring : RingInv s) {budget : Nat}
    (hbudget : s.walkBudget ≤ budget) :
    wakeLoop s.ticks s.idle budget s.procs (s.procs s.idle).next = some s.woken := by
  have hlink := ring.linked
  have hidle := ring.idle_notMem_tail
  have hnd := ring.tail_nodup
  have hlen := ring.tail_length
  unfold walkBudget at hbudget
  unfold woken
  cases htail : s.members.tail with
  | nil =>
      rw [htail] at hlink
      obtain ⟨budget, rfl⟩ : ∃ b, budget = b + 1 := ⟨budget - 1, by omega⟩
      have hnext : (s.procs s.idle).next = s.idle := hlink
      simp [wakeLoop, hnext]
  | cons x l =>
      rw [htail] at hlink hidle hnd hlen
      have hnext : (s.procs s.idle).next = x := hlink.1
      rw [hnext, wakeLoop_eq s.ticks s.idle l _ x s.procs (fun h => hidle (by simp [h]))
        (fun h => hidle (List.mem_cons_of_mem _ h)) hnd hlink.2 (by simp at hlen; omega)]
      congr 1
      funext q
      simp [List.mem_cons]

/-! ### The selection loop -/

/-- Along a segment back to `curr` the selection loop stops at the first process it does not skip,
    or at `curr`. -/
theorem selectLoop_eq (procs : Nat → Process) (curr : Nat) : ∀ (l : List Nat) (budget p : Nat),
    p ≠ curr → curr ∉ l → Seg (nextOf procs) p l curr → l.length + 2 ≤ budget →
    selectLoop procs curr budget p =
      some (((p :: l).find? fun q => ¬ Skipped (procs q)).getD curr)
  | [], budget, p, hp, _, hseg, hbudget => by
      obtain ⟨budget, rfl⟩ : ∃ b, budget = b + 2 := ⟨budget - 2, by simp at hbudget; omega⟩
      have hnext : (procs p).next = curr := hseg
      by_cases hskip : Skipped (procs p)
      · simp [selectLoop, hskip, hp, hnext]
      · simp [selectLoop, hskip]
  | x :: l, budget, p, hp, hcurr, hseg, hbudget => by
      obtain ⟨budget, rfl⟩ : ∃ b, budget = b + 1 := ⟨budget - 1, by simp at hbudget; omega⟩
      have hnext : (procs p).next = x := hseg.1
      by_cases hskip : Skipped (procs p)
      · have ih := selectLoop_eq procs curr l budget x (fun h => hcurr (by simp [h]))
          (fun h => hcurr (List.mem_cons_of_mem _ h)) hseg.2 (by simp at hbudget; omega)
        have hfind : (p :: x :: l).find? (fun q => ¬ Skipped (procs q)) =
            (x :: l).find? fun q => ¬ Skipped (procs q) :=
          List.find?_cons_of_neg (by simp [hskip])
        rw [hfind, ← ih]
        simp [selectLoop, hskip, hp, hnext]
      · simp [selectLoop, hskip]

/-- The process the selection loop stops at, given the descriptors after the wake loop. -/
def chosen (s : Scheduler) : Nat :=
  ((successors s.members s.current).find? fun q => ¬ Skipped (s.woken q)).getD s.current

@[simp] theorem woken_next (s : Scheduler) (p : Nat) : (s.woken p).next = (s.procs p).next := by
  unfold woken
  split <;> simp

theorem successors_length {s : Scheduler} (ring : RingInv s) :
    (successors s.members s.current).length + 1 = s.members.length := by
  obtain ⟨pre, post, hsplit, hpre, -⟩ := exists_split ring.nodup ring.current_mem
  rw [hsplit, successors_of_split hpre]
  simp
  omega

theorem selectLoop_ring {s : Scheduler} (ring : RingInv s) {budget : Nat}
    (hbudget : s.walkBudget ≤ budget) :
    selectLoop s.woken s.current budget (s.woken s.current).next = some s.chosen := by
  have hlink := ring.linked_from ring.current_mem
  have hlen := successors_length ring
  have hcurr : s.current ∉ successors s.members s.current := fun h =>
    ((mem_successors ring.nodup ring.current_mem).1 h).2 rfl
  rw [woken_next]
  unfold walkBudget at hbudget
  unfold chosen
  cases hsucc : successors s.members s.current with
  | nil =>
      rw [hsucc] at hlink
      obtain ⟨budget, rfl⟩ : ∃ b, budget = b + 1 := ⟨budget - 1, by omega⟩
      have hnext : (s.procs s.current).next = s.current := hlink
      simp [selectLoop, hnext]
  | cons x l =>
      rw [hsucc] at hlink hlen hcurr
      have hnext : (s.procs s.current).next = x := hlink.1
      have hseg : Seg (nextOf s.woken) x l s.current :=
        hlink.2.congr fun y _ => by simp [nextOf]
      rw [hnext, selectLoop_eq s.woken s.current l _ x (fun h => hcurr (by simp [h]))
        (fun h => hcurr (List.mem_cons_of_mem _ h)) hseg (by simp at hlen; omega)]

/-- `scheduler_tick` on a ring: wake the sleepers that are due, then switch to the first process in
    the round that is not blocked or dead. -/
theorem schedulerTick_eq {s : Scheduler} (ring : RingInv s) :
    s.schedulerTick = some (switchTo { s with procs := s.woken } s.chosen) := by
  have hcur := ring.ne_null ring.current_mem
  have hnext := ring.ne_null (ring.next_mem ring.current_mem)
  have hguard : ¬ (s.current = 0 ∨ (s.procs s.current).next = 0) := fun h => h.elim hcur hnext
  simp only [schedulerTick, if_neg hguard, wakeLoop_ring ring (Nat.le_refl _), Option.bind_eq_bind,
    Option.bind_some, selectLoop_ring ring (Nat.le_refl _)]

/-! ### The tail search -/

theorem tailLoop_eq (procs : Nat → Process) (idle : Nat) : ∀ (l : List Nat) (budget p : Nat),
    idle ∉ l → Seg (nextOf procs) p l idle → l.length + 1 ≤ budget →
    tailLoop procs idle budget p = some ((p :: l).getLast (by simp))
  | [], budget, p, _, hseg, hbudget => by
      obtain ⟨budget, rfl⟩ : ∃ b, budget = b + 1 := ⟨budget - 1, by simp at hbudget; omega⟩
      have hnext : (procs p).next = idle := hseg
      simp [tailLoop, hnext]
  | x :: l, budget, p, hidle, hseg, hbudget => by
      obtain ⟨budget, rfl⟩ : ∃ b, budget = b + 1 := ⟨budget - 1, by simp at hbudget; omega⟩
      have hnext : (procs p).next = x := hseg.1
      have hx : x ≠ idle := fun h => hidle (by simp [h])
      have ih := tailLoop_eq procs idle l budget x (fun h => hidle (List.mem_cons_of_mem _ h))
        hseg.2 (by simp at hbudget; omega)
      simp [tailLoop, hnext, hx, ih]

/-- The tail search on a ring stops at the last member. It reads nothing but the pointers. -/
theorem tailLoop_ring {s : Scheduler} (ring : RingInv s) (procs : Nat → Process)
    (hnext : ∀ q ∈ s.members, (procs q).next = (s.procs q).next) {budget : Nat}
    (hbudget : s.walkBudget ≤ budget) : tailLoop procs s.idle budget s.idle =
      some ((s.idle :: s.members.tail).getLast (List.cons_ne_nil _ _)) := by
  have hlen := ring.tail_length
  unfold walkBudget at hbudget
  refine tailLoop_eq procs s.idle s.members.tail budget s.idle ring.idle_notMem_tail
    (ring.linked.congr fun q hq => ?_) (by omega)
  exact hnext q (ring.mem_iff.2 hq)

/-- Linking a fresh node in behind the last one. -/
theorem seg_link_tail {procs procs' : Nat → Process} {idle p : Nat} {l : List Nat}
    (hnd : (idle :: l).Nodup) (hfresh : p ∉ idle :: l) (hseg : Seg (nextOf procs) idle l idle)
    (hp : (procs' p).next = idle) (hlast : (procs' ((idle :: l).getLast (by simp))).next = p)
    (hsame : ∀ q ∈ idle :: l, q ≠ (idle :: l).getLast (by simp) →
      (procs' q).next = (procs q).next) :
    Seg (nextOf procs') idle (l ++ [p]) idle := by
  rcases List.eq_nil_or_concat l with rfl | ⟨init, last, hl⟩
  · exact ⟨hlast, hp⟩
  · rw [List.concat_eq_append] at hl
    subst hl
    have hgetLast : (idle :: (init ++ [last])).getLast (by simp) = last := by simp
    rw [hgetLast] at hlast
    rw [hgetLast] at hsame
    have hlast_notMem : last ∉ idle :: init := by
      have h : (idle :: init ++ [last]).Nodup := hnd
      intro hmem
      exact (List.nodup_append.1 h).2.2 last hmem last (by simp) rfl
    obtain ⟨hinit, -⟩ := seg_append.1 hseg
    have hsplit : init ++ [last] ++ [p] = init ++ last :: [p] := by simp
    rw [hsplit]
    refine seg_append.2 ⟨hinit.congr fun q hq => ?_, hlast, hp⟩
    have hq' : q ∈ idle :: init := List.mem_cons.2 hq
    refine hsame q ?_ fun h => hlast_notMem (h ▸ hq')
    rcases hq with rfl | hq
    · exact List.mem_cons_self ..
    · exact List.mem_cons_of_mem _ (List.mem_append_left _ hq)

/-- `scheduler_add` of a fresh process returns. -/
theorem schedulerAdd_returns {s : Scheduler} {p : Nat} (created : Process) (ring : RingInv s)
    (hfresh : p ∉ s.members) :
    ∃ s', { s with procs := setProcess s.procs p created }.schedulerAdd p = some s' := by
  by_cases hp : p = 0
  · exact ⟨_, if_pos hp⟩
  · have htail := tailLoop_ring ring
      (setProcess (setProcess s.procs p created) p { created with state := .ready })
      (fun q hq => by
        have hne : q ≠ p := fun h => hfresh (h ▸ hq)
        simp [hne])
      (Nat.le_refl _)
    have hbudget : ({ s with procs := setProcess s.procs p created } : Scheduler).walkBudget =
      s.walkBudget := rfl
    simp only [schedulerAdd, if_neg hp, setProcess_self, hbudget, htail, Option.bind_eq_bind,
      Option.bind_some, Option.some.injEq, exists_eq']

/-- `scheduler_add` of a fresh process appends it to the ring, ready, and changes nothing else
    except the pointer that now leads to it. -/
theorem schedulerAdd_spec {s s' : Scheduler} {p : Nat} {created : Process} (ring : RingInv s)
    (hp : p ≠ 0) (hfresh : p ∉ s.members)
    (hadd : { s with procs := setProcess s.procs p created }.schedulerAdd p = some s') :
    RingInv s' ∧ s'.members = s.members ++ [p] ∧ s'.current = s.current ∧ s'.idle = s.idle ∧
      s'.ticks = s.ticks ∧ (s'.procs p).state = .ready ∧
      ∀ q ∈ s.members, s'.procs q = { s.procs q with next := (s'.procs q).next } := by
  set readied := setProcess (setProcess s.procs p created) p { created with state := .ready }
    with hreadied
  have hsameReadied : ∀ q ∈ s.members, readied q = s.procs q := fun q hq => by
    have hne : q ≠ p := fun h => hfresh (h ▸ hq)
    simp [hreadied, hne]
  have htail := tailLoop_ring ring readied (fun q hq => by rw [hsameReadied q hq])
    (Nat.le_refl _)
  set last := (s.idle :: s.members.tail).getLast (by simp) with hlast
  have hlast_mem : last ∈ s.members := by
    rw [ring.idle_first]
    exact List.getLast_mem _
  have hlast_ne : last ≠ p := fun h => hfresh (h ▸ hlast_mem)
  have hreadied_p : readied p = { created with state := .ready } := by simp [hreadied]
  have hs' : s' = { s with
      procs := setProcess (setProcess readied p { readied p with next := s.idle }) last
        { readied last with next := p }
      members := s.members ++ [p] } := by
    have h := hadd
    simp only [schedulerAdd, if_neg hp, setProcess_self, ← hreadied] at h
    have hbudget : ({ s with procs := setProcess s.procs p created } : Scheduler).walkBudget =
      s.walkBudget := rfl
    rw [hbudget, htail] at h
    simpa [hlast_ne, hreadied_p] using h.symm
  have hfresh' : p ∉ s.idle :: s.members.tail := by rw [← ring.idle_first]; exact hfresh
  have hnd' : (s.idle :: s.members.tail).Nodup := by rw [← ring.idle_first]; exact ring.nodup
  have hprocs : ∀ q ∈ s.members, q ≠ last → s'.procs q = s.procs q := fun q hq hne => by
    have hqp : q ≠ p := fun h => hfresh (h ▸ hq)
    rw [hs', ← hsameReadied q hq]
    simp [hne, hqp]
  have hprocs_last : s'.procs last = { s.procs last with next := p } := by
    rw [hs', ← hsameReadied last hlast_mem]
    simp
  have hprocs_p : s'.procs p = { created with state := .ready, next := s.idle } := by
    rw [hs']
    simp [hlast_ne.symm, hreadied]
  refine ⟨⟨?_, ?_, ?_, ?_, ?_⟩, by rw [hs'], by rw [hs'], by rw [hs'], by rw [hs'],
    by rw [hprocs_p], fun q hq => ?_⟩
  · rw [hs']
    show s.members ++ [p] = s.idle :: (s.members ++ [p]).tail
    rw [ring.idle_first]
    simp
  · rw [hs']
    exact List.nodup_append.2 ⟨ring.nodup, by simp, fun a ha b hb hab =>
      hfresh (by simp at hb; rw [← hb, ← hab]; exact ha)⟩
  · rw [hs']
    intro h
    rcases List.mem_append.1 h with h | h
    · exact ring.nonnull h
    · exact hp (List.mem_singleton.1 h).symm
  · have htl : s'.members.tail = s.members.tail ++ [p] := by
      rw [hs']
      show (s.members ++ [p]).tail = _
      rw [ring.idle_first]
      simp
    have hidle : s'.idle = s.idle := by rw [hs']
    rw [htl, hidle]
    refine seg_link_tail hnd' hfresh' ring.linked (by rw [hprocs_p]) ?_ fun q hq hne => ?_
    · rw [← hlast, hprocs_last]
    · rw [hprocs q (by rw [ring.idle_first]; exact hq) hne]
  · rw [hs']
    exact List.mem_append_left _ ring.current_mem
  · by_cases hq' : q = last
    · rw [hq', hprocs_last]
    · rw [hprocs q hq hq']

/-! ### The key waiter scan -/

/-- Blocked on the keyboard. -/
def WaitsForKey (p : Process) : Prop := p.state = .blocked ∧ p.waitReason = .key

instance (p : Process) : Decidable (WaitsForKey p) := inferInstanceAs (Decidable (_ ∧ _))

theorem keyWaiterLoop_eq (procs : Nat → Process) (idle : Nat) : ∀ (l : List Nat) (budget p : Nat),
    p ≠ idle → idle ∉ l → Seg (nextOf procs) p l idle → l.length + 2 ≤ budget →
    keyWaiterLoop idle procs budget p =
      some (match (p :: l).find? fun q => WaitsForKey (procs q) with
        | none => procs
        | some q => setProcess procs q { procs q with state := .ready, waitReason := .none })
  | [], budget, p, hp, _, hseg, hbudget => by
      obtain ⟨budget, rfl⟩ : ∃ b, budget = b + 2 := ⟨budget - 2, by simp at hbudget; omega⟩
      have hnext : (procs p).next = idle := hseg
      by_cases hwait : WaitsForKey (procs p)
      · have hwait' : (procs p).state = .blocked ∧ (procs p).waitReason = .key := hwait
        simp [keyWaiterLoop, hp, hwait', WaitsForKey]
      · have hwait' : ¬ ((procs p).state = .blocked ∧ (procs p).waitReason = .key) := hwait
        simp [keyWaiterLoop, hp, hwait', hnext, WaitsForKey]
  | x :: l, budget, p, hp, hidle, hseg, hbudget => by
      obtain ⟨budget, rfl⟩ : ∃ b, budget = b + 1 := ⟨budget - 1, by simp at hbudget; omega⟩
      have hnext : (procs p).next = x := hseg.1
      by_cases hwait : WaitsForKey (procs p)
      · have hwait' : (procs p).state = .blocked ∧ (procs p).waitReason = .key := hwait
        simp [keyWaiterLoop, hp, hwait', WaitsForKey]
      · have hwait' : ¬ ((procs p).state = .blocked ∧ (procs p).waitReason = .key) := hwait
        have ih := keyWaiterLoop_eq procs idle l budget x (fun h => hidle (by simp [h]))
          (fun h => hidle (List.mem_cons_of_mem _ h)) hseg.2 (by simp at hbudget; omega)
        have hfind : (p :: x :: l).find? (fun q => WaitsForKey (procs q)) =
            (x :: l).find? fun q => WaitsForKey (procs q) :=
          List.find?_cons_of_neg (by simp [hwait])
        rw [hfind, ← ih]
        simp [keyWaiterLoop, hp, hwait', hnext]

/-- The process `scheduler_wake_key_waiter` makes ready, if any. -/
def keyWaiter (s : Scheduler) : Option Nat :=
  s.members.tail.find? fun q => WaitsForKey (s.procs q)

/-- The state in which that process is ready. -/
def keyWoken (s : Scheduler) : Scheduler :=
  match s.keyWaiter with
  | none => s
  | some q => { s with
      procs := setProcess s.procs q { s.procs q with state := .ready, waitReason := .none } }

/-- The scan stops at the first waiter, in the order added. -/
theorem keyWaiterLoop_ring {s : Scheduler} (ring : RingInv s) {budget : Nat}
    (hbudget : s.walkBudget ≤ budget) :
    keyWaiterLoop s.idle s.procs budget (s.procs s.idle).next = some s.keyWoken.procs := by
  have hlink := ring.linked
  have hidle := ring.idle_notMem_tail
  have hlen := ring.tail_length
  unfold walkBudget at hbudget
  unfold keyWoken keyWaiter
  cases htail : s.members.tail with
  | nil =>
      rw [htail] at hlink
      obtain ⟨budget, rfl⟩ : ∃ b, budget = b + 1 := ⟨budget - 1, by omega⟩
      have hnext : (s.procs s.idle).next = s.idle := hlink
      simp [keyWaiterLoop, hnext]
  | cons x l =>
      rw [htail] at hlink hidle hlen
      have hnext : (s.procs s.idle).next = x := hlink.1
      rw [hnext, keyWaiterLoop_eq s.procs s.idle l _ x (fun h => hidle (by simp [h]))
        (fun h => hidle (List.mem_cons_of_mem _ h)) hlink.2 (by simp at hlen; omega)]
      cases (x :: l).find? fun q => WaitsForKey (s.procs q) with
      | none => rfl
      | some q => rfl

/-- `scheduler_wake_key_waiter` on a ring: the first waiter is made ready. -/
theorem schedulerWakeKeyWaiter_eq {s : Scheduler} (ring : RingInv s) :
    s.schedulerWakeKeyWaiter = some s.keyWoken := by
  unfold schedulerWakeKeyWaiter
  rw [keyWaiterLoop_ring ring (Nat.le_refl _)]
  unfold keyWoken
  cases s.keyWaiter with
  | none => rfl
  | some q => rfl

end CustomKernel.Scheduler
