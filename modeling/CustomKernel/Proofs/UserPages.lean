/-
Module: CustomKernel.Proofs.UserPages
Layer: Proofs
Purpose: The loop that backs pages with fresh frames, as one statement for all its callers: which
  pages it mapped, to which frames, and what it left alone. The pages it got to are the first ones
  of its range, at most as many as there were free frames.
Imports: CustomKernel.Proofs.PageTables
Trusted boundary: none (fully proved)
Main exports: Backed, PagesMapped, mapFreshPages_spec, mapFreshPages_ok, translate_leaf,
  translate_owned
-/
import CustomKernel.Proofs.PageTables

namespace CustomKernel.Memory

section Labelled

variable {ownerOf : Word → Nat → Option Word} {tag : Word → Option Label} {s s' : Vmm}
  {pml4 flags : Word} {virt : Nat → Word}

/-- The page of `virt` is mapped to a frame that carries its label. -/
def Backed (ownerOf : Word → Nat → Option Word) (pml4 flags : Word) (tag : Word → Option Label)
    (s : Vmm) (virt : Word) : Prop :=
  ∃ n < totalFrames, tag (frameAddr n) = some (slot ownerOf pml4 virt 0) ∧
    ∀ v, walkPath v = walkPath virt →
      Widened (some (leafTranslation v (frameAddr n ||| flags ||| ptePresent) 12))
        (translate s.mem pml4 v)

/-- A page stays backed while its translation is only widened and labels are only added. -/
theorem Backed.mono {tag' : Word → Option Label} {v : Word} (h : Backed ownerOf pml4 flags tag s v)
    (hext : Extends tag tag')
    (hwide : ∀ w, walkPath w = walkPath v →
      Widened (translate s.mem pml4 w) (translate s'.mem pml4 w)) :
    Backed ownerOf pml4 flags tag' s' v := by
  obtain ⟨n, hn, htag, htr⟩ := h
  exact ⟨n, hn, hext _ _ htag, fun w hw => (htr w hw).trans (hwide w hw)⟩

/-- What the loop did to the machine: it mapped the pages `virt i .. virt (i + m - 1)`. -/
structure PagesMapped (ownerOf : Word → Nat → Option Word) (pml4 : Word) (virt : Nat → Word)
    (flags : Word) (i m : Nat) (tag : Word → Option Label) (s : Vmm)
    (tag' : Word → Option Label) (s' : Vmm) (frames : List Word) : Prop where
  tagged : Tagged ownerOf tag' s'
  ext : Extends tag tag'
  cr3 : s'.cr3 = s.cr3
  counted : s.pmm.Counted → s'.pmm.Counted
  card : s'.pmm.freeSet.card + m ≤ s.pmm.freeSet.card
  roots : ∀ {u}, tag' u = some .root → tag u = some .root
  pages : ∀ {u l}, tag' u = some l → l.level = 0 → tag u = some l ∨ u ∈ frames
  frames : ∀ {u}, u ∈ frames → ∃ k < m, tag' u = some (slot ownerOf pml4 (virt (i + k)) 0)
  owned : ∀ {window}, OwnedLeaves ownerOf window tag s → OwnedLeaves ownerOf window tag' s'
  rootEntries : ∀ {u j}, tag u = some .root → (u = pml4 → ∀ k < m, j ≠ pml4Index (virt (i + k))) →
    s'.mem u j = s.mem u j
  off : ∀ {other v}, tag other = some .root →
    (∀ k < m, ownerOf pml4 (pml4Index (virt (i + k))) ≠ ownerOf other (pml4Index v)) →
    translate s'.mem other v = translate s.mem other v
  widened : ∀ {other v}, tag other = some .root →
    (∀ k < m, ownerOf pml4 (pml4Index (virt (i + k))) ≠ ownerOf other (pml4Index v) ∨
      walkPath v ≠ walkPath (virt (i + k))) →
    Widened (translate s.mem other v) (translate s'.mem other v)
  backed : ∀ k < m, (∀ k' < m, k < k' → walkPath (virt (i + k)) ≠ walkPath (virt (i + k'))) →
    Backed ownerOf pml4 flags tag' s' (virt (i + k))

/-- A loop over no pages. -/
theorem PagesMapped.none (h : Tagged ownerOf tag s) (i : Nat) :
    PagesMapped ownerOf pml4 virt flags i 0 tag s tag s [] where
  tagged := h
  ext _ _ ht := ht
  cr3 := rfl
  counted hc := hc
  card := by omega
  roots hu := hu
  pages hu _ := .inl hu
  frames hu := by cases hu
  owned h := h
  rootEntries _ _ := rfl
  off _ _ := rfl
  widened _ _ := .refl _
  backed k hk := by cases hk

/-- The first page, then the others. -/
theorem PagesMapped.cons {i m n : Nat} {tag₁ tag' : Word → Option Label} {s₁ : Vmm}
    {frames : List Word} (h : Tagged ownerOf tag s) (hroot : tag pml4 = some .root)
    (hflags : entryAddr flags = 0#64) (hn : n ∈ s.pmm.freeSet)
    (first : Mapped ownerOf pml4 (virt i) (frameAddr n ||| flags ||| ptePresent)
      (Function.update tag (frameAddr n) (some (slot ownerOf pml4 (virt i) 0)))
      { s with pmm := reserveFrame n s.pmm } tag₁ s₁)
    (rest : PagesMapped ownerOf pml4 virt flags (i + 1) m tag₁ s₁ tag' s' frames) :
    PagesMapped ownerOf pml4 virt flags i (m + 1) tag s tag' s' (frameAddr n :: frames) := by
  have hlt := (mem_freeSet.1 hn).1
  have hlevel : (slot ownerOf pml4 (virt i) 0).level = 0 := level_slot _ _ (by decide)
  have hnone := h.free_unlabelled hn
  have hext := @extends_update _ _ (slot ownerOf pml4 (virt i) 0) hnone
  have hext₁ := hext.trans first.ext
  have hself : tag₁ (frameAddr n) = some (slot ownerOf pml4 (virt i) 0) :=
    first.ext _ _ (Function.update_self ..)
  have hshift : ∀ k, virt (i + (k + 1)) = virt (i + 1 + k) := fun k => by
    rw [Nat.add_assoc, Nat.add_comm 1 k]
  have hleaf : entryAddr (frameAddr n ||| flags ||| ptePresent) = frameAddr n := by
    simp [entryAddr_frameAddr hlt, hflags]
  refine ⟨rest.tagged, hext₁.trans rest.ext, rest.cr3.trans first.cr3,
    fun hc => rest.counted (first.counted (Counted.reserveFrame hc hn)), ?_, ?_, ?_, ?_, ?_, ?_, ?_,
    ?_, ?_⟩
  · have hsub := Finset.card_le_card first.free
    simp only [freeSet_reserveFrame, Finset.card_erase_of_mem hn] at hsub
    have hpos : 0 < s.pmm.freeSet.card := Finset.card_pos.2 ⟨n, hn⟩
    have := rest.card
    omega
  · intro u hu
    have hu₁ := rest.roots hu
    cases hold : Function.update tag (frameAddr n) (some (slot ownerOf pml4 (virt i) 0)) u with
    | none => exact absurd (first.fresh hu₁ hold).2 (by decide)
    | some l =>
        have hl := first.ext _ _ hold
        rw [hu₁] at hl
        cases hl
        by_cases hnew : u = frameAddr n
        · rw [hnew, Function.update_self] at hold
          cases hold
        · rwa [Function.update_of_ne hnew] at hold
  · intro u l hu hzero
    rcases rest.pages hu hzero with hu₁ | hmem
    · by_cases hnew : u = frameAddr n
      · exact .inr (by simp [hnew])
      · left
        cases hold : Function.update tag (frameAddr n) (some (slot ownerOf pml4 (virt i) 0)) u with
        | none =>
            have := (first.fresh hu₁ hold).1
            omega
        | some l' =>
            have hl := first.ext _ _ hold
            rw [hu₁] at hl
            cases hl
            rwa [Function.update_of_ne hnew] at hold
    · exact .inr (List.mem_cons_of_mem _ hmem)
  · intro u hu
    rcases List.mem_cons.1 hu with rfl | hmem
    · exact ⟨0, Nat.succ_pos m, rest.ext _ _ hself⟩
    · obtain ⟨k, hk, htag⟩ := rest.frames hmem
      exact ⟨k + 1, Nat.succ_lt_succ hk, by rw [hshift]; exact htag⟩
  · intro window hown
    refine rest.owned ((hown.label_page h hn hlevel).mapped first (.inl ?_))
    rw [hleaf, Function.update_self]
  · intro u j hu hj
    rw [rest.rootEntries (hext₁ _ _ hu) fun heq k hk => by
      have := hj heq (k + 1) (Nat.succ_lt_succ hk)
      rwa [hshift] at this]
    exact first.roots (hext _ _ hu) fun hhit => hj hhit.1 0 (Nat.succ_pos m) hhit.2
  · intro other v hother hne
    rw [rest.off (hext₁ _ _ hother) fun k hk => by
      have := hne (k + 1) (Nat.succ_lt_succ hk)
      rwa [hshift] at this]
    exact first.off (hext _ _ hother) (hne 0 (Nat.succ_pos m))
  · intro other v hother hne
    refine (first.widened (hext _ _ hother) (hne 0 (Nat.succ_pos m))).trans
      (rest.widened (hext₁ _ _ hother) fun k hk => ?_)
    have := hne (k + 1) (Nat.succ_lt_succ hk)
    rwa [hshift] at this
  · intro k hk hlater
    cases k with
    | zero =>
        -- the first page, which the others leave alone
        refine @Backed.mono _ tag₁ s₁ _ _ _ _ _ ⟨n, hlt, hself, fun v hv => ?_⟩ rest.ext
          fun w hw => rest.widened (hext₁ _ _ hroot) fun k hk => .inr ?_
        · rw [first.self hv]
          exact .refl _
        · have := hlater (k + 1) (Nat.succ_lt_succ hk) (Nat.succ_pos k)
          rw [hshift] at this
          exact fun heq => this (hw.symm.trans heq)
    | succ k =>
        rw [hshift]
        refine rest.backed k (Nat.lt_of_succ_lt_succ hk) fun k' hk' hlt' => ?_
        have := hlater (k' + 1) (Nat.succ_lt_succ hk') (Nat.succ_lt_succ hlt')
        rwa [hshift, hshift] at this

/-- The loop maps the first pages of its range, all of them if it gets through. -/
theorem mapFreshPages_spec (hflags : entryAddr flags = 0#64) :
    ∀ (count i : Nat) (tag : Word → Option Label) (s : Vmm) (out : FreshPages),
      Tagged ownerOf tag s → tag pml4 = some .root →
      mapFreshPages pml4 virt flags count i s = .ok out →
      ∃ m ≤ count, (out.complete = true → m = count) ∧
        ∃ tag', PagesMapped ownerOf pml4 virt flags i m tag s tag' out.vmm out.frames
  | 0, i, tag, s, out, h, hroot, hok => by
      cases hok
      exact ⟨0, Nat.le_refl 0, fun _ => rfl, tag, .none h i⟩
  | count + 1, i, tag, s, out, h, hroot, hok => by
      unfold mapFreshPages at hok
      rcases pmmAlloc_spec s.pmm with ⟨hnull, -⟩ | ⟨n, hn, -, halloc⟩
      · simp only [hnull, if_true] at hok
        cases hok
        exact ⟨0, Nat.zero_le _, fun hc => (nomatch hc), tag, .none h i⟩
      · have hne : n * pageSize ≠ 0 :=
          Nat.mul_ne_zero (by have := h.free n hn; omega) (by decide)
        simp only [halloc, hne, if_false, frameAddr_eq_pointer] at hok
        obtain ⟨s₁, hmap, hok⟩ := Loops.bind_ok hok
        obtain ⟨rest, hrest, hout⟩ := Loops.bind_ok hok
        cases hout
        have hlevel : (slot ownerOf pml4 (virt i) 0).level = 0 := level_slot _ _ (by decide)
        have hext := @extends_update _ _ (slot ownerOf pml4 (virt i) 0) (h.free_unlabelled hn)
        obtain ⟨tag₁, first⟩ := vmmMapIn_spec (h.label_page hn (by omega)) (hext _ _ hroot) hmap
        obtain ⟨m, hm, hcomplete, tag', hpages⟩ := mapFreshPages_spec hflags count (i + 1) tag₁ s₁
          rest first.tagged (first.ext _ _ (hext _ _ hroot)) hrest
        exact ⟨m + 1, Nat.succ_le_succ hm, fun hc => by rw [hcomplete hc], tag',
          .cons h hroot hflags hn first hpages⟩

/-- The loop gets through when there are frames for the pages and their tables and none of the
    pages lies in the identity map. -/
theorem mapFreshPages_ok :
    ∀ (count i : Nat) (tag : Word → Option Label) (s : Vmm),
      Tagged ownerOf tag s → tag pml4 = some .root → 4 * count ≤ s.pmm.freeSet.card →
      (∀ j, i ≤ j → j < i + count → ¬ (pml4Index (virt j) = 0 ∧ pdptIndex (virt j) = 0)) →
      ∃ out, mapFreshPages pml4 virt flags count i s = .ok out ∧ out.complete = true ∧
        s.pmm.freeSet.card ≤ out.vmm.pmm.freeSet.card + 4 * count
  | 0, i, tag, s, h, hroot, hfree, hvirt => ⟨_, rfl, rfl, Nat.le_add_right _ _⟩
  | count + 1, i, tag, s, h, hroot, hfree, hvirt => by
      rcases pmmAlloc_spec s.pmm with ⟨-, hempty⟩ | ⟨n, hn, -, halloc⟩
      · rw [hempty, Finset.card_empty] at hfree
        omega
      have hne : n * pageSize ≠ 0 :=
        Nat.mul_ne_zero (by have := h.free n hn; omega) (by decide)
      have hlevel : (slot ownerOf pml4 (virt i) 0).level = 0 := level_slot _ _ (by decide)
      have hext := @extends_update _ _ (slot ownerOf pml4 (virt i) 0) (h.free_unlabelled hn)
      have hcard : (reserveFrame n s.pmm).freeSet.card = s.pmm.freeSet.card - 1 := by
        rw [freeSet_reserveFrame, Finset.card_erase_of_mem hn]
      obtain ⟨s₁, hmap, hleft⟩ := vmmMapIn_ok (frameAddr n) flags (h.label_page hn (by omega))
        (hext _ _ hroot) (show 3 ≤ (reserveFrame n s.pmm).freeSet.card by omega)
        (hvirt i (Nat.le_refl i) (by omega))
      replace hleft : (reserveFrame n s.pmm).freeSet.card ≤ s₁.pmm.freeSet.card + 3 := hleft
      obtain ⟨tag₁, first⟩ := vmmMapIn_spec (h.label_page hn (by omega)) (hext _ _ hroot) hmap
      obtain ⟨rest, hrest, hcomplete, hcard'⟩ := mapFreshPages_ok count (i + 1) tag₁ s₁ first.tagged
        (first.ext _ _ (hext _ _ hroot)) (by omega) fun j hj hlt => hvirt j (by omega) (by omega)
      refine ⟨{ rest with frames := frameAddr n :: rest.frames }, ?_, hcomplete, ?_⟩
      · unfold mapFreshPages
        simp only [halloc, hne, if_false, frameAddr_eq_pointer]
        rw [hmap]
        show (mapFreshPages pml4 virt flags count (i + 1) s₁ >>= _) = _
        rw [hrest]
        rfl
      · show s.pmm.freeSet.card ≤ rest.vmm.pmm.freeSet.card + 4 * (count + 1)
        omega

/-! ### What a walk finds outside the identity map -/

/-- The place a 4KB leaf entry leads to. -/
theorem entryAddr_leaf_phys {leaf : Word} (h : (entryAddr leaf).toNat < 2 ^ 52) (v : Word) :
    entryAddr (leafTranslation v leaf 12).phys = entryAddr leaf := by
  have hmask : offsetMask 12 = 0xFFF#64 := by decide
  have hlow : entryAddr (v &&& 0xFFF#64) = 0#64 := by
    rw [entryAddr, BitVec.and_assoc, show 0xFFF#64 &&& ~~~0xFFF#64 = 0#64 from by decide,
      BitVec.and_zero]
  have hidem : ∀ x : Word, entryAddr (entryAddr x) = entryAddr x := by
    intro x
    rw [entryAddr, entryAddr, BitVec.and_assoc, BitVec.and_self]
  show entryAddr ((pteAddr leaf &&& ~~~offsetMask 12) ||| (v &&& offsetMask 12)) = _
  rw [pteAddr_eq_entryAddr h, hmask, entryAddr_or, hlow, BitVec.or_zero]
  show entryAddr (entryAddr (entryAddr leaf)) = _
  rw [hidem, hidem]

/-- A walk outside the identity map meets no huge page: it ends in a page table. -/
theorem Tagged.mmuWalk_leaf (h : Tagged ownerOf tag s) {v : Word}
    (hv : ¬ (pml4Index v = 0 ∧ pdptIndex v = 0))
    {level : Nat} {table : Word} {tr : Translation} (hle : level ≤ 3)
    (htable : tag table = some (slot ownerOf pml4 v level))
    (htr : mmuWalk s.mem v level table = some tr) :
    ∃ pt, tag pt = some (slot ownerOf pml4 v 1) ∧ tr.leaf = s.mem pt (ptIndex v) ∧
      hasFlag tr.leaf ptePresent = true ∧ tr.phys = (leafTranslation v tr.leaf 12).phys := by
  induction level generalizing table tr with
  | zero => cases htr
  | succ level ih =>
      cases hp : hasFlag (s.mem table (tableIndex (12 + 9 * level) v)) ptePresent with
      | false =>
          rw [mmuWalk_absent hp] at htr
          cases htr
      | true =>
          by_cases hzero : level = 0
          · subst hzero
            have hleaf : mmuWalk s.mem v 1 table = some (leafTranslation v
                (s.mem table (tableIndex (12 + 9 * 0) v)) 12) := by
              rw [mmuWalk]
              simp only [hp]
              rfl
            rw [hleaf] at htr
            cases htr
            exact ⟨table, htable, rfl, hp, rfl⟩
          · have hlevel := @level_slot ownerOf pml4 v (level + 1) (by omega)
            have hh : hasFlag (s.mem table (tableIndex (12 + 9 * level) v)) pteHuge = false := by
              by_contra hhuge
              rw [Bool.not_eq_false] at hhuge
              obtain ⟨owner, hbad⟩ := h.huge htable (by omega) (tableIndex_lt _ v) hp hhuge
              -- the identity map is below PML4 index 0
              have htwo : level + 1 = 2 := by
                rw [hbad] at hlevel
                exact hlevel.symm
              have hone : level = 1 := by omega
              subst hone
              simp only [slot, walkPath, List.drop_succ_cons, List.drop_zero, Label.node.injEq,
                List.cons.injEq, and_true] at hbad
              exact hv ⟨hbad.2.2, hbad.2.1⟩
            have hchild := h.child htable (by omega) (tableIndex_lt (12 + 9 * level) v) hp hh
            rw [child_slot _ _ _ (by omega)] at hchild
            obtain ⟨n, hn, -, -, hframe⟩ := h.frame hchild
            rw [mmuWalk_down hzero hp hh (pteAddr_of_frame hn hframe)] at htr
            rw [hframe] at hchild
            cases hrec : mmuWalk s.mem v level (frameAddr n) with
            | none =>
                rw [hrec] at htr
                cases htr
            | some below =>
                rw [hrec] at htr
                cases htr
                have hbelow := ih (by omega) hchild hrec
                exact hbelow

/-- A page outside the identity map is translated by an entry of the page table on its path. -/
theorem Tagged.translate_leaf (h : Tagged ownerOf tag s) (hroot : tag pml4 = some .root) {v : Word}
    (hv : ¬ (pml4Index v = 0 ∧ pdptIndex v = 0)) {tr : Translation}
    (htr : translate s.mem pml4 v = some tr) :
    ∃ pt, tag pt = some (slot ownerOf pml4 v 1) ∧ tr.leaf = s.mem pt (ptIndex v) ∧
      hasFlag tr.leaf ptePresent = true ∧ tr.phys = (leafTranslation v tr.leaf 12).phys := by
  rw [translate, h.pteAddr_eq hroot] at htr
  have hidx := tableIndex_lt (12 + 9 * 3) v
  cases hp : hasFlag (s.mem pml4 (tableIndex (12 + 9 * 3) v)) ptePresent with
  | false =>
      rw [mmuWalk_absent hp] at htr
      cases htr
  | true =>
      have hh : hasFlag (s.mem pml4 (tableIndex (12 + 9 * 3) v)) pteHuge = false := by
        by_contra hhuge
        rw [Bool.not_eq_false] at hhuge
        obtain ⟨owner, hbad⟩ := h.huge hroot (by decide) hidx hp hhuge
        cases hbad
      have hchild : tag (entryAddr (s.mem pml4 (tableIndex (12 + 9 * 3) v))) =
          some (slot ownerOf pml4 v 3) := h.child hroot (by decide) hidx hp hh
      obtain ⟨n, hn, -, -, hframe⟩ := h.frame hchild
      rw [mmuWalk_down (by decide) hp hh (pteAddr_of_frame hn hframe)] at htr
      rw [hframe] at hchild
      cases hrec : mmuWalk s.mem v 3 (frameAddr n) with
      | none =>
          rw [hrec] at htr
          cases htr
      | some below =>
          rw [hrec] at htr
          cases htr
          have hbelow := h.mmuWalk_leaf hv (Nat.le_refl 3) hchild hrec
          exact hbelow

/-- Above PML4 index 0 an address space maps frames with the page's own label and the window. -/
theorem Tagged.translate_owned (h : Tagged ownerOf tag s) {window : Word → Prop}
    (hown : OwnedLeaves ownerOf window tag s) (hroot : tag pml4 = some .root) {v : Word}
    (hv : 1 ≤ pml4Index v) {tr : Translation} (htr : translate s.mem pml4 v = some tr) :
    (tag (entryAddr tr.leaf) = some (slot ownerOf pml4 v 0) ∨ window (entryAddr tr.leaf)) ∧
      tr.phys = (leafTranslation v tr.leaf 12).phys := by
  obtain ⟨pt, hpt, hleaf, hpresent, hphys⟩ := h.translate_leaf hroot (by omega) htr
  refine ⟨?_, hphys⟩
  have howned := hown pt _ (ptIndex v) hpt (level_slot _ _ (by decide)) (tableIndex_lt _ _)
    (hleaf ▸ hpresent)
  rw [← hleaf, show (slot ownerOf pml4 v 1).child ownerOf pt (ptIndex v) =
    slot ownerOf pml4 v 0 from child_slot pml4 v pt (by decide)] at howned
  exact howned

/-- Ring 3 needs the leaf's permission. -/
theorem user_leaf {mem : PhysMem} {v : Word} :
    ∀ {level : Nat} {table : Word} {tr : Translation}, mmuWalk mem v level table = some tr →
      tr.user = true → hasFlag tr.leaf pteUser = true
  | 0, _, _, h, _ => by cases h
  | level + 1, table, tr, h, huser => by
      rw [mmuWalk] at h
      split at h
      · cases h
      · split at h
        · cases h
          exact huser
        · split at h
          · split at h
            · cases h
            · cases h
              exact huser
          · cases hrec : mmuWalk mem v level
                (pteAddr (mem table (tableIndex (12 + 9 * level) v))) with
            | none =>
                rw [hrec] at h
                cases h
            | some below =>
                rw [hrec] at h
                cases h
                have hbelow := user_leaf hrec (Bool.and_eq_true_iff.1 huser).2
                exact hbelow

end Labelled

end CustomKernel.Memory
