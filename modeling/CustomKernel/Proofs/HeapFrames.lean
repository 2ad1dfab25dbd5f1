/-
Module: CustomKernel.Proofs.HeapFrames
Layer: Proofs
Purpose: Where the frames go that `sbrk`, `brk` and `mmap` take. A descent of `vmm_map` links in every
  table it creates and keeps every reference there was; the frame for the page is referenced by the
  entry that is written last. So no frame is lost where that entry was empty. The calls do not look
  at it: a break that was lowered and is raised again maps pages that are still mapped, and the
  frames these were mapped to are referenced no more.
Imports: CustomKernel.Proofs.FrameOwnership, CustomKernel.Proofs.LoaderRuns
Trusted boundary: as in SystemRuns: the kernel heap, the descriptors and the archive are beside
  physical memory
Main exports: Attached, vmmMap_attached, mapFreshPages_attached, Attached.userCall,
  heap_frames_kept, heap_frame_lost
-/
import CustomKernel.Proofs.FrameOwnership
import CustomKernel.Proofs.LoaderRuns

namespace CustomKernel

open Memory Filesystem Syscall Loops StepSystem

/-! ### Frames that stay referenced -/

/-- The references below `pml4` stay, and every frame that is taken is referenced below `pml4`. -/
structure Attached (pml4 : Word) (s s' : Vmm) : Prop where
  kept : ∀ {path table i frame}, References s.mem (· = pml4) path table i frame →
    References s'.mem (· = pml4) path table i frame
  taken : ∀ n ∈ s.pmm.freeSet, n ∉ s'.pmm.freeSet →
    ∃ path table i, References s'.mem (· = pml4) path table i (frameAddr n)

section Attach

variable {tag tag' : Word → Option Label} {s s' s'' : Vmm} {pml4 virt table next : Word}
  {path : List Nat} {i : Nat}

theorem Attached.refl (pml4 : Word) (s : Vmm) : Attached pml4 s s :=
  ⟨fun r => r, fun _ hn hn' => absurd hn hn'⟩

theorem Attached.trans (h : Attached pml4 s s') (h' : Attached pml4 s' s'') :
    Attached pml4 s s'' := by
  refine ⟨fun r => h'.kept (h.kept r), fun n hn hused => ?_⟩
  by_cases hmid : n ∈ s'.pmm.freeSet
  · exact h'.taken n hmid hused
  · obtain ⟨path, table, i, r⟩ := h.taken n hn hmid
    exact ⟨path, table, i, h'.kept r⟩

theorem pteAddr_congr {e e' : Word} (h : entryAddr e' = entryAddr e) : pteAddr e' = pteAddr e := by
  have hmask : ∀ x : Word, pteAddr x = entryAddr x &&& 0x000FFFFFFFFFF000#64 := by
    intro x
    rw [entryAddr, BitVec.and_assoc]
    rfl
  rw [hmask, hmask, h]

/-- A table that is reached is labelled. -/
theorem Reaches.labelled (h : Reaches s.mem (· = pml4) path table)
    (htagged : Tagged privateOwner tag s) (hroot : tag pml4 = some .root) :
    ∃ label, tag table = some label := by
  rcases h.label htagged (fun p hp => hp ▸ hroot) with ⟨-, hlabel⟩ | ⟨-, owner, hlabel⟩
  · exact ⟨_, hlabel⟩
  · exact ⟨_, hlabel⟩

/-- A descent keeps the way to every table. -/
theorem Reaches.grow (h : Reaches s.mem (· = pml4) path table)
    (htagged : Tagged privateOwner tag s) (hroot : tag pml4 = some .root)
    (grow : Grow privateOwner pml4 virt tag s tag' s') : Reaches s'.mem (· = pml4) path table := by
  induction h with
  | root hp => exact .root hp
  | @next path table i hup hlt hi hp hh ih =>
      obtain ⟨label, hlabel⟩ := hup.labelled htagged hroot
      obtain ⟨haddr, hp', hh'⟩ := grow.kept hlabel hp
      rw [← pteAddr_congr haddr]
      exact .next ih hlt hi hp' (hh'.trans hh)

/-- A descent keeps every reference. -/
theorem References.grow {frame : Word} (r : References s.mem (· = pml4) path table i frame)
    (htagged : Tagged privateOwner tag s) (hroot : tag pml4 = some .root)
    (grow : Grow privateOwner pml4 virt tag s tag' s') :
    References s'.mem (· = pml4) path table i frame := by
  obtain ⟨label, hlabel⟩ := r.reached.labelled htagged hroot
  obtain ⟨haddr, hp, hh⟩ := grow.kept hlabel r.present
  exact ⟨r.reached.grow htagged hroot grow, r.index, hp, fun hlt => hh.trans (r.small hlt),
    (pteAddr_congr haddr).trans r.target⟩

/-- One level of a descent reaches the table it returns; a frame that it takes is this table. -/
theorem Attached.getOrCreateTable {label : Label} (htagged : Tagged privateOwner tag s)
    (hroot : tag pml4 = some .root) (hreach : Reaches s.mem (· = pml4) path table)
    (hlen : path.length < 3) (ht : tag table = some label) (hl : 2 ≤ label.level)
    (hon : OnPath privateOwner pml4 virt table label i) (hi : i < 512)
    (hok : Memory.getOrCreateTable s table i (pteWritable ||| pteUser) = .ok (s', next)) :
    Attached pml4 s s' ∧ Reaches s'.mem (· = pml4) (i :: path) next := by
  obtain ⟨tag', grow, -, hnext⟩ := htagged.grow pml4 virt ht hl hon hok
  obtain ⟨hp, hh, -, -, haddr⟩ := getOrCreateTable_entry hok
  obtain ⟨m, hm, -, -, hframe⟩ := grow.tagged.frame hnext
  have hpte : pteAddr (s'.mem table i) = next := by
    rw [pteAddr_of_frame hm (haddr.trans hframe), hframe]
  have hreach' := hreach.grow htagged hroot grow
  refine ⟨⟨fun r => r.grow htagged hroot grow, fun n hn hused => ?_⟩, ?_⟩
  · refine ⟨path, table, i, hreach', hi, hp, fun _ => hh, ?_⟩
    rw [hpte]
    rcases getOrCreateTable_cases hok with ⟨-, -, -, rfl⟩ | ⟨-, n', hn', hfresh, rfl⟩
    · exact absurd hn hused
    · have heq : n = n' := by
        by_contra hne
        exact hused (by simp [hne, hn])
      rw [hfresh, heq]
  · rw [← hpte]
    exact .next hreach' hlen hi hp hh

/-- Where the way to a table goes along the indices of `v`, the walk of `v` ends as its rest from
    this table on does. -/
theorem Reaches.walk_leaf {mem : PhysMem} {v : Word} (h : Reaches mem (· = pml4) path table) :
    path = (walkPath v).drop (4 - path.length) →
    (mmuWalk mem v 4 pml4).map Translation.leaf =
      (mmuWalk mem v (4 - path.length) table).map Translation.leaf := by
  induction h with
  | root hp =>
      intro _
      obtain rfl := hp
      rfl
  | @next path table i hup hlt hi hp hh ih =>
      intro hpath
      have hcases : path.length = 0 ∨ path.length = 1 ∨ path.length = 2 := by omega
      rw [List.length_cons] at hpath ⊢
      have hlevel : 4 - path.length = (4 - (path.length + 1)) + 1 := by omega
      have hindex : tableIndex (12 + 9 * (4 - (path.length + 1))) v = i ∧
          path = (walkPath v).drop (4 - path.length) := by
        rcases hcases with hlen | hlen | hlen <;> rw [hlen] at hpath ⊢ <;>
          exact ⟨(List.cons.inj hpath).1.symm, (List.cons.inj hpath).2⟩
      have hdown := @mmuWalk_down table mem v (pteAddr (mem table i)) (4 - (path.length + 1))
        (by omega) (by rw [hindex.1]; exact hp) (by rw [hindex.1]; exact hh) (by rw [hindex.1])
      rw [ih hindex.2, hlevel, hdown, Option.map_map]
      rfl

/-- The last level of a walk. -/
theorem mmuWalk_page {mem : PhysMem} {v : Word} (hp : hasFlag (mem table (ptIndex v)) ptePresent = true) :
    (mmuWalk mem v 1 table).map Translation.leaf = some (mem table (ptIndex v)) := by
  rw [mmuWalk]
  simp only [show tableIndex (12 + 9 * 0) v = ptIndex v from rfl, hp, Bool.not_true,
    Bool.false_eq_true, if_false]
  rfl

/-- A store to an empty entry keeps the way to every table. -/
theorem Reaches.store {mem : PhysMem} {pt value : Word} {j : Nat}
    (h : Reaches mem (· = pml4) path table) (hempty : hasFlag (mem pt j) ptePresent = false) :
    Reaches (mem.store pt j value) (· = pml4) path table := by
  induction h with
  | root hp => exact .root hp
  | @next path table i hup hlt hi hp hh ih =>
      have hother : mem.store pt j value table i = mem table i := by
        apply PhysMem.store_other
        rintro ⟨rfl, rfl⟩
        rw [hempty] at hp
        cases hp
      rw [← hother] at hp hh ⊢
      exact .next ih hlt hi hp hh

theorem References.store {mem : PhysMem} {pt value frame : Word} {j : Nat}
    (r : References mem (· = pml4) path table i frame)
    (hempty : hasFlag (mem pt j) ptePresent = false) :
    References (mem.store pt j value) (· = pml4) path table i frame := by
  have hother : mem.store pt j value table i = mem table i := by
    apply PhysMem.store_other
    rintro ⟨rfl, rfl⟩
    have hp := r.present
    rw [hempty] at hp
    cases hp
  exact ⟨r.reached.store hempty, r.index, hother ▸ r.present, fun hlt => hother ▸ r.small hlt,
    hother ▸ r.target⟩

/-- `vmm_map` of a page that is not mapped. -/
theorem vmmMap_attached {phys flags : Word} (h : Tagged privateOwner tag s) (hcr3 : s.cr3 = pml4)
    (hroot : tag pml4 = some .root) (hnone : translate s.mem pml4 virt = none)
    (hok : vmmMap s virt phys flags = .ok s') :
    Attached pml4 s s' ∧ ∃ path table i,
      References s'.mem (· = pml4) path table i (pteAddr (phys ||| flags ||| ptePresent)) := by
  unfold vmmMap at hok
  obtain ⟨⟨s₁, pdpt⟩, hok₁, hok⟩ := bind_ok hok
  obtain ⟨⟨s₂, pd⟩, hok₂, hok⟩ := bind_ok hok
  obtain ⟨⟨s₃, pt⟩, hok₃, hok⟩ := bind_ok hok
  have haddr : entryAddr s.cr3 = pml4 := by rw [hcr3, h.entryAddr_eq hroot]
  rw [haddr] at hok₁
  cases hok
  -- the three levels
  obtain ⟨tag₁, grow₁, -, hpdpt⟩ := h.grow pml4 virt hroot (by decide) .root hok₁
  obtain ⟨a₁, r₁⟩ := Attached.getOrCreateTable h hroot (.root rfl) (by decide) hroot (by decide)
    .root (tableIndex_lt _ _) hok₁
  replace hpdpt : tag₁ pdpt = some (slot privateOwner pml4 virt 3) := hpdpt
  have hlevel₃ : 2 ≤ (slot privateOwner pml4 virt 3).level := by
    rw [level_slot _ _ (by decide)]
    decide
  obtain ⟨tag₂, grow₂, -, hpd⟩ := grow₁.tagged.grow pml4 virt hpdpt hlevel₃
    (.slot pdpt 2 (by decide)) hok₂
  have hroot₁ := grow₁.ext _ _ hroot
  obtain ⟨a₂, r₂⟩ := Attached.getOrCreateTable grow₁.tagged hroot₁ r₁ (by simp) hpdpt hlevel₃
    (.slot pdpt 2 (by decide)) (tableIndex_lt _ _) hok₂
  replace hpd : tag₂ pd = some (slot privateOwner pml4 virt 2) :=
    hpd.trans (congrArg some (child_slot _ _ _ (by decide)))
  have hlevel₂ : 2 ≤ (slot privateOwner pml4 virt 2).level := by
    rw [level_slot _ _ (by decide)]
  obtain ⟨tag₃, grow₃, -, -⟩ := grow₂.tagged.grow pml4 virt hpd hlevel₂
    (.slot pd 1 (by decide)) hok₃
  have hroot₂ := grow₂.ext _ _ hroot₁
  obtain ⟨a₃, r₃⟩ := Attached.getOrCreateTable grow₂.tagged hroot₂ r₂ (by simp) hpd hlevel₂
    (.slot pd 1 (by decide)) (tableIndex_lt _ _) hok₃
  -- the entry of the page is empty
  have hempty : hasFlag (s₃.mem pt (ptIndex virt)) ptePresent = false := by
    have hwide := ((grow₁.trans grow₂).trans grow₃).widened virt hroot
    rw [Memory.translate, h.pteAddr_eq hroot] at hnone
    rw [hnone] at hwide
    by_contra hp
    rw [Bool.not_eq_false] at hp
    have hleaf := r₃.walk_leaf (v := virt) rfl
    rw [hwide.eq_none] at hleaf
    exact Option.some_ne_none _ ((mmuWalk_page hp).symm.trans hleaf.symm)
  have hpresent : hasFlag (phys ||| flags ||| ptePresent) ptePresent = true := by
    have : hasFlag ptePresent ptePresent = true := by decide
    simp [this]
  have hstored := a₁.trans (a₂.trans a₃)
  refine ⟨⟨fun r => (hstored.kept r).store hempty, fun n hn hused => ?_⟩, ?_⟩
  · obtain ⟨path, table, i, r⟩ := hstored.taken n hn hused
    exact ⟨path, table, i, r.store hempty⟩
  · have hself : s₃.mem.store pt (ptIndex virt) (phys ||| flags ||| ptePresent) pt (ptIndex virt) =
        phys ||| flags ||| ptePresent := PhysMem.store_same ..
    refine ⟨_, pt, ptIndex virt, r₃.store hempty, tableIndex_lt _ _, ?_, ?_, congrArg pteAddr hself⟩
    · exact (congrArg (hasFlag · ptePresent) hself).trans hpresent
    · intro hlt
      simp at hlt

end Attach

/-! ### Pages -/

section Pages

variable {tag : Word → Option Label} {s s' : Vmm} {pml4 : Word} {virt : Nat → Word}

/-- A page that is not mapped, mapped to a fresh frame. -/
theorem Attached.map_fresh {v flags : Word} {n : Nat} (h : Tagged privateOwner tag s)
    (hroot : tag pml4 = some .root) (hnone : translate s.mem pml4 v = none)
    (hn : n ∈ s.pmm.freeSet) (hflags : entryAddr flags = 0#64)
    (hok : vmmMapIn { s with pmm := reserveFrame n s.pmm } pml4 v (frameAddr n) flags = .ok s') :
    Attached pml4 s s' := by
  obtain ⟨s₁, hmap, hs'⟩ := bind_ok hok
  cases hs'
  obtain ⟨attached, path, table, i, r⟩ := vmmMap_attached ((h.reserve n).switch pml4) rfl hroot
    hnone hmap
  refine ⟨attached.kept, fun m hm hused => ?_⟩
  by_cases heq : m = n
  · subst heq
    have htarget : pteAddr (frameAddr m ||| flags ||| ptePresent) = frameAddr m :=
      pteAddr_of_frame (mem_freeSet.1 hn).1 (fresh_leaf hn hflags)
    rw [htarget] at r
    exact ⟨path, table, i, r⟩
  · exact attached.taken m (by simp [heq, hm]) hused

/-- The loop over fresh pages, none of which is mapped as far as the free frames go. -/
theorem mapFreshPages_attached {flags : Word} {count i : Nat} {out : FreshPages}
    (hflags : entryAddr flags = 0#64) (h : Tagged privateOwner tag s)
    (hroot : tag pml4 = some .root)
    (hnone : ∀ k < count, k < s.pmm.freeSet.card → translate s.mem pml4 (virt (i + k)) = none)
    (hapart : ∀ k k', k < k' → k' < s.pmm.freeSet.card →
      walkPath (virt (i + k)) ≠ walkPath (virt (i + k')))
    (hok : mapFreshPages pml4 virt flags count i s = .ok out) : Attached pml4 s out.vmm := by
  induction count generalizing i tag s out with
  | zero =>
      cases hok
      exact .refl pml4 s
  | succ count ih =>
      unfold mapFreshPages at hok
      rcases pmmAlloc_spec s.pmm with ⟨hnull, -⟩ | ⟨n, hn, -, halloc⟩
      · simp only [hnull, if_true] at hok
        cases hok
        exact .refl pml4 s
      · have hne : n * pageSize ≠ 0 :=
          Nat.mul_ne_zero (by have := h.free n hn; omega) (by decide)
        simp only [halloc, hne, if_false, frameAddr_eq_pointer] at hok
        obtain ⟨s₁, hmap, hok⟩ := bind_ok hok
        obtain ⟨rest, hrest, hout⟩ := bind_ok hok
        cases hout
        have hpos : 0 < s.pmm.freeSet.card := Finset.card_pos.2 ⟨n, hn⟩
        have first := Attached.map_fresh h hroot (hnone 0 (Nat.succ_pos count) hpos) hn hflags hmap
        obtain ⟨tag₁, m⟩ := vmmMapIn_spec (h.reserve n) hroot hmap
        -- every round takes a frame at least
        have hfewer : s₁.pmm.freeSet.card < s.pmm.freeSet.card :=
          Finset.card_lt_card ⟨fun x hx => Finset.mem_of_mem_erase (by simpa using m.free hx),
            fun hsub => by simpa using m.free (hsub hn)⟩
        have hshift : ∀ k, i + 1 + k = i + (k + 1) := fun k => by omega
        apply first.trans
        refine @ih tag₁ s₁ (i + 1) rest m.tagged (m.ext _ _ hroot) (fun k hk hk' => ?_)
          (fun k k' hlt hk' => ?_) hrest
        · have hwide := m.widened (v := virt (i + (k + 1))) hroot
            (.inr (hapart 0 (k + 1) (Nat.succ_pos k) (by omega)).symm)
          have hbefore := hnone (k + 1) (by omega) (by omega)
          rw [hbefore] at hwide
          rw [hshift]
          exact hwide.eq_none
        · rw [hshift, hshift]
          exact hapart (k + 1) (k' + 1) (by omega) (by omega)

/-- The pages of a heap differ. -/
theorem sbrkPage_apart {base : Word} {k k' : Nat} (hlt : k < k') (hle : k' < k + 65536) :
    walkPath (sbrkPage base k) ≠ walkPath (sbrkPage base k') := by
  have hnat : ∀ j, (sbrkPage base j).toNat = (base.toNat + j * 4096 % 2 ^ 64) % 2 ^ 64 := by
    intro j
    show (base + BitVec.ofNat 64 (j * 4096)).toNat = _
    rw [BitVec.toNat_add, BitVec.toNat_ofNat]
  rw [Ne, walkPath_eq_iff, hnat, hnat]
  have := base.isLt
  omega

end Pages

/-! ### The calls -/

/-- The pages of a range, as far as there are frames for them. -/
def Syscall.PageRange.upTo (range : PageRange) (frames : Nat) : List Word :=
  (List.range (min range.count frames)).map fun k => range.virt (range.first + k)

/-- The pages that a call maps, as far as there are frames for them. Without a heap, `sbrk` and
    `mmap` fail at once. -/
def Syscall.UserCall.pages (s : Vmm) (proc : Process) : UserCall → List Word
  | .brk target => (UserCall.range proc (.brk target)).upTo s.pmm.freeSet.card
  | call => if proc.heapStart = 0#64 then [] else (call.range proc).upTo s.pmm.freeSet.card

theorem Syscall.UserCall.range_virt (proc : Process) (call : UserCall) :
    ∃ base, (call.range proc).virt = sbrkPage base := by
  cases call with
  | sbrk increment => exact ⟨_, rfl⟩
  | brk target => exact ⟨_, rfl⟩
  | mmap len =>
      unfold UserCall.range
      dsimp only
      split
      · exact ⟨_, rfl⟩
      · exact ⟨_, rfl⟩
  | mapFb => exact ⟨_, rfl⟩

/-- A process without a heap. -/
theorem Syscall.UserCall.run_heapless {call : UserCall} {s : Vmm} {proc : Process} {r : HeapReturn}
    (hheap : proc.heapStart = 0#64) (hbrk : ∀ target, call ≠ .brk target) (hfb : call ≠ .mapFb)
    (hok : call.run s proc = .ok r) : r.vmm = s := by
  have hsbrk : ∀ {proc : Process} {increment : Word}, proc.heapStart = 0#64 →
      sysSbrk s proc increment = .ok r → r.vmm = s := by
    intro proc increment hheap hok
    rw [sysSbrk, if_pos hheap] at hok
    cases hok
    rfl
  cases call with
  | sbrk increment => exact hsbrk hheap hok
  | brk target => exact absurd rfl (hbrk target)
  | mmap len =>
      change linuxMmap s proc len = .ok r at hok
      unfold linuxMmap at hok
      split at hok
      · cases hok
        rfl
      · refine hsbrk ?_ hok
        unfold mmapAlign
        split
        · exact hheap
        · exact hheap
  | mapFb => exact absurd rfl hfb

/-- A call none of whose pages is mapped. -/
theorem Attached.userCall {tag : Word → Option Label} {s : Vmm} {proc : Process} {call : UserCall}
    {r : HeapReturn} (h : Tagged privateOwner tag s) (hroot : tag proc.pageTable = some .root)
    (hfb : call ≠ .mapFb) (hnone : ∀ v ∈ call.pages s proc, translate s.mem proc.pageTable v = none)
    (hok : call.run s proc = .ok r) : Attached proc.pageTable s r.vmm := by
  obtain ⟨-, hpages⟩ := UserCall.run_cases hfb hok
  rcases hpages with ⟨hvmm, -⟩ | ⟨out, hmap, hvmm, -⟩
  · rw [hvmm]
    exact .refl _ _
  by_cases hheap : proc.heapStart = 0#64 ∧ ∀ target, call ≠ .brk target
  · rw [UserCall.run_heapless hheap.1 hheap.2 hfb hok]
    exact .refl _ _
  · have hlist : call.pages s proc = (call.range proc).upTo s.pmm.freeSet.card := by
      cases call with
      | brk target => rfl
      | sbrk increment => exact if_neg fun h0 => hheap ⟨h0, fun _ => nofun⟩
      | mmap len => exact if_neg fun h0 => hheap ⟨h0, fun _ => nofun⟩
      | mapFb => exact absurd rfl hfb
    rw [hlist] at hnone
    rw [hvmm]
    obtain ⟨base, hbase⟩ := UserCall.range_virt proc call
    have hcard := freeSet_card_le s.pmm
    refine mapFreshPages_attached userPage_flags h hroot (fun k hk hk' => ?_)
      (fun k k' hlt hk' => ?_) hmap
    · exact hnone _ (List.mem_map.2 ⟨k, List.mem_range.2 (Nat.lt_min.2 ⟨hk, hk'⟩), rfl⟩)
    · rw [hbase]
      exact sbrkPage_apart (by omega) (by rw [show totalFrames = 65536 from rfl] at hcard; omega)

/-- A call of process `pid` that moves its break. -/
def HeapCallStep (image : BootImage) (fns : Trampolines) (pid : Nat) (s : System) (call : UserCall)
    (s' : System) : Prop :=
  call ≠ .mapFb ∧ SystemStep image fns s (.user pid call) s'

/-! ### A page of heap -/

section OnePage

variable {s : Vmm} {proc : Process}

/-- An `sbrk` back to the empty heap. -/
theorem sysSbrk_first_page_back (hstart : proc.heapStart = userHeapBase)
    (hend : proc.heapEnd = userHeapBase + 4096#64) :
    sysSbrk s proc (-4096#64) = .ok
      { vmm := s, proc := { proc with heapEnd := userHeapBase }
        result := userHeapBase + 4096#64, frames := [] } := by
  have hpages : sbrkPages userHeapBase (userHeapBase + 4096#64 + -4096#64) -
      sbrkPages userHeapBase (userHeapBase + 4096#64) = 0 := by decide
  unfold sysSbrk
  rw [hstart, hend, if_neg (by decide), if_neg (by decide)]
  simp only [hpages, mapFreshPages]
  rfl

/-- The frame that a page was mapped to is referenced no more once the page is mapped again. -/
theorem TreeInv.remapped {image : BootImage} {tag tag' : Word → Option Label} {s' : Vmm}
    {pml4 virt flags : Word} {n n' : Nat} (h : TreeInv image tag s) (h' : TreeInv image tag' s')
    (hroot : tag pml4 = some .root) (hn : n ∈ (pmmInit image.toKernelImage).freeSet)
    (hpage : tag (frameAddr n) = some (slot privateOwner pml4 virt 0)) (hn' : n' ∈ s.pmm.freeSet)
    (hflags : entryAddr flags = 0#64) (m : FreshMapped pml4 virt flags n' tag s tag' s') :
    ∀ path table i, ¬ References s'.mem (· = pml4) path table i (frameAddr n) := by
  intro path table i r
  have hfree := h.tree.tagged.free_unlabelled hn'
  have hext : Extends tag tag' := fun u l hu => m.mapped.ext _ _ (extends_update hfree _ _ hu)
  -- the label of the frame says which entry it is
  obtain ⟨owner, hlabel, -⟩ := r.label h'.tree
    (fun p (hp : p = pml4) => hp ▸ hext _ _ hroot) hn
  rw [hext _ _ hpage] at hlabel
  injection Option.some.inj hlabel with howner hpath
  have hindex : i = ptIndex virt := (List.cons.inj hpath).1.symm
  have hup : path = (walkPath virt).drop 1 := (List.cons.inj hpath).2.symm
  have hlen : path.length = 3 := by rw [hup]; rfl
  -- and the walk of the page ends with this entry
  have hwalk := r.reached.walk_leaf (v := virt) (by rw [hlen]; exact hup)
  have hself := m.mapped.self (v := virt) rfl
  rw [Memory.translate, h'.tree.tagged.pteAddr_eq (hext _ _ hroot)] at hself
  have hpresent := r.present
  rw [hindex] at hpresent
  rw [hself, hlen, mmuWalk_page hpresent] at hwalk
  have hentry : s'.mem table i = frameAddr n' ||| flags ||| ptePresent := by
    rw [hindex]
    exact (Option.some.inj hwalk).symm
  have htarget := r.target
  have hlt' := (mem_freeSet.1 hn').1
  rw [hentry, pteAddr_of_frame hlt' (fresh_leaf hn' hflags)] at htarget
  rw [htarget, hpage] at hfree
  cases hfree

/-- The call for the first page of heap of the only process. -/
theorem HeapCallStep.first_page {image : BootImage} (fns : Trampolines) {tag : Word → Option Label}
    (k : Kernel) (proc : Process) (h : TreeInv image tag k.vmm) (hroot : UserRoot image tag proc.pageTable)
    (hcard : 4 ≤ k.vmm.pmm.freeSet.card) (hstart : proc.heapStart = userHeapBase)
    (hend : proc.heapEnd = userHeapBase) :
    ∃ vmm n tag', HeapCallStep image fns 0 { kernel := k, users := [proc] } (.sbrk 4096#64)
        { kernel := { k with vmm := vmm }
          users := [{ proc with heapEnd := userHeapBase + 4096#64 }] } ∧
      n ∈ k.vmm.pmm.freeSet ∧ TreeInv image tag' vmm ∧
      FreshMapped proc.pageTable userHeapBase userPage n tag
        (vmmSwitchAddressSpace k.vmm proc.pageTable) tag' vmm ∧
      k.vmm.pmm.freeSet.card ≤ vmm.pmm.freeSet.card + 4 := by
  obtain ⟨vmm, n, tag', hstep, hrest⟩ := SystemStep.first_page fns k proc h hroot hcard hstart hend
  exact ⟨vmm, n, tag', ⟨nofun, hstep⟩, hrest⟩

end OnePage

/-- The frame of a heap page is lost when the break is lowered below the page and raised again, and
    with it the memory: the second time takes a frame again. -/
theorem heap_frame_lost : ∃ (k : Kernel) (s₀ s₁ s₂ s₃ : System) (proc : Process) (n : Nat),
    kernelBoot bootedImage (fun _ _ => 0#64) = .ok k.vmm ∧
      Run (SystemStep bootedImage ⟨0#64, 0#64⟩) { kernel := k, users := [] } [.createElf [97] 0#32]
        s₀ ∧ s₀.users[0]? = some proc ∧
      HeapCallStep bootedImage ⟨0#64, 0#64⟩ 0 s₀ (.sbrk 4096#64) s₁ ∧
      HeapCallStep bootedImage ⟨0#64, 0#64⟩ 0 s₁ (.sbrk (-4096#64)) s₂ ∧
      HeapCallStep bootedImage ⟨0#64, 0#64⟩ 0 s₂ (.sbrk 4096#64) s₃ ∧
      n ∈ s₀.kernel.vmm.pmm.freeSet ∧ n ∉ s₃.kernel.vmm.pmm.freeSet ∧
      (∀ path table i,
        ¬ References s₃.kernel.vmm.mem (· = proc.pageTable) path table i (frameAddr n)) ∧
      s₃.kernel.vmm.pmm.freeSet.card < s₁.kernel.vmm.pmm.freeSet.card := by
  obtain ⟨vmm₀, k, proc, boot, hcreate, hstart, hend, hcard, -⟩ :=
    emptyProgram_system (fun _ _ => 0#64) ⟨0#64, 0#64⟩
  obtain ⟨tag, inv⟩ := SystemInv.of_run (k := fileKernel vmm₀ (elfHeader 0) (by decide)) boot
    (.single hcreate)
  have hroot := inv.users proc (List.mem_singleton.2 rfl)
  -- the first page
  obtain ⟨vmm₁, n, tag₁, hstep₁, hn, htree₁, m₁, hleft₁⟩ := HeapCallStep.first_page
    ⟨0#64, 0#64⟩ k proc inv.toTreeInv hroot (Nat.le_trans (by decide) hcard) hstart hend
  have hroot₁ : UserRoot bootedImage tag₁ proc.pageTable :=
    hroot.ext fun u l hu => m₁.mapped.ext _ _
      (extends_update (inv.tree.tagged.free_unlabelled hn) _ _ hu)
  have hpage : tag₁ (frameAddr n) = some (slot privateOwner proc.pageTable userHeapBase 0) :=
    m₁.mapped.ext _ _ (Function.update_self ..)
  -- back and forth
  have hstep₂ : HeapCallStep bootedImage ⟨0#64, 0#64⟩ 0
      { kernel := { k with vmm := vmm₁ }
        users := [{ proc with heapEnd := userHeapBase + 4096#64 }] } (.sbrk (-4096#64))
      { kernel := { k with vmm := vmmSwitchAddressSpace vmm₁ proc.pageTable }
        users := [{ proc with heapEnd := userHeapBase }] } :=
    ⟨nofun, _, _, rfl, sysSbrk_first_page_back hstart rfl, rfl⟩
  have hcard₁ : 4 ≤ vmm₁.pmm.freeSet.card := by
    change k.vmm.pmm.freeSet.card ≤ _ at hleft₁
    omega
  obtain ⟨vmm₃, n', tag₃, hstep₃, hn', htree₃, m₃, -⟩ := HeapCallStep.first_page
    ⟨0#64, 0#64⟩ { k with vmm := vmmSwitchAddressSpace vmm₁ proc.pageTable }
    { proc with heapEnd := userHeapBase }
    (htree₁.switch proc.pageTable) hroot₁ hcard₁ hstart rfl
  have hused₁ : n ∉ vmm₁.pmm.freeSet := fun hfree => by
    have := m₁.mapped.free hfree
    simp at this
  have hsub₃ : vmm₃.pmm.freeSet ⊆ vmm₁.pmm.freeSet.erase n' := by
    rw [← freeSet_reserveFrame]
    exact m₃.mapped.free
  refine ⟨_, _, _, _, _, proc, n, boot, .single hcreate, rfl, hstep₁, hstep₂, hstep₃, hn,
    fun hfree => hused₁ (Finset.mem_of_mem_erase (hsub₃ hfree)), ?_, ?_⟩
  · exact ((htree₁.switch proc.pageTable).switch proc.pageTable).remapped htree₃ hroot₁.1
      (inv.allocs.free hn) hpage hn' userPage_flags m₃
  · exact (Finset.card_le_card hsub₃).trans_lt (Finset.card_erase_lt_of_mem hn')

/-! ### Runs -/

/-- None of the pages that the call maps is mapped already. -/
def MapsUnmapped (pid : Nat) (s : System) (call : UserCall) : Prop :=
  ∀ proc, s.users[pid]? = some proc → ∀ v ∈ call.pages s.kernel.vmm proc,
    translate s.kernel.vmm.mem proc.pageTable v = none

/-- What every state of a run of heap calls keeps. -/
structure HeapFramesInv (image : BootImage) (pid : Nat) (pml4 : Word) (vmm : Vmm) (s : System) :
    Prop where
  tables : ∃ tag, SystemInv image tag s
  proc : ∃ proc, s.users[pid]? = some proc ∧ proc.pageTable = pml4
  attached : Attached pml4 vmm s.kernel.vmm

theorem HeapFramesInv.step {image : BootImage} {fns : Trampolines} {pid : Nat} {pml4 : Word}
    {vmm : Vmm} {s s' : System} {call : UserCall} (inv : HeapFramesInv image pid pml4 vmm s)
    (step : Guarded (MapsUnmapped pid) (HeapCallStep image fns pid) s call s') :
    HeapFramesInv image pid pml4 vmm s' := by
  obtain ⟨hguard, hfb, hstep⟩ := step
  obtain ⟨tag, hinv⟩ := inv.tables
  obtain ⟨proc, hproc, htable⟩ := inv.proc
  obtain ⟨tag', hinv', -⟩ := hinv.step hstep
  obtain ⟨proc', r, hproc', hok, rfl⟩ := hstep
  obtain rfl : proc = proc' := Option.some.inj (hproc.symm.trans hproc')
  have hroot := (hinv.users proc (List.mem_of_getElem? hproc)).1
  have hcall := Attached.userCall (hinv.tree.tagged.switch proc.pageTable) hroot hfb
    (hguard proc hproc) hok
  obtain ⟨hlt, -⟩ := List.getElem?_eq_some_iff.1 hproc
  obtain ⟨⟨brk, hr⟩, -⟩ := UserCall.run_cases hfb hok
  refine ⟨⟨tag', hinv'⟩, ⟨r.proc, List.getElem?_set_self hlt, by rw [hr]; exact htable⟩, ?_⟩
  rw [htable] at hcall
  exact inv.attached.trans ⟨hcall.kept, hcall.taken⟩

/-- As long as no call maps a page that is mapped already, every frame that the calls have taken is
    a page of the process or one of its tables. -/
theorem heap_frames_kept (image : BootImage) (fns : Trampolines) (ram : PhysMem) (k : Kernel)
    (boot : kernelBoot image ram = .ok k.vmm) (history : List SystemCall) (s₀ : System)
    (start : Run (SystemStep image fns) { kernel := k, users := [] } history s₀) (pid : Nat)
    (proc : Process) (hproc : s₀.users[pid]? = some proc) (calls : List UserCall) (s : System)
    (run : Run (Guarded (MapsUnmapped pid) (HeapCallStep image fns pid)) s₀ calls s) :
    ∀ n ∈ s₀.kernel.vmm.pmm.freeSet, n ∈ s.kernel.vmm.pmm.freeSet ∨
      ∃ path table i, References s.kernel.vmm.mem (· = proc.pageTable) path table i (frameAddr n) := by
  have inv := run.invariant (HeapFramesInv image pid proc.pageTable s₀.kernel.vmm)
    (fun _ _ _ inv step => inv.step step)
    ⟨SystemInv.of_run boot start, ⟨proc, hproc, rfl⟩, .refl _ _⟩
  intro n hn
  by_cases hfree : n ∈ s.kernel.vmm.pmm.freeSet
  · exact .inl hfree
  · exact .inr (inv.attached.taken n hn hfree)

theorem heap_frames_kept_one_page : ∃ (k : Kernel) (s₀ s : System) (proc : Process),
    kernelBoot bootedImage (fun _ _ => 0#64) = .ok k.vmm ∧
      Run (SystemStep bootedImage ⟨0#64, 0#64⟩) { kernel := k, users := [] } [.createElf [97] 0#32]
        s₀ ∧ s₀.users[0]? = some proc ∧
      Run (Guarded (MapsUnmapped 0) (HeapCallStep bootedImage ⟨0#64, 0#64⟩ 0)) s₀ [.sbrk 4096#64]
        s ∧
      ∀ n ∈ s₀.kernel.vmm.pmm.freeSet, n ∈ s.kernel.vmm.pmm.freeSet ∨ ∃ path table i,
        References s.kernel.vmm.mem (· = proc.pageTable) path table i (frameAddr n) := by
  obtain ⟨vmm₀, k, proc, boot, hcreate, hstart, hend, hcard, hnone⟩ :=
    emptyProgram_system (fun _ _ => 0#64) ⟨0#64, 0#64⟩
  obtain ⟨tag, inv⟩ := SystemInv.of_run (k := fileKernel vmm₀ (elfHeader 0) (by decide)) boot
    (.single hcreate)
  obtain ⟨vmm₁, n, tag₁, hstep, -⟩ := HeapCallStep.first_page ⟨0#64, 0#64⟩ k proc inv.toTreeInv
    (inv.users proc (List.mem_singleton.2 rfl)) (Nat.le_trans (by decide) hcard) hstart hend
  -- the heap starts where nothing is mapped
  have hguard : MapsUnmapped 0 { kernel := k, users := [proc] } (.sbrk 4096#64) := by
    intro proc' hproc v hv
    obtain rfl : proc = proc' := Option.some.inj hproc
    have hpages : sbrkPages userHeapBase userHeapBase = 0 ∧
        sbrkPages userHeapBase (userHeapBase + 4096#64) = 1 := by decide
    have hv' : v = userHeapBase := by
      unfold UserCall.pages UserCall.range sbrkRange PageRange.upTo at hv
      simp only [hstart, hend, hpages.1, hpages.2] at hv
      rw [if_neg (by decide)] at hv
      obtain ⟨j, hj, rfl⟩ := List.mem_map.1 hv
      obtain rfl : j = 0 := by
        have := Nat.lt_min.1 (List.mem_range.1 hj)
        omega
      decide
    rw [hv']
    exact hnone _ (by decide) (by decide)
  have hrun : Run (Guarded (MapsUnmapped 0) (HeapCallStep bootedImage ⟨0#64, 0#64⟩ 0))
      { kernel := k, users := [proc] } [.sbrk 4096#64] _ := .single ⟨hguard, hstep⟩
  exact ⟨fileKernel vmm₀ (elfHeader 0) (by decide), _, _, proc, boot, .single hcreate, rfl, hrun,
    heap_frames_kept bootedImage ⟨0#64, 0#64⟩ (fun _ _ => 0#64)
      (fileKernel vmm₀ (elfHeader 0) (by decide)) boot _ _ (.single hcreate) 0 proc rfl _ _ hrun⟩

end CustomKernel
