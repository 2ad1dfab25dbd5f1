/-
Module: CustomKernel.Proofs.HeapCalls
Layer: Proofs
Purpose: The three calls that move a process's break keep one picture of the heap: every page below
  the break is backed by a frame of its own. Each call is brought to the same form, "the heap grows
  by these pages", and the run results follow from one invariant. The frames bound the heap: a break
  that was reached page by page is at most 256MB above the heap's start, so none of the 64-bit sums
  wraps.
Imports: CustomKernel.Syscall.HeapCalls, CustomKernel.Proofs.UserPages,
  CustomKernel.Proofs.AddressSpaces
Trusted boundary: none (fully proved)
Main exports: HeapInv, HeapStep, heap_calls_coherent
-/
import CustomKernel.Syscall.HeapCalls
import CustomKernel.Proofs.UserPages
import CustomKernel.Proofs.AddressSpaces

namespace CustomKernel.Syscall

open CustomKernel.Memory StepSystem Bits

/-! ### Rounding -/

theorem toNat_pageAlignUp {addr : Word} (h : addr.toNat ≤ 2 ^ 64 - 4096) :
    (pageAlignUp addr).toNat = (addr.toNat + 4095) / 4096 * 4096 := by
  have hmask : pageAlignUp addr = entryAddr (addr + 0xFFF#64) := rfl
  rw [hmask, toNat_entryAddr, BitVec.toNat_add, BitVec.toNat_ofNat]
  omega

theorem sbrkPages_eq {base brk : Word} (hle : base.toNat ≤ brk.toNat)
    (hlt : brk.toNat - base.toNat ≤ 2 ^ 64 - 4096) :
    sbrkPages base brk = (brk.toNat - base.toNat + 4095) / 4096 := by
  unfold sbrkPages
  by_cases hgt : base < brk
  · rw [if_pos hgt, BitVec.toNat_udiv]
    have hnum : (brk - base + 4096#64 - 1#64).toNat = brk.toNat - base.toNat + 4095 := by
      have := brk.isLt
      simp only [BitVec.toNat_sub, BitVec.toNat_add, BitVec.toNat_ofNat]
      omega
    rw [hnum]
    rfl
  · rw [if_neg hgt]
    have : ¬ base.toNat < brk.toNat := hgt
    omega

/-! ### The pages of a heap -/

/-- A heap starts page aligned at PML4 index 1. -/
structure HeapBase (base : Word) : Prop where
  aligned : base.toNat % 4096 = 0
  low : 2 ^ 39 ≤ base.toNat
  high : base.toNat < 2 ^ 40

theorem HeapBase.toNat_page {base : Word} (h : HeapBase base) {i : Nat} (hi : i ≤ 2 ^ 20) :
    (sbrkPage base i).toNat = base.toNat + i * 4096 := by
  have := h.high
  show (base + BitVec.ofNat 64 (i * 4096)).toNat = _
  rw [BitVec.toNat_add, BitVec.toNat_ofNat]
  omega

/-- Different pages of a heap are translated through different entries. -/
theorem HeapBase.walkPath_ne {base : Word} (h : HeapBase base) {i j : Nat} (hi : i ≤ 2 ^ 20)
    (hj : j ≤ 2 ^ 20) (hne : i ≠ j) : walkPath (sbrkPage base i) ≠ walkPath (sbrkPage base j) := by
  rw [Ne, walkPath_eq_iff, h.toNat_page hi, h.toNat_page hj]
  have := h.high
  have := h.aligned
  omega

theorem HeapBase.pml4Index_page {base : Word} (h : HeapBase base) {i : Nat} (hi : i ≤ 2 ^ 20) :
    1 ≤ pml4Index (sbrkPage base i) := by
  rw [pml4Index, tableIndex_eq, h.toNat_page hi]
  have := h.low
  have := h.high
  omega

/-- The first `count` pages of a heap are backed. -/
def BackedBelow (pml4 base : Word) (tag : Word → Option Label) (s : Vmm) (count : Nat) : Prop :=
  ∀ i < count, Backed commonOwner pml4 userPage tag s (sbrkPage base i)

/-- Each backed page has a frame of its own, so there are at most as many pages as frames. -/
theorem BackedBelow.count_le {pml4 base : Word} {tag : Word → Option Label} {s : Vmm} {count : Nat}
    (hbase : HeapBase base) (h : BackedBelow pml4 base tag s count) : count ≤ totalFrames := by
  by_contra hgt
  have hgt' : 65536 < count := Nat.not_le.1 hgt
  -- the frame behind each of the first 65537 pages
  have hframe : ∀ i, ∃ n, i < 65537 → n < totalFrames ∧
      tag (frameAddr n) = some (slot commonOwner pml4 (sbrkPage base i) 0) := by
    intro i
    by_cases hi : i < 65537
    · obtain ⟨n, hn, htag, -⟩ := h i (by omega)
      exact ⟨n, fun _ => ⟨hn, htag⟩⟩
    · exact ⟨0, fun hi' => absurd hi' hi⟩
  choose frame hframe using hframe
  obtain ⟨i, hi, j, hj, hne, heq⟩ := Finset.exists_ne_map_eq_of_card_lt_of_maps_to
    (s := Finset.range 65537) (t := Finset.range totalFrames) (f := frame)
    (by simp [show totalFrames = 65536 from rfl])
    (fun i hi => Finset.mem_coe.2 (Finset.mem_range.2 (hframe i (Finset.mem_range.1 hi)).1))
  have hi := Finset.mem_range.1 hi
  have hj := Finset.mem_range.1 hj
  have hsame := (hframe i hi).2
  rw [heq, (hframe j hj).2] at hsame
  simp only [slot, commonOwner, List.drop_zero, Option.some.injEq, Label.node.injEq, true_and]
    at hsame
  exact hbase.walkPath_ne (by omega) (by omega) (Ne.symm hne) hsame

/-- The heap grows by the pages a loop has mapped. -/
theorem BackedBelow.extend {pml4 base : Word} {tag tag' : Word → Option Label} {s s' : Vmm}
    {virt : Nat → Word} {i m count : Nat} {frames : List Word} (hbase : HeapBase base)
    (hroot : tag pml4 = some .root) (h : BackedBelow pml4 base tag s count)
    (hcount : count ≤ totalFrames) (hm : m ≤ totalFrames)
    (hvirt : ∀ k < m, virt (i + k) = sbrkPage base (count + k))
    (p : PagesMapped commonOwner pml4 virt userPage i m tag s tag' s' frames) :
    BackedBelow pml4 base tag' s' (count + m) := by
  rw [show totalFrames = 65536 from rfl] at hcount hm
  intro j hj
  by_cases hold : j < count
  · -- an old page, which the loop did not touch
    refine (h j hold).mono p.ext fun w hw => p.widened hroot fun k hk => .inr ?_
    rw [hw, hvirt k hk]
    exact hbase.walkPath_ne (by omega) (by omega) (by omega)
  · obtain ⟨k, rfl⟩ : ∃ k, j = count + k := ⟨j - count, by omega⟩
    have hk : k < m := by omega
    rw [← hvirt k hk]
    refine p.backed k hk fun k' hk' hlt => ?_
    rw [hvirt k hk, hvirt k' hk']
    exact hbase.walkPath_ne (by omega) (by omega) (by omega)

/-! ### The invariant -/

/-- The number of pages that intersect the heap. -/
def heapPageCount (proc : Process) : Nat :=
  (proc.heapEnd.toNat - proc.heapStart.toNat + 4095) / 4096

/-- The heap of a process: its pages are backed in well-formed tables. -/
structure HeapInv (vmm : Vmm) (proc : Process) : Prop where
  base : HeapBase proc.heapStart
  le : proc.heapStart.toNat ≤ proc.heapEnd.toNat
  tables : ∃ tag, Tagged commonOwner tag vmm ∧ tag proc.pageTable = some .root ∧
    BackedBelow proc.pageTable proc.heapStart tag vmm (heapPageCount proc)

namespace HeapInv

variable {vmm : Vmm} {proc : Process}

theorem pages_le (h : HeapInv vmm proc) : heapPageCount proc ≤ 65536 := by
  obtain ⟨tag, -, -, hbacked⟩ := h.tables
  exact hbacked.count_le h.base

/-- The heap ends at most 256MB above its start. -/
theorem end_le (h : HeapInv vmm proc) : proc.heapEnd.toNat ≤ proc.heapStart.toNat + 2 ^ 28 := by
  have hpages := h.pages_le
  unfold heapPageCount at hpages
  omega

/-- The break can be moved to anywhere inside the pages that are backed. -/
theorem move_break (h : HeapInv vmm proc) {brk : Word} (hle : proc.heapStart.toNat ≤ brk.toNat)
    (hpages : (brk.toNat - proc.heapStart.toNat + 4095) / 4096 ≤ heapPageCount proc) :
    HeapInv vmm { proc with heapEnd := brk } := by
  obtain ⟨tag, htagged, hroot, hbacked⟩ := h.tables
  exact ⟨h.base, hle, tag, htagged, hroot, fun i hi => hbacked i (Nat.lt_of_lt_of_le hi hpages)⟩

/-- The pages a call asks for come right after those the heap has. -/
def Follows (proc : Process) (virt : Nat → Word) (i count : Nat) : Prop :=
  ∀ k < count, k ≤ totalFrames → virt (i + k) = sbrkPage proc.heapStart (heapPageCount proc + k)

/-- Mapping fresh pages after the heap keeps it backed, and it can then be extended over them. -/
theorem grow (h : HeapInv vmm proc) {virt : Nat → Word} {i count : Nat} {out : FreshPages}
    (hvirt : Follows proc virt i count)
    (hok : mapFreshPages proc.pageTable virt userPage count i vmm = .ok out) :
    HeapInv out.vmm proc ∧ (out.complete = true → ∀ brk : Word,
      proc.heapStart.toNat ≤ brk.toNat →
      (brk.toNat - proc.heapStart.toNat + 4095) / 4096 ≤ heapPageCount proc + count →
      HeapInv out.vmm { proc with heapEnd := brk }) := by
  obtain ⟨tag, htagged, hroot, hbacked⟩ := h.tables
  obtain ⟨m, hm, hcomplete, tag', p⟩ :=
    mapFreshPages_spec (by decide) count i tag vmm out htagged hroot hok
  have hframes : m ≤ totalFrames := by
    have := p.card
    have := freeSet_card_le vmm.pmm
    omega
  have hext := BackedBelow.extend h.base hroot hbacked h.pages_le hframes
    (fun k hk => hvirt k (by omega) (by omega)) p
  have hroot' := p.ext _ _ hroot
  refine ⟨⟨h.base, h.le, tag', p.tagged, hroot', fun j hj => hext j (by omega)⟩,
    fun hc brk hle hpages => ⟨h.base, hle, tag', p.tagged, hroot', fun j hj => ?_⟩⟩
  rw [hcomplete hc] at hext
  exact hext j (Nat.lt_of_lt_of_le hj hpages)

/-! ### One call -/

/-- `sbrk` of a non-negative increment fails and leaves the break alone, or returns the old break
    and extends the heap. -/
theorem sysSbrk (h : HeapInv vmm proc) {increment : Word} (hinc : increment.toNat ≤ 2 ^ 63)
    {r : HeapReturn} (hok : Syscall.sysSbrk vmm proc increment = .ok r) :
    HeapInv r.vmm r.proc ∧ ((r.result = failed ∧ r.proc = proc) ∨
      (r.result = proc.heapEnd ∧ r.proc = { proc with heapEnd := proc.heapEnd + increment })) := by
  have hlow := h.base.low
  have hhigh := h.base.high
  have hend := h.end_le
  have hle := h.le
  have hne : proc.heapStart ≠ 0#64 := by
    intro hzero
    rw [hzero] at hlow
    simp at hlow
  unfold Syscall.sysSbrk at hok
  rw [if_neg hne] at hok
  by_cases hzero : increment = 0#64
  · rw [if_pos hzero] at hok
    cases hok
    exact ⟨h, .inr ⟨rfl, by rw [hzero, BitVec.add_zero]⟩⟩
  rw [if_neg hzero] at hok
  obtain ⟨out, hmap, hok⟩ := Loops.bind_ok hok
  have hsum : (proc.heapEnd + increment).toNat = proc.heapEnd.toNat + increment.toNat := by
    rw [BitVec.toNat_add]
    omega
  have hold : sbrkPages proc.heapStart proc.heapEnd = heapPageCount proc :=
    sbrkPages_eq hle (by omega)
  have hnew := @sbrkPages_eq proc.heapStart (proc.heapEnd + increment)
    (by omega) (by omega)
  rw [hsum] at hnew
  have hvirt : Follows proc (sbrkPage proc.heapStart) (sbrkPages proc.heapStart proc.heapEnd)
      (sbrkPages proc.heapStart (proc.heapEnd + increment) -
        sbrkPages proc.heapStart proc.heapEnd) := by
    intro k _ _
    rw [hold]
  obtain ⟨hkeep, hext⟩ := h.grow hvirt hmap
  cases hc : out.complete with
  | true =>
      rw [if_pos hc] at hok
      cases hok
      refine ⟨hext hc _ (by omega) ?_, .inr ⟨rfl, rfl⟩⟩
      rw [hsum, hnew, hold]
      unfold heapPageCount
      omega
  | false =>
      rw [if_neg (by simp [hc])] at hok
      cases hok
      exact ⟨hkeep, .inl ⟨rfl, rfl⟩⟩

/-- `sbrk` succeeds when there are frames for the pages and their tables. -/
theorem sysSbrk_ok (h : HeapInv vmm proc) (increment : Word) (hinc : increment.toNat ≤ 2 ^ 28)
    (hfree : 4 * (increment.toNat / 4096 + 1) ≤ vmm.pmm.freeSet.card) :
    ∃ r, Syscall.sysSbrk vmm proc increment = .ok r ∧ r.result = proc.heapEnd ∧
      r.proc = { proc with heapEnd := proc.heapEnd + increment } ∧
      vmm.pmm.freeSet.card ≤ r.vmm.pmm.freeSet.card + 4 * (increment.toNat / 4096 + 1) := by
  have hlow := h.base.low
  have hhigh := h.base.high
  have hend := h.end_le
  have hle := h.le
  have hpages := h.pages_le
  have hne : proc.heapStart ≠ 0#64 := by
    intro hzero
    rw [hzero] at hlow
    simp at hlow
  unfold Syscall.sysSbrk
  rw [if_neg hne]
  by_cases hzero : increment = 0#64
  · rw [if_pos hzero]
    exact ⟨_, rfl, rfl, by rw [hzero, BitVec.add_zero], Nat.le_add_right _ _⟩
  rw [if_neg hzero]
  have hsum : (proc.heapEnd + increment).toNat = proc.heapEnd.toNat + increment.toNat := by
    rw [BitVec.toNat_add]
    omega
  have hold : sbrkPages proc.heapStart proc.heapEnd = heapPageCount proc :=
    sbrkPages_eq hle (by omega)
  have hnew := @sbrkPages_eq proc.heapStart (proc.heapEnd + increment)
    (by omega) (by omega)
  have hcount : sbrkPages proc.heapStart (proc.heapEnd + increment) -
      sbrkPages proc.heapStart proc.heapEnd ≤ increment.toNat / 4096 + 1 := by
    rw [hnew, hold, hsum]
    unfold heapPageCount
    omega
  obtain ⟨tag, htagged, hroot, -⟩ := h.tables
  obtain ⟨out, hmap, hcomplete, hcard⟩ := @mapFreshPages_ok _ _ userPage (sbrkPage proc.heapStart)
    (sbrkPages proc.heapStart (proc.heapEnd + increment) - sbrkPages proc.heapStart proc.heapEnd)
    (sbrkPages proc.heapStart proc.heapEnd) tag vmm htagged hroot (by omega) (fun j _ hj hidx => by
      have := h.base.pml4Index_page (i := j) (by omega)
      omega)
  refine ⟨{ vmm := out.vmm, proc := { proc with heapEnd := proc.heapEnd + increment },
            result := proc.heapEnd, frames := out.frames }, ?_, rfl, rfl, ?_⟩
  · show (mapFreshPages _ _ _ _ _ _ >>= _) = _
    rw [hmap]
    show ite _ _ _ = _
    rw [if_pos hcomplete]
    rfl
  · show _ ≤ out.vmm.pmm.freeSet.card + _
    omega

/-- The break after `mmap` has rounded it up. -/
theorem mmapAlign (h : HeapInv vmm proc) :
    HeapInv vmm (Syscall.mmapAlign proc) ∧
      Syscall.mmapAlign proc = { proc with heapEnd := pageAlignUp proc.heapEnd } ∧
      (pageAlignUp proc.heapEnd).toNat % 4096 = 0 ∧
      proc.heapEnd.toNat ≤ (pageAlignUp proc.heapEnd).toNat := by
  have hlow := h.base.low
  have hhigh := h.base.high
  have haligned := h.base.aligned
  have hend := h.end_le
  have hle := h.le
  have hne : proc.heapEnd ≠ 0#64 := by
    intro hzero
    rw [hzero] at hle
    simp at hle
    omega
  have hnat := @toNat_pageAlignUp proc.heapEnd (by omega)
  have heq : Syscall.mmapAlign proc = { proc with heapEnd := pageAlignUp proc.heapEnd } := by
    rw [Syscall.mmapAlign, if_neg hne]
  refine ⟨?_, heq, by omega, by omega⟩
  rw [heq]
  refine h.move_break (by omega) ?_
  rw [hnat]
  unfold heapPageCount
  omega

/-- `mmap` fails and at most rounds the break up, or returns an aligned address at or above the old
    break and extends the heap from there. -/
theorem linuxMmap (h : HeapInv vmm proc) {len : Word} (hpos : 0 < len.toNat)
    (hlen : len.toNat < 2 ^ 63) {r : HeapReturn} (hok : Syscall.linuxMmap vmm proc len = .ok r) :
    HeapInv r.vmm r.proc ∧ proc.heapEnd.toNat ≤ (pageAlignUp proc.heapEnd).toNat ∧
      (pageAlignUp proc.heapEnd).toNat % 4096 = 0 ∧
      ((r.result = failed ∧ r.proc = { proc with heapEnd := pageAlignUp proc.heapEnd }) ∨
        (r.result = pageAlignUp proc.heapEnd ∧
          r.proc = { proc with heapEnd := pageAlignUp proc.heapEnd + pageAlignUp len })) := by
  obtain ⟨hinv, heq, haligned, hge⟩ := h.mmapAlign
  have hint : ¬ len.toInt ≤ 0 := by
    rw [BitVec.toInt_eq_toNat_of_lt (by omega)]
    omega
  have hround := @toNat_pageAlignUp len (by omega)
  unfold Syscall.linuxMmap at hok
  rw [if_neg hint] at hok
  obtain ⟨hinv', hcases⟩ := hinv.sysSbrk (by omega) hok
  rw [heq] at hcases
  exact ⟨hinv', hge, haligned, hcases⟩

/-- `brk` moves the break to the target, unless that lies before the heap. -/
theorem linuxBrk (h : HeapInv vmm proc) {target : Word} (htarget : target.toNat ≤ 2 ^ 64 - 4096)
    {r : HeapReturn} (hok : Syscall.linuxBrk vmm proc target = .ok r) :
    HeapInv r.vmm r.proc ∧ ((target.toNat < proc.heapStart.toNat ∧ r.proc = proc) ∨
      (proc.heapStart.toNat ≤ target.toNat ∧ r.proc = { proc with heapEnd := target })) := by
  have hlow := h.base.low
  have hhigh := h.base.high
  have haligned := h.base.aligned
  have hend := h.end_le
  have hle := h.le
  unfold Syscall.linuxBrk at hok
  by_cases hstay : target = 0#64 ∨ target < proc.heapStart
  · rw [if_pos hstay] at hok
    cases hok
    refine ⟨h, .inl ⟨?_, rfl⟩⟩
    rcases hstay with hzero | hlt
    · rw [hzero]
      exact Nat.lt_of_lt_of_le (by decide) hlow
    · exact hlt
  rw [if_neg hstay] at hok
  have hge : proc.heapStart.toNat ≤ target.toNat :=
    Nat.le_of_not_lt fun hlt => hstay (.inr hlt)
  by_cases hgrow : proc.heapEnd < target
  · rw [if_pos hgrow] at hok
    have hgrow' : proc.heapEnd.toNat < target.toNat := hgrow
    obtain ⟨out, hmap, hok⟩ := Loops.bind_ok hok
    have hstart := @toNat_pageAlignUp proc.heapEnd (by omega)
    have hstop := toNat_pageAlignUp htarget
    have hcount : brkPages (pageAlignUp proc.heapEnd) (pageAlignUp target) =
        (target.toNat - proc.heapStart.toNat + 4095) / 4096 - heapPageCount proc := by
      rw [brkPages, hstart, hstop, show pageSize = 4096 from rfl]
      unfold heapPageCount
      omega
    have hpages := h.pages_le
    have hvirt : HeapInv.Follows proc (sbrkPage (pageAlignUp proc.heapEnd)) 0
        (brkPages (pageAlignUp proc.heapEnd) (pageAlignUp target)) := by
      intro k _ hk
      have hk' : k ≤ 65536 := hk
      apply BitVec.eq_of_toNat_eq
      rw [h.base.toNat_page (by omega), Nat.zero_add]
      show (pageAlignUp proc.heapEnd + BitVec.ofNat 64 (k * 4096)).toNat = _
      rw [BitVec.toNat_add, hstart, BitVec.toNat_ofNat]
      unfold heapPageCount
      omega
    obtain ⟨-, hext⟩ := h.grow hvirt hmap
    cases hc : out.complete with
    | true =>
        rw [if_pos hc] at hok
        cases hok
        exact ⟨hext hc target hge (by omega), .inr ⟨hge, rfl⟩⟩
    | false =>
        rw [if_neg (by simp [hc])] at hok
        cases hok
  · rw [if_neg hgrow] at hok
    cases hok
    have hshrink : target.toNat ≤ proc.heapEnd.toNat := Nat.le_of_not_lt hgrow
    refine ⟨h.move_break hge ?_, .inr ⟨hge, rfl⟩⟩
    unfold heapPageCount
    omega

end HeapInv

/-! ### Sequences of calls -/

/-- A call that moves the break. -/
inductive HeapOp where
  | sbrk (increment : Word)
  | mmap (len : Word)
  | brk (target : Word)
deriving DecidableEq, Repr

/-- The arguments considered: growing `sbrk`, lengths that leave room for rounding, targets whose
    rounding does not wrap. -/
def HeapOp.Allowed : HeapOp → Prop
  | .sbrk increment => 0 ≤ increment.toInt
  | .mmap len => 0 < len.toNat ∧ len.toNat < 2 ^ 62
  | .brk target => target.toNat ≤ 2 ^ 64 - 4096

def HeapOp.call : HeapOp → Vmm → Process → Except Halt HeapReturn
  | .sbrk increment, s, proc => sysSbrk s proc increment
  | .mmap len, s, proc => linuxMmap s proc len
  | .brk target, s, proc => linuxBrk s proc target

/-- A range of virtual addresses `[lo, hi)`. -/
structure Region where
  lo : Nat
  hi : Nat
deriving DecidableEq, Repr

def Region.Disjoint (a b : Region) : Prop := ∀ x, ¬ ((a.lo ≤ x ∧ x < a.hi) ∧ (b.lo ≤ x ∧ x < b.hi))

/-- The process, its tables, and the regions handed out to it since the last shrinking `brk`. -/
structure HeapState where
  vmm : Vmm
  proc : Process
  granted : List Region

/-- The regions handed out after a call. -/
def HeapOp.grant (op : HeapOp) (before : Process) (r : HeapReturn) (granted : List Region) :
    List Region :=
  match op with
  | .sbrk increment =>
      if r.result = failed then granted
      else ⟨r.result.toNat, r.result.toNat + increment.toNat⟩ :: granted
  | .mmap len =>
      if r.result = failed then granted
      else ⟨r.result.toNat, r.result.toNat + (pageAlignUp len).toNat⟩ :: granted
  | .brk _ =>
      if before.heapEnd < r.proc.heapEnd then
        ⟨before.heapEnd.toNat, r.proc.heapEnd.toNat⟩ :: granted
      else if r.proc.heapEnd < before.heapEnd then []
      else granted

/-- A call that returns. -/
def HeapStep (s : HeapState) (op : HeapOp) (s' : HeapState) : Prop :=
  op.Allowed ∧ ∃ r, op.call s.vmm s.proc = .ok r ∧
    s' = { vmm := r.vmm, proc := r.proc, granted := op.grant s.proc r s.granted }

/-- The regions lie below the break, one after the other. -/
def Granted (brk : Nat) (granted : List Region) : Prop :=
  (∀ region ∈ granted, region.hi ≤ brk) ∧ granted.Pairwise Region.Disjoint

theorem Granted.mono {brk brk' : Nat} {granted : List Region} (h : Granted brk granted)
    (hle : brk ≤ brk') : Granted brk' granted :=
  ⟨fun region hmem => Nat.le_trans (h.1 region hmem) hle, h.2⟩

/-- A region that starts at or above the break is disjoint from all earlier ones. -/
theorem Granted.cons {brk lo hi : Nat} {granted : List Region} (h : Granted brk granted)
    (hlo : brk ≤ lo) : Granted (max brk hi) (⟨lo, hi⟩ :: granted) := by
  refine ⟨fun region hmem => ?_, List.pairwise_cons.2 ⟨fun region hmem x hx => ?_, h.2⟩⟩
  · rcases List.mem_cons.1 hmem with rfl | hmem
    · exact Nat.le_max_right _ _
    · exact Nat.le_trans (h.1 region hmem) (Nat.le_max_left _ _)
  · have := h.1 region hmem
    have hlo' : lo ≤ x := hx.1.1
    have hhi' : x < region.hi := hx.2.2
    omega

/-- The invariant of a sequence of calls. -/
def HeapRunInv (s : HeapState) : Prop :=
  HeapInv s.vmm s.proc ∧ Granted s.proc.heapEnd.toNat s.granted

/-- A break inside the heap is no failure code. -/
theorem HeapInv.end_ne_failed {vmm : Vmm} {proc : Process} (h : HeapInv vmm proc) {brk : Word}
    (hle : brk.toNat ≤ proc.heapEnd.toNat + 4096) : brk ≠ failed := by
  have := h.end_le
  have := h.base.high
  intro heq
  have hnat : failed.toNat = 2 ^ 64 - 1 := by decide
  rw [heq, hnat] at hle
  omega

theorem HeapRunInv.step {s s' : HeapState} {op : HeapOp} (inv : HeapRunInv s)
    (step : HeapStep s op s') : HeapRunInv s' := by
  obtain ⟨hinv, hgranted⟩ := inv
  obtain ⟨hallowed, r, hcall, rfl⟩ := step
  have hend := hinv.end_le
  have hhigh := hinv.base.high
  cases op with
  | sbrk increment =>
      have hinc : increment.toNat < 2 ^ 63 := by
        have hpos : 0 ≤ increment.toInt := hallowed
        rw [BitVec.toInt_eq_toNat_cond] at hpos
        have := increment.isLt
        split at hpos <;> omega
      obtain ⟨hinv', ⟨hres, hproc⟩ | ⟨hres, hproc⟩⟩ := hinv.sysSbrk (Nat.le_of_lt hinc) hcall
      · refine ⟨hinv', ?_⟩
        simp only [HeapOp.grant, hres, if_true, hproc]
        exact hgranted
      · refine ⟨hinv', ?_⟩
        have hne : r.result ≠ failed := hinv.end_ne_failed (by rw [hres]; omega)
        have hsum : (s.proc.heapEnd + increment).toNat =
            s.proc.heapEnd.toNat + increment.toNat := by
          rw [BitVec.toNat_add]
          omega
        simp only [HeapOp.grant, if_neg hne]
        rw [hproc, hres, hsum]
        refine (hgranted.cons (Nat.le_refl _)).mono ?_
        omega
  | mmap len =>
      obtain ⟨hpos, hlen⟩ := hallowed
      obtain ⟨hinv', hge, -, ⟨hres, hproc⟩ | ⟨hres, hproc⟩⟩ := hinv.linuxMmap hpos (by omega) hcall
      · refine ⟨hinv', ?_⟩
        simp only [HeapOp.grant, hres, if_true, hproc]
        exact hgranted.mono hge
      · refine ⟨hinv', ?_⟩
        have hround := @toNat_pageAlignUp s.proc.heapEnd (by omega)
        have hround' := @toNat_pageAlignUp len (by omega)
        have hne : r.result ≠ failed := hinv.end_ne_failed (by rw [hres]; omega)
        have hsum : (pageAlignUp s.proc.heapEnd + pageAlignUp len).toNat =
            (pageAlignUp s.proc.heapEnd).toNat + (pageAlignUp len).toNat := by
          rw [BitVec.toNat_add]
          omega
        simp only [HeapOp.grant, if_neg hne]
        rw [hproc, hres, hsum]
        refine (hgranted.cons hge).mono ?_
        omega
  | brk target =>
      obtain ⟨hinv', -⟩ := hinv.linuxBrk hallowed hcall
      refine ⟨hinv', ?_⟩
      simp only [HeapOp.grant]
      split
      · rename_i hgrow
        have hgrow' : s.proc.heapEnd.toNat < r.proc.heapEnd.toNat := hgrow
        refine (hgranted.cons (Nat.le_refl _)).mono ?_
        omega
      · rename_i hgrow
        have hge : r.proc.heapEnd.toNat ≤ s.proc.heapEnd.toNat := Nat.le_of_not_lt hgrow
        split
        · exact ⟨fun region hmem => (nomatch hmem), List.Pairwise.nil⟩
        · rename_i hshrink
          have hle : s.proc.heapEnd.toNat ≤ r.proc.heapEnd.toNat := Nat.le_of_not_lt hshrink
          exact hgranted.mono hle

/-! ### What the invariant means for the process -/

/-- The address lies in a page that intersects the heap. -/
def InHeapPage (proc : Process) (v : Word) : Prop :=
  ∃ a, proc.heapStart.toNat ≤ a ∧ a < proc.heapEnd.toNat ∧ a / 4096 = v.toNat / 4096

/-- The frame a page of a heap is mapped to. -/
theorem leaf_frame {n : Nat} (hn : n < totalFrames) (v : Word) :
    (leafTranslation v (frameAddr n ||| userPage ||| ptePresent) 12).phys.toNat / 4096 = n := by
  have huser : entryAddr userPage = 0#64 := by decide
  have hleaf : entryAddr (frameAddr n ||| userPage ||| ptePresent) = frameAddr n := by
    simp [entryAddr_frameAddr hn, huser]
  have hlt : n < 65536 := hn
  have hphys := @entryAddr_leaf_phys (frameAddr n ||| userPage ||| ptePresent)
    (by rw [hleaf, toNat_frameAddr hn]; omega) v
  rw [hleaf] at hphys
  have hnat := congrArg BitVec.toNat hphys
  rw [toNat_entryAddr, toNat_frameAddr hn] at hnat
  omega

/-- Every page of the heap is mapped, writable and accessible, to a frame with the page's label. -/
theorem HeapInv.page {vmm : Vmm} {proc : Process} (h : HeapInv vmm proc) :
    ∃ tag : Word → Option Label, ∀ v, InHeapPage proc v → ∃ n tr,
      tag (frameAddr n) = some (slot commonOwner proc.pageTable v 0) ∧
        translate vmm.mem proc.pageTable v = some tr ∧ tr.writable = true ∧ tr.user = true ∧
        tr.phys.toNat / 4096 = n := by
  obtain ⟨tag, -, -, hbacked⟩ := h.tables
  refine ⟨tag, fun v ⟨a, hlo, hhi, hpage⟩ => ?_⟩
  have haligned := h.base.aligned
  have hend := h.end_le
  have hhigh := h.base.high
  have hi : (a - proc.heapStart.toNat) / 4096 < heapPageCount proc := by
    unfold heapPageCount
    omega
  have hpath : walkPath v = walkPath (sbrkPage proc.heapStart
      ((a - proc.heapStart.toNat) / 4096)) := by
    rw [walkPath_eq_iff, h.base.toNat_page (by have := h.pages_le; omega)]
    omega
  obtain ⟨n, hn, htag, htr⟩ := hbacked _ hi
  have hw := htr v hpath
  cases hres : translate vmm.mem proc.pageTable v with
  | none =>
      rw [hres] at hw
      exact hw.elim
  | some tr =>
      rw [hres] at hw
      have hconst : hasFlag userPage pteWritable = true ∧ hasFlag userPage pteUser = true := by
        decide
      refine ⟨n, tr, ?_, rfl, hw.writable ?_, hw.user ?_, ?_⟩
      · rw [htag, slot, slot, hpath]
        rfl
      · simp [leafTranslation, hconst]
      · simp [leafTranslation, hconst]
      · rw [hw.phys, leaf_frame hn]

/-- A process with an empty heap, in tables built by any history of the kernel. -/
theorem HeapInv.init {image : BootImage} {ram : PhysMem} {vmm₀ : Vmm}
    (boot : kernelBoot image ram = .ok vmm₀) {setup : List SpaceCall} {spaces : Spaces}
    (hsetup : Run (SpaceStep image) ⟨vmm₀, []⟩ setup spaces) {proc : Process}
    (hspace : proc.pageTable ∈ spaces.created) (hstart : proc.heapEnd = proc.heapStart)
    (hbase : HeapBase proc.heapStart) : HeapInv spaces.vmm proc := by
  obtain ⟨tag, htagged, -, hspaces⟩ := SpacesInv.common boot hsetup
  refine ⟨hbase, by rw [hstart], tag, htagged, hspaces _ (.inr hspace), fun i hi => ?_⟩
  simp only [heapPageCount, hstart] at hi
  omega

/-- The break and the mappings of a process agree after every sequence of calls: the heap's pages
    are mapped, writable and accessible, each to a frame of its own; `mmap` returns page-aligned
    addresses; and the regions handed out since the last shrinking `brk` are disjoint. -/
theorem heap_calls_coherent (image : BootImage) (ram : PhysMem) (vmm₀ : Vmm)
    (boot : kernelBoot image ram = .ok vmm₀) (setup : List SpaceCall) (spaces : Spaces)
    (hsetup : Run (SpaceStep image) ⟨vmm₀, []⟩ setup spaces) (proc : Process)
    (hspace : proc.pageTable ∈ spaces.created) (hstart : proc.heapEnd = proc.heapStart)
    (haligned : proc.heapStart.toNat % 4096 = 0)
    (hindex : 2 ^ 39 ≤ proc.heapStart.toNat ∧ proc.heapStart.toNat < 2 ^ 40)
    (ops : List HeapOp) (s : HeapState)
    (run : Run HeapStep ⟨spaces.vmm, proc, []⟩ ops s) :
    s.proc.heapStart.toNat ≤ s.proc.heapEnd.toNat ∧
      (∀ v, InHeapPage s.proc v → ∃ tr, translate s.vmm.mem s.proc.pageTable v = some tr ∧
        tr.writable = true ∧ tr.user = true) ∧
      (∀ v w tr tr', InHeapPage s.proc v → InHeapPage s.proc w →
        v.toNat / 4096 ≠ w.toNat / 4096 →
        translate s.vmm.mem s.proc.pageTable v = some tr →
        translate s.vmm.mem s.proc.pageTable w = some tr' →
        tr.phys.toNat / 4096 ≠ tr'.phys.toNat / 4096) ∧
      (∀ len r, 0 < len.toNat → len.toNat < 2 ^ 62 → linuxMmap s.vmm s.proc len = .ok r →
        r.result ≠ failed → r.result.toNat % 4096 = 0) ∧
      s.granted.Pairwise Region.Disjoint := by
  have hinit : HeapRunInv ⟨spaces.vmm, proc, []⟩ :=
    ⟨.init boot hsetup hspace hstart ⟨haligned, hindex.1, hindex.2⟩, fun _ hmem => (nomatch hmem),
      List.Pairwise.nil⟩
  obtain ⟨hinv, hgranted⟩ := run.invariant HeapRunInv (fun _ _ _ inv step => inv.step step) hinit
  obtain ⟨tag', hpage⟩ := hinv.page
  refine ⟨hinv.le, fun v hv => ?_, fun v w tr tr' hv hw hne htr htr' hframe => ?_,
    fun len r hpos hlen hok hres => ?_, hgranted.2⟩
  · obtain ⟨n, tr, -, htr, hwritable, huser, -⟩ := hpage v hv
    exact ⟨tr, htr, hwritable, huser⟩
  · -- one frame, one label, one page
    obtain ⟨n, _, hn, htr₁, -, -, hphys⟩ := hpage v hv
    obtain ⟨n', _, hn', htr₂, -, -, hphys'⟩ := hpage w hw
    rw [htr] at htr₁
    rw [htr'] at htr₂
    cases htr₁
    cases htr₂
    have hnn : n = n' := by omega
    rw [hnn, hn'] at hn
    simp only [slot, commonOwner, List.drop_zero, Option.some.injEq, Label.node.injEq, true_and]
      at hn
    rw [walkPath_eq_iff] at hn
    obtain ⟨a, -, hahi, ha⟩ := hv
    obtain ⟨b, -, hbhi, hb⟩ := hw
    have hend := hinv.end_le
    have hhigh := hinv.base.high
    omega
  · obtain ⟨-, -, hmod, ⟨hfail, -⟩ | ⟨hok', -⟩⟩ := hinv.linuxMmap hpos (by omega) hok
    · exact absurd hfail hres
    · rw [hok']
      exact hmod

/-- A process extends its heap by 100 bytes and then maps 5000 bytes: the second region starts at the
    next page. -/
theorem heap_calls_coherent_sbrk_mmap :
    ∃ (spaces : Spaces) (proc : Process) (s : HeapState), proc.pageTable ∈ spaces.created ∧
      Run HeapStep ⟨spaces.vmm, proc, []⟩ [.sbrk 100#64, .mmap 5000#64] s ∧
      s.granted = [⟨0x8004001000, 0x8004003000⟩, ⟨0x8004000000, 0x8004000064⟩] ∧
      s.granted.Pairwise Region.Disjoint ∧
      ∃ tr, translate s.vmm.mem s.proc.pageTable 0x8004002000#64 = some tr ∧ tr.user = true := by
  obtain ⟨vmm₀, vmm₁, a, boot, hstep, hcard⟩ := bootedImage_space
  obtain ⟨proc, hproc⟩ : ∃ proc : Process, proc =
    { pageTable := frameAddr a, heapStart := 0x8004000000#64, heapEnd := 0x8004000000#64 } := ⟨_, rfl⟩
  have hsetup : Run (SpaceStep bootedImage) ⟨vmm₀, []⟩ [.create] ⟨vmm₁, [frameAddr a]⟩ :=
    .single hstep
  have hstart : proc.heapStart = 0x8004000000#64 := by rw [hproc]
  have hend : proc.heapEnd = proc.heapStart := by rw [hproc]
  have hspace : proc.pageTable ∈ (Spaces.mk vmm₁ [frameAddr a]).created := by simp [hproc]
  have hinv := HeapInv.init boot hsetup hspace hend (by rw [hstart]; exact ⟨by decide, by decide,
    by decide⟩)
  obtain ⟨r₁, hsbrk, hres₁, hproc₁, hcard₁⟩ := hinv.sysSbrk_ok 100#64 (by decide)
    (Nat.le_trans (by decide) hcard)
  have hend₁ : r₁.proc.heapEnd = 0x8004000064#64 := by
    rw [hproc₁, hend, hstart]
    rfl
  obtain ⟨hinv₂, halign, -⟩ := (hinv.sysSbrk (by decide) hsbrk).1.mmapAlign
  have hend₂ : (Syscall.mmapAlign r₁.proc).heapEnd = 0x8004001000#64 := by
    rw [halign]
    show pageAlignUp r₁.proc.heapEnd = _
    rw [hend₁]
    decide
  have hfree : 4 * ((8192#64 : Word).toNat / 4096 + 1) ≤ r₁.vmm.pmm.freeSet.card := by
    simp only [BitVec.toNat_ofNat] at hcard₁ ⊢
    omega
  obtain ⟨r₂, hcall, hres₂, hproc₂, -⟩ := hinv₂.sysSbrk_ok 8192#64 (by decide) hfree
  have hmmap : Syscall.linuxMmap r₁.vmm r₁.proc 5000#64 = .ok r₂ := by
    rw [Syscall.linuxMmap, if_neg (by decide), show pageAlignUp 5000#64 = 8192#64 by decide]
    exact hcall
  have hrun : Run HeapStep ⟨vmm₁, proc, []⟩ [.sbrk 100#64, .mmap 5000#64] _ :=
    .cons ⟨(by decide : (0 : Int) ≤ (100#64 : Word).toInt), r₁, hsbrk, rfl⟩
      (.single ⟨⟨by decide, by decide⟩, r₂, hmmap, rfl⟩)
  obtain ⟨-, hpages, -, -, hdisjoint⟩ := heap_calls_coherent bootedImage (fun _ _ => 0#64) vmm₀ boot
    [.create] _ hsetup proc hspace hend (by rw [hstart]; decide) (by rw [hstart]; decide) _ _ hrun
  have hheap : r₂.proc.heapStart = 0x8004000000#64 ∧ r₂.proc.heapEnd = 0x8004003000#64 := by
    rw [hproc₂, hend₂, halign, hproc₁]
    exact ⟨hstart, show (0x8004001000#64 : Word) + 8192#64 = 0x8004003000#64 by decide⟩
  obtain ⟨tr, htr, -, huser⟩ := hpages 0x8004002000#64 ⟨0x8004002000, by simp [hheap.1],
    by simp [hheap.2], by decide⟩
  refine ⟨⟨vmm₁, [frameAddr a]⟩, proc, _, hspace, hrun, ?_, hdisjoint, tr, htr, huser⟩
  show HeapOp.grant (.mmap 5000#64) r₁.proc r₂ (HeapOp.grant (.sbrk 100#64) proc r₁ []) = _
  rw [HeapOp.grant, HeapOp.grant, hres₁, hend, hstart, hres₂, hend₂, if_neg (by decide),
    if_neg (by decide)]
  decide

end CustomKernel.Syscall
