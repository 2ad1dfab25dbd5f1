/-
Module: CustomKernel.Proofs.FailedGrowth
Layer: Proofs
Purpose: What a growth of the heap that returns `-1` leaves behind. The break of the process is only
  moved when every page is mapped, but the pages mapped before the frames ran out stay mapped, and
  `mmap` has rounded the break up before it asks for memory. So a failed growth leaves everything as it
  was exactly if it fails at its first frame.
Imports: CustomKernel.Proofs.HeapBreak
Trusted boundary: as in SystemRuns: the kernel heap, the descriptors and the archive are beside
  physical memory
Main exports: HeapUnchanged, growth_undone, growth_undone_no_frame, growth_left_half_done
-/
import CustomKernel.Proofs.HeapBreak

namespace CustomKernel

open Memory Filesystem Syscall Loops

/-! ### Counting -/

/-- The counter follows the bitmap. -/
theorem Memory.Allocs.counter {pmm pmm' : Pmm} (h : Allocs pmm pmm') :
    pmm'.freeFrameCount + BitVec.ofNat 64 pmm.freeSet.card =
      pmm.freeFrameCount + BitVec.ofNat 64 pmm'.freeSet.card := by
  obtain ⟨count, rfl⟩ := h
  induction count generalizing pmm with
  | zero => rfl
  | succ count ih =>
      rw [show count + 1 = 1 + count by omega, pmmAllocs_add]
      have hrest := @ih (pmmAllocs 1 pmm).1
      rcases pmmAlloc_spec pmm with ⟨hnull, -⟩ | ⟨n, hn, -, halloc⟩
      · have hsame : (pmmAllocs 1 pmm).1 = pmm := congrArg Prod.fst hnull
        rw [hsame] at hrest ⊢
        exact hrest
      · have hone : (pmmAllocs 1 pmm).1 = reserveFrame n pmm := congrArg Prod.fst halloc
        have hcard : pmm.freeSet.card = (reserveFrame n pmm).freeSet.card + 1 := by
          rw [freeSet_reserveFrame, Finset.card_erase_add_one hn]
        have hcount : (reserveFrame n pmm).freeFrameCount = pmm.freeFrameCount - 1#64 := rfl
        rw [hone] at hrest ⊢
        rw [hcount] at hrest
        rw [hcard, BitVec.ofNat_add]
        generalize (pmmAllocs count (reserveFrame n pmm)).1.freeFrameCount = after at hrest ⊢
        generalize BitVec.ofNat 64 (reserveFrame n pmm).freeSet.card = cards at hrest ⊢
        generalize BitVec.ofNat 64 (pmmAllocs count (reserveFrame n pmm)).1.freeSet.card = left
          at hrest ⊢
        bv_omega

/-- A frame that is gone shows in the counter. -/
theorem Memory.Allocs.counter_ne {pmm pmm' : Pmm} (h : Allocs pmm pmm')
    (hless : pmm'.freeSet.card < pmm.freeSet.card) :
    pmmFreeFrames pmm' ≠ pmmFreeFrames pmm := by
  intro hsame
  have hcounter := h.counter
  have hle := freeSet_card_le pmm
  have htotal : totalFrames = 65536 := by decide
  unfold pmmFreeFrames at hsame
  rw [hsame] at hcounter
  have hcards := congrArg BitVec.toNat ((BitVec.add_right_inj _).1 hcounter)
  rw [BitVec.toNat_ofNat, BitVec.toNat_ofNat, Nat.mod_eq_of_lt (by omega),
    Nat.mod_eq_of_lt (by omega)] at hcards
  omega

/-- A loop that has got a frame has one frame less to leave. -/
theorem mapFreshPages_takes {pml4 flags : Word} {virt : Nat → Word} {count i : Nat} {s : Vmm}
    {out : FreshPages} (hok : mapFreshPages pml4 virt flags (count + 1) i s = .ok out)
    (hfree : s.pmm.freeSet ≠ ∅) : out.vmm.pmm.freeSet.card < s.pmm.freeSet.card := by
  have hfirst : (pmmAlloc s.pmm).1.freeSet.card < s.pmm.freeSet.card := by
    rcases pmmAlloc_spec s.pmm with ⟨-, hempty⟩ | ⟨n, hn, -, halloc⟩
    · exact absurd hempty hfree
    · rw [halloc, freeSet_reserveFrame]
      exact Finset.card_erase_lt_of_mem hn
  have hallocs : Allocs (pmmAlloc s.pmm).1 out.vmm.pmm := by
    unfold mapFreshPages at hok
    dsimp only at hok
    split at hok
    · cases hok
      exact .refl _
    · obtain ⟨s₁, hmap, hok⟩ := bind_ok hok
      obtain ⟨rest, hrest, hok⟩ := bind_ok hok
      have hrest' := (vmmMapIn_allocs hmap).trans (mapFreshPages_allocs count (i + 1) s₁ rest hrest)
      cases hok
      exact hrest'
  exact (Finset.card_le_card hallocs.free).trans_lt hfirst

/-- A loop without a frame does nothing. -/
theorem mapFreshPages_stuck {pml4 flags : Word} {virt : Nat → Word} {count i : Nat} {s : Vmm}
    {out : FreshPages} (hok : mapFreshPages pml4 virt flags (count + 1) i s = .ok out)
    (hfree : s.pmm.freeSet = ∅) : out.vmm = s ∧ out.complete = false := by
  unfold mapFreshPages at hok
  rcases pmmAlloc_spec s.pmm with ⟨hnull, -⟩ | ⟨n, hn, -, -⟩
  · simp only [hnull, if_true] at hok
    cases hok
    exact ⟨rfl, rfl⟩
  · rw [hfree] at hn
    cases hn

/-! ### Failed calls -/

/-- The break, the mappings of the process and the number of free frames are as they were. -/
def HeapUnchanged (s : Vmm) (proc : Process) (r : HeapReturn) : Prop :=
  r.proc.heapEnd = proc.heapEnd ∧
    (∀ v, translate r.vmm.mem proc.pageTable v = translate s.mem proc.pageTable v) ∧
    pmmFreeFrames r.vmm.pmm = pmmFreeFrames s.pmm

/-- A failed `sbrk`. -/
theorem sysSbrk_unchanged_iff {s : Vmm} {proc : Process} {increment : Word} {r : HeapReturn}
    (hok : sysSbrk s proc increment = .ok r) (hfailed : r.result = failed) :
    HeapUnchanged s proc r ↔ proc.heapStart = 0#64 ∨ increment = 0#64 ∨
      (s.pmm.freeSet = ∅ ∧ sbrkPages proc.heapStart proc.heapEnd <
        sbrkPages proc.heapStart (proc.heapEnd + increment)) := by
  by_cases hstart : proc.heapStart = 0#64
  · unfold sysSbrk at hok
    rw [if_pos hstart] at hok
    cases hok
    exact ⟨fun _ => .inl hstart, fun _ => ⟨rfl, fun _ => rfl, rfl⟩⟩
  rcases sysSbrk_cases hstart hok with ⟨hzero, rfl⟩ | ⟨hne, out, hmap, hcase⟩
  · exact ⟨fun _ => .inr (.inl hzero), fun _ => ⟨rfl, fun _ => rfl, rfl⟩⟩
  · have hvmm : r.vmm = out.vmm := by
      rcases hcase with ⟨-, rfl⟩ | ⟨-, rfl⟩ <;> rfl
    by_cases hpages : sbrkPages proc.heapStart proc.heapEnd <
        sbrkPages proc.heapStart (proc.heapEnd + increment)
    · obtain ⟨count, hcount⟩ : ∃ count, sbrkPages proc.heapStart (proc.heapEnd + increment) -
          sbrkPages proc.heapStart proc.heapEnd = count + 1 := ⟨_, (Nat.succ_pred (by omega)).symm⟩
      rw [hcount] at hmap
      by_cases hfree : s.pmm.freeSet = ∅
      · obtain ⟨hsame, hstuck⟩ := mapFreshPages_stuck hmap hfree
        rcases hcase with ⟨hcomplete, -⟩ | ⟨-, rfl⟩
        · rw [hstuck] at hcomplete
          cases hcomplete
        · rw [hsame]
          exact ⟨fun _ => .inr (.inr ⟨hfree, hpages⟩), fun _ => ⟨rfl, fun _ => rfl, rfl⟩⟩
      · -- a frame is gone
        have hless := mapFreshPages_takes hmap hfree
        have hgone := (mapFreshPages_allocs _ _ _ _ hmap).counter_ne hless
        constructor
        · rintro ⟨-, -, hcount'⟩
          rw [hvmm] at hcount'
          exact absurd hcount' hgone
        · rintro (hbad | hbad | ⟨hbad, -⟩)
          · exact absurd hbad hstart
          · exact absurd hbad hne
          · exact absurd hbad hfree
    · -- nothing to map: the call has moved the break, away from the address `-1`
      have hzero : sbrkPages proc.heapStart (proc.heapEnd + increment) -
          sbrkPages proc.heapStart proc.heapEnd = 0 := by omega
      rw [hzero] at hmap
      cases hmap
      rcases hcase with ⟨-, rfl⟩ | ⟨hbad, -⟩
      · constructor
        · rintro ⟨hmoved, -⟩
          refine .inr (.inl ?_)
          dsimp only at hmoved
          exact BitVec.add_right_eq_self.1 hmoved
        · rintro (hbad | hbad | ⟨-, hbad⟩)
          · exact absurd hbad hstart
          · exact absurd hbad hne
          · exact absurd hbad hpages
      · cases hbad

/-- A length that `mmap` accepts is still one when it is rounded up. -/
theorem mmap_length {len : Word} (hlen : ¬ len.toInt ≤ 0) : pageAlignUp len ≠ 0#64 := by
  have hcond := BitVec.toInt_eq_toNat_cond len
  have hlt := len.isLt
  have hround : (pageAlignUp len).toNat = (len.toNat + 4095) / 4096 * 4096 := by
    apply toNat_pageAlignUp
    split at hcond <;> omega
  intro hzero
  rw [hzero] at hround
  change 0 = _ at hround
  split at hcond <;> omega

theorem mmapAlign_proc (proc : Process) :
    (mmapAlign proc).heapStart = proc.heapStart ∧ (mmapAlign proc).pageTable = proc.pageTable ∧
      (mmapAlign proc).heapEnd ≠ failed := by
  unfold mmapAlign
  split
  · rename_i hzero
    refine ⟨rfl, rfl, ?_⟩
    rw [hzero]
    decide
  · refine ⟨rfl, rfl, fun hbad => ?_⟩
    have haligned := pageAlignUp_aligned proc.heapEnd
    dsimp only at hbad
    rw [hbad] at haligned
    revert haligned
    decide

/-- A failed `mmap`. -/
theorem linuxMmap_unchanged_iff {s : Vmm} {proc : Process} {len : Word} {r : HeapReturn}
    (hok : linuxMmap s proc len = .ok r) (hfailed : r.result = failed) :
    HeapUnchanged s proc r ↔ len.toInt ≤ 0 ∨
      ((mmapAlign proc).heapEnd = proc.heapEnd ∧
        (proc.heapStart = 0#64 ∨ s.pmm.freeSet = ∅)) := by
  unfold linuxMmap at hok
  by_cases hlen : len.toInt ≤ 0
  · rw [if_pos hlen] at hok
    cases hok
    exact ⟨fun _ => .inl hlen, fun _ => ⟨rfl, fun _ => rfl, rfl⟩⟩
  · rw [if_neg hlen] at hok
    obtain ⟨hstart, htable, hend⟩ := mmapAlign_proc proc
    have hsbrk := sysSbrk_unchanged_iff hok hfailed
    -- the call fails with the break that it was given
    have hkept : r.proc.heapEnd = (mmapAlign proc).heapEnd ∧
        ((mmapAlign proc).heapStart ≠ 0#64 → s.pmm.freeSet = ∅ →
          sbrkPages (mmapAlign proc).heapStart (mmapAlign proc).heapEnd <
            sbrkPages (mmapAlign proc).heapStart ((mmapAlign proc).heapEnd + pageAlignUp len)) := by
      by_cases hzero : (mmapAlign proc).heapStart = 0#64
      · unfold sysSbrk at hok
        rw [if_pos hzero] at hok
        cases hok
        exact ⟨rfl, fun hbad => absurd hzero hbad⟩
      · rcases sysSbrk_cases hzero hok with ⟨hbad, -⟩ | ⟨-, out, hmap, ⟨-, rfl⟩ | ⟨hstuck, rfl⟩⟩
        · exact absurd hbad (mmap_length hlen)
        · exact absurd hfailed hend
        · refine ⟨rfl, fun _ _ => Nat.lt_of_not_le fun hle => ?_⟩
          rw [Nat.sub_eq_zero_of_le hle] at hmap
          cases hmap
          cases hstuck
    have hunchanged : HeapUnchanged s proc r ↔
        (mmapAlign proc).heapEnd = proc.heapEnd ∧ HeapUnchanged s (mmapAlign proc) r := by
      unfold HeapUnchanged
      rw [htable, hkept.1]
      constructor
      · rintro ⟨hbrk, hrest⟩
        exact ⟨hbrk, rfl, hrest⟩
      · rintro ⟨hbrk, -, hrest⟩
        exact ⟨hbrk, hrest⟩
    rw [hunchanged, hsbrk]
    constructor
    · rintro ⟨hbrk, hbad | hbad | ⟨hfree, -⟩⟩
      · exact .inr ⟨hbrk, .inl (hstart ▸ hbad)⟩
      · exact absurd hbad (mmap_length hlen)
      · exact .inr ⟨hbrk, .inr hfree⟩
    · rintro (hbad | ⟨hbrk, hzero | hfree⟩)
      · exact absurd hbad hlen
      · exact ⟨hbrk, .inl (hstart.trans hzero)⟩
      · refine ⟨hbrk, ?_⟩
        by_cases hzero : (mmapAlign proc).heapStart = 0#64
        · exact .inl hzero
        · exact .inr (.inr ⟨hfree, hkept.2 hzero hfree⟩)

/-- When a failed growth leaves everything as it was. -/
theorem growth_undone (s : Vmm) (proc : Process) :
    (∀ increment r, sysSbrk s proc increment = .ok r → r.result = failed →
      (HeapUnchanged s proc r ↔ proc.heapStart = 0#64 ∨ increment = 0#64 ∨
        (s.pmm.freeSet = ∅ ∧ sbrkPages proc.heapStart proc.heapEnd <
          sbrkPages proc.heapStart (proc.heapEnd + increment)))) ∧
      ∀ len r, linuxMmap s proc len = .ok r → r.result = failed →
        (HeapUnchanged s proc r ↔ len.toInt ≤ 0 ∨ ((mmapAlign proc).heapEnd = proc.heapEnd ∧
          (proc.heapStart = 0#64 ∨ s.pmm.freeSet = ∅))) :=
  ⟨fun _ _ hok hfailed => sysSbrk_unchanged_iff hok hfailed,
    fun _ _ hok hfailed => linuxMmap_unchanged_iff hok hfailed⟩

/-! ### With no frame left, and with one -/

/-- A growth that runs out of frames. -/
theorem sysSbrk_fails {s : Vmm} {proc : Process} {increment : Word} {out : FreshPages}
    (hstart : proc.heapStart ≠ 0#64) (hne : increment ≠ 0#64)
    (hmap : mapFreshPages proc.pageTable (sbrkPage proc.heapStart) userPage
      (sbrkPages proc.heapStart (proc.heapEnd + increment) - sbrkPages proc.heapStart proc.heapEnd)
      (sbrkPages proc.heapStart proc.heapEnd) s = .ok out) (hstuck : out.complete = false) :
    sysSbrk s proc increment =
      .ok { vmm := out.vmm, proc := proc, result := failed, frames := out.frames } := by
  unfold sysSbrk
  rw [if_neg hstart, if_neg hne]
  simp only [hmap]
  show (if out.complete = true then _ else _) = _
  rw [if_neg (by rw [hstuck]; decide)]
  rfl

theorem mapFreshPages_empty {pml4 flags : Word} {virt : Nat → Word} {s : Vmm}
    (hfree : s.pmm.freeSet = ∅) (count i : Nat) :
    mapFreshPages pml4 virt flags (count + 1) i s =
      .ok { vmm := s, frames := [], complete := false } := by
  unfold mapFreshPages
  rcases pmmAlloc_spec s.pmm with ⟨hnull, -⟩ | ⟨n, hn, -, -⟩
  · simp only [hnull, if_true]
  · rw [hfree] at hn
    cases hn

/-- A bitmap with all bits set, except in one byte. -/
def almostFull (byte : BitVec 8) (count : Word) : Pmm :=
  { bitmap := fun i => if i = 5000 then byte else 0xFF#8, freeFrameCount := count }

theorem mem_almostFull {byte : BitVec 8} {count : Word} {n : Nat} :
    n ∈ (almostFull byte count).freeSet ↔
      n / 8 = 5000 ∧ byte &&& 1#8 <<< (n % 8) = 0#8 := by
  have hbit : ∀ j < 8, 0xFF#8 &&& 1#8 <<< j ≠ 0#8 := by decide
  have hfull := hbit (n % 8) (Nat.mod_lt n (by decide))
  rw [mem_freeSet]
  unfold almostFull bitmapTest
  dsimp only
  by_cases hbyte : n / 8 = 5000
  · have hlt : n < totalFrames := by
      show n < 65536
      omega
    simp [hbyte, hlt]
  · simp [hbyte, hfull]

/-- A booted machine with the tables of one process down to the page table of its heap. Its PML4 has
    the entry of the kernel; frames 50000 to 50003 are far from those that the boot has taken. -/
def heapMachine (booted : Vmm) (pmm : Pmm) : Vmm where
  pmm := pmm
  mem := fun table i =>
    if table = frameAddr 50000 then
      if i = 0 then booted.mem booted.cr3 0
      else if i = 1 then frameAddr 50001 ||| userPage
      else 0#64
    else if table = frameAddr 50001 then if i = 0 then frameAddr 50002 ||| userPage else 0#64
    else if table = frameAddr 50002 then if i = 32 then frameAddr 50003 ||| userPage else 0#64
    else if table = frameAddr 50003 then 0#64
    else booted.mem table i
  cr3 := frameAddr 50000

/-- Its process, with an empty heap. -/
def heapProcess : Process :=
  { pageTable := frameAddr 50000, heapStart := userHeapBase, heapEnd := userHeapBase }

/-- An entry that is there needs no frame. -/
theorem getOrCreateTable_present {s : Vmm} {table next : Word} {i : Nat}
    (hentry : s.mem table i = next ||| userPage) (hnext : entryAddr next = next)
    (hhuge : hasFlag next pteHuge = false) :
    getOrCreateTable s table i (pteWritable ||| pteUser) =
      .ok ({ s with mem := s.mem.store table i (next ||| userPage ||| pteUser ||| pteWritable) },
        next) := by
  have hflags : hasFlag userPage ptePresent = true ∧ hasFlag userPage pteHuge = false ∧
      hasFlag (pteWritable ||| pteUser) pteUser = true ∧
      hasFlag (pteWritable ||| pteUser) pteWritable = true ∧
      hasFlag (pteWritable ||| pteUser) ptePresent = false ∧
      entryAddr userPage = 0#64 ∧ entryAddr pteUser = 0#64 ∧ entryAddr pteWritable = 0#64 := by
    decide
  obtain ⟨hp, hh, hu, hw, hz, hpage, huser, hwritable⟩ := hflags
  unfold getOrCreateTable
  rw [hentry]
  simp [hp, hh, hhuge, hu, hw, hz, hnext, hpage, huser, hwritable]

/-- The first page of the heap can be mapped without a table. -/
theorem heapMachine_maps (booted : Vmm) (pmm : Pmm) (phys : Word) : ∃ s',
    vmmMapIn (heapMachine booted pmm) (frameAddr 50000) userHeapBase phys userPage = .ok s' ∧
      s'.pmm = pmm := by
  have hindex : pml4Index userHeapBase = 1 ∧ pdptIndex userHeapBase = 0 ∧
      pdIndex userHeapBase = 32 := by decide
  have hframes : entryAddr (frameAddr 50000) = frameAddr 50000 ∧
      entryAddr (frameAddr 50001) = frameAddr 50001 ∧ entryAddr (frameAddr 50002) = frameAddr 50002 ∧
      entryAddr (frameAddr 50003) = frameAddr 50003 ∧ hasFlag (frameAddr 50001) pteHuge = false ∧
      hasFlag (frameAddr 50002) pteHuge = false ∧ hasFlag (frameAddr 50003) pteHuge = false := by decide
  have hapart : frameAddr 50001 ≠ frameAddr 50000 ∧ frameAddr 50002 ≠ frameAddr 50000 ∧
      frameAddr 50002 ≠ frameAddr 50001 := by decide
  obtain ⟨h0, h1, h2, h3, hh1, hh2, hh3⟩ := hframes
  obtain ⟨ha, hb, hc⟩ := hapart
  unfold vmmMapIn vmmMap vmmSwitchAddressSpace
  dsimp only
  rw [h0, hindex.1, hindex.2.1, hindex.2.2]
  rw [@getOrCreateTable_present _ (frameAddr 50000) (frameAddr 50001) 1 (by simp [heapMachine]) h1 hh1]
  dsimp only [bind, Except.bind]
  rw [@getOrCreateTable_present _ (frameAddr 50001) (frameAddr 50002) 0
    (by simp [heapMachine, PhysMem.store, Function.update_of_ne, ha]) h2 hh2]
  dsimp only [bind, Except.bind]
  rw [@getOrCreateTable_present _ (frameAddr 50002) (frameAddr 50003) 32
    (by simp [heapMachine, PhysMem.store, Function.update_of_ne, hb, hc]) h3 hh3]
  exact ⟨_, rfl, rfl⟩

/-- A growth of the empty heap of that process. -/
theorem heapProcess_fails {s : Vmm} {increment : Word} {count : Nat} {out : FreshPages}
    (hne : increment ≠ 0#64) (hcount : sbrkPages userHeapBase (userHeapBase + increment) = count)
    (hmap : mapFreshPages (frameAddr 50000) (sbrkPage userHeapBase) userPage count 0 s = .ok out)
    (hstuck : out.complete = false) :
    sysSbrk s heapProcess increment =
      .ok { vmm := out.vmm, proc := heapProcess, result := failed, frames := out.frames } := by
  have hnone : sbrkPages userHeapBase userHeapBase = 0 := by decide
  refine sysSbrk_fails (show userHeapBase ≠ 0#64 by decide) hne ?_ hstuck
  show mapFreshPages (frameAddr 50000) (sbrkPage userHeapBase) userPage
    (sbrkPages userHeapBase (userHeapBase + increment) - sbrkPages userHeapBase userHeapBase)
    (sbrkPages userHeapBase userHeapBase) s = _
  rw [hnone, hcount, Nat.sub_zero]
  exact hmap

/-- Without a free frame both calls fail and leave no trace. -/
theorem growth_undone_no_frame : ∃ booted r r',
    kernelBoot bootedImage (fun _ _ => 0#64) = .ok booted ∧
    sysSbrk (heapMachine booted (almostFull 0xFF#8 0#64)) heapProcess 4096#64 = .ok r ∧
      r.result = failed ∧
      linuxMmap (heapMachine booted (almostFull 0xFF#8 0#64)) heapProcess 4096#64 = .ok r' ∧
      r'.result = failed ∧
      HeapUnchanged (heapMachine booted (almostFull 0xFF#8 0#64)) heapProcess r ∧
      HeapUnchanged (heapMachine booted (almostFull 0xFF#8 0#64)) heapProcess r' := by
  obtain ⟨booted, boot, -⟩ := bootedImage_boots fun _ _ => 0#64
  have hfree : (heapMachine booted (almostFull 0xFF#8 0#64)).pmm.freeSet = ∅ := by
    apply Finset.eq_empty_of_forall_notMem
    intro n hn
    have hbit : ∀ j < 8, 0xFF#8 &&& 1#8 <<< j ≠ 0#8 := by decide
    exact hbit (n % 8) (Nat.mod_lt n (by decide)) (mem_almostFull.1 hn).2
  have hpages : sbrkPages userHeapBase userHeapBase = 0 ∧
      sbrkPages userHeapBase (userHeapBase + 4096#64) = 1 := by decide
  have hsame : mmapAlign heapProcess = heapProcess ∧ pageAlignUp 4096#64 = 4096#64 := by decide
  have hcall : sysSbrk (heapMachine booted (almostFull 0xFF#8 0#64)) heapProcess 4096#64 = .ok
      { vmm := heapMachine booted (almostFull 0xFF#8 0#64), proc := heapProcess, result := failed
        frames := [] } :=
    heapProcess_fails (by decide) hpages.2 (mapFreshPages_empty hfree 0 0) rfl
  have hmmap : linuxMmap (heapMachine booted (almostFull 0xFF#8 0#64)) heapProcess 4096#64 = .ok
      { vmm := heapMachine booted (almostFull 0xFF#8 0#64), proc := heapProcess, result := failed
        frames := [] } := by
    unfold linuxMmap
    rw [if_neg (by decide), hsame.1, hsame.2]
    exact hcall
  have hundone := growth_undone (heapMachine booted (almostFull 0xFF#8 0#64)) heapProcess
  refine ⟨booted, _, _, boot, hcall, rfl, hmmap, rfl, ?_, ?_⟩
  · refine (hundone.1 _ _ hcall rfl).2 (.inr (.inr ⟨hfree, ?_⟩))
    show sbrkPages userHeapBase userHeapBase < sbrkPages userHeapBase (userHeapBase + 4096#64)
    rw [hpages.1, hpages.2]
    exact Nat.one_pos
  · refine (hundone.2 _ _ hmmap rfl).2 (.inr ⟨?_, .inr hfree⟩)
    rw [hsame.1]

/-- With one free frame a growth by two pages fails behind the first one. -/
theorem growth_left_half_done : ∃ booted r,
    kernelBoot bootedImage (fun _ _ => 0#64) = .ok booted ∧
    sysSbrk (heapMachine booted (almostFull 0xFE#8 1#64)) heapProcess 8192#64 = .ok r ∧
      r.result = failed ∧ ¬ HeapUnchanged (heapMachine booted (almostFull 0xFE#8 1#64)) heapProcess r := by
  obtain ⟨booted, boot, -⟩ := bootedImage_boots fun _ _ => 0#64
  have hfree : ∀ n, n ∈ (almostFull 0xFE#8 1#64).freeSet ↔ n = 40000 := by
    intro n
    have hbit : ∀ j < 8, 0xFE#8 &&& 1#8 <<< j = 0#8 → j = 0 := by decide
    rw [mem_almostFull]
    constructor
    · rintro ⟨hbyte, hclear⟩
      have := hbit (n % 8) (Nat.mod_lt n (by decide)) hclear
      omega
    · rintro rfl
      decide
  have halloc : pmmAlloc (almostFull 0xFE#8 1#64) =
      (reserveFrame 40000 (almostFull 0xFE#8 1#64), 40000 * pageSize) := by
    rcases pmmAlloc_spec (almostFull 0xFE#8 1#64) with ⟨-, hempty⟩ | ⟨n, hn, -, halloc⟩
    · have hmem := (hfree 40000).2 rfl
      rw [hempty] at hmem
      cases hmem
    · obtain rfl := (hfree n).1 hn
      exact halloc
  -- the first page takes the frame
  obtain ⟨s₁, hmap, hpmm⟩ := heapMachine_maps booted (reserveFrame 40000 (almostFull 0xFE#8 1#64))
    (frameAddr 40000)
  have hempty : s₁.pmm.freeSet = ∅ := by
    rw [hpmm, freeSet_reserveFrame]
    apply Finset.eq_empty_of_forall_notMem
    intro n hn
    obtain ⟨hne, hmem⟩ := Finset.mem_erase.1 hn
    exact hne ((hfree n).1 hmem)
  have hfirst : sbrkPage userHeapBase 0 = userHeapBase := by decide
  have hloop : mapFreshPages (frameAddr 50000) (sbrkPage userHeapBase) userPage 2 0
      (heapMachine booted (almostFull 0xFE#8 1#64)) =
        .ok { vmm := s₁, frames := [frameAddr 40000], complete := false } := by
    unfold mapFreshPages
    have hpmm₀ : (heapMachine booted (almostFull 0xFE#8 1#64)).pmm = almostFull 0xFE#8 1#64 := rfl
    rw [hpmm₀, halloc]
    dsimp only
    rw [if_neg (by decide), hfirst]
    change (vmmMapIn (heapMachine booted (reserveFrame 40000 (almostFull 0xFE#8 1#64))) (frameAddr 50000)
      userHeapBase (frameAddr 40000) userPage >>= _) = _
    rw [hmap]
    show (mapFreshPages (frameAddr 50000) (sbrkPage userHeapBase) userPage (0 + 1) 1 s₁ >>= _) = _
    rw [mapFreshPages_empty hempty]
    rfl
  refine ⟨booted, _, boot, heapProcess_fails (by decide) (by decide) hloop rfl, rfl, ?_⟩
  rintro ⟨-, -, hcount⟩
  unfold pmmFreeFrames at hcount
  dsimp only at hcount
  rw [hpmm] at hcount
  exact absurd hcount (show (reserveFrame 40000 (almostFull 0xFE#8 1#64)).freeFrameCount ≠
    (almostFull 0xFE#8 1#64).freeFrameCount by decide)

end CustomKernel
