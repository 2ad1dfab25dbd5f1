/-
Module: CustomKernel.Proofs.LoaderMappings
Layer: Proofs
Purpose: Which pages `process_create_elf` maps, and whether it maps one twice. The calls of
  `vmm_map_in` are recorded along the run, whether it returns or halts: they go through the pages of
  the stack and of the loadable segments in order, and get to the end when there is a process. Two of
  them are for one page exactly when two segments share a page after rounding, or a segment lies in
  the stack; otherwise what was loaded is there at the end.
Imports: CustomKernel.Proofs.LoadedPrograms
Trusted boundary: as in SystemRuns: the kernel heap, the descriptors and the archive are beside
  physical memory
Main exports: processCreateElfTargets, Reaches, processCreateElfTargets_reaches, loader_maps_once,
  loader_maps_twice
-/
import CustomKernel.Proofs.LoadedPrograms

namespace CustomKernel.Filesystem

open CustomKernel.Memory CustomKernel.Syscall Loops

/-! ### The calls of `vmm_map_in` -/

/-- What is recorded behind a step that may halt. -/
def after {α β : Type} (step : Except Halt α) (rest : α → List β) : List β :=
  match step with
  | .ok a => rest a
  | .error _ => []

/-- The addresses that `mapFreshPages` calls `vmm_map_in` with. -/
def freshTargets (pml4 : Word) (virt : Nat → Word) (flags : Word) : (count i : Nat) → Vmm → List Word
  | 0, _, _ => []
  | count + 1, i, s =>
      let (pmm, frame) := pmmAlloc s.pmm
      if frame = 0 then []
      else
        virt i :: after (vmmMapIn { s with pmm := pmm } pml4 (virt i) (framePointer frame) flags)
          fun s => freshTargets pml4 virt flags count (i + 1) s

/-- The addresses that `elfLoop` calls `vmm_map_in` with. -/
def elfLoopTargets (stale : Stale) (ehdr : Ehdr) (fd : Int) (pageTable savedCr3 : Word) :
    (count i : Nat) → ElfLoop → List Word
  | 0, _, _ => []
  | count + 1, i, st =>
      after (seekRead st.disk fd (ehdr.ePhoff + BitVec.ofNat 64 (i * phdrSize))
        (BitVec.ofNat 64 phdrSize)) fun read =>
      let phdr := Phdr.ofBytes (overwrite (stale.phdr i) read.bytes)
      if phdr.loadable then
        let lastVend := if st.lastVend < phdr.vend then phdr.vend else st.lastVend
        freshTargets pageTable (sbrkPage phdr.vstart) userPage (brkPages phdr.vstart phdr.vend) 0
          st.vmm ++
        after (mapFreshPages pageTable (sbrkPage phdr.vstart) userPage
          (brkPages phdr.vstart phdr.vend) 0 st.vmm) fun pages =>
        if pages.complete then
          after (storeBytes phdr.pVaddr (List.replicate phdr.pMemsz.toNat 0#8)
            (vmmSwitchAddressSpace pages.vmm pageTable)) fun s =>
          after (seekRead read.disk fd phdr.pOffset phdr.pFilesz) fun contents =>
          after (storeBytes phdr.pVaddr contents.bytes s) fun s =>
          elfLoopTargets stale ehdr fd pageTable savedCr3 count (i + 1)
            { vmm := vmmSwitchAddressSpace s savedCr3
              disk := contents.disk
              lastVend := lastVend
              ok := true }
        else []
      else
        elfLoopTargets stale ehdr fd pageTable savedCr3 count (i + 1) { st with disk := read.disk }

/-- The addresses that `loadElf` calls `vmm_map_in` with. -/
def loadElfTargets (stale : Stale) (ehdr : Ehdr) (fd : Int) (k : Kernel) : List Word :=
  let (vmm, pageTable) := vmmCreateAddressSpace k.vmm
  if pageTable = 0#64 then []
  else
    freshTargets pageTable userStackPage userPage userStackPages 0 vmm ++
    after (mapFreshPages pageTable userStackPage userPage userStackPages 0 vmm) fun stack =>
    if stack.complete then
      elfLoopTargets stale ehdr fd pageTable stack.vmm.cr3 ehdr.ePhnum.toNat 0
        { vmm := stack.vmm, disk := k.disk, lastVend := 0#64, ok := true }
    else []

/-- The addresses that `process_create_elf` calls `vmm_map_in` with, in order, up to where the call
    returns or halts. -/
def processCreateElfTargets (fuel : Nat) (stale : Stale) (k : Kernel) (path : List Byte) :
    List Word :=
  let (fd, disk) := ramdiskOpen k.disk path
  if fd < 0 then []
  else
    after (orEndless (ramdiskRead disk fd ehdrSize)) fun read =>
    let ehdr := Ehdr.ofBytes (overwrite stale.ehdr read.bytes)
    if ehdr.Supported then
      after (processAlloc fuel { k with disk := read.disk }) fun (k, proc) =>
      match proc with
      | none => []
      | some _ => loadElfTargets stale ehdr fd k
    else []

/-! ### Records of a run -/

/-- A run that gets to the pages of a list in order: it gets to the first of them, at most as many as
    there are frames, and to all of them if it gets through. -/
structure Reaches (pages targets : List Word) (frames : Nat) (through : Prop) : Prop where
  first : targets <+: pages
  length : targets.length ≤ frames
  all : through → targets = pages

variable {pages more targets rest : List Word} {frames frames' : Nat} {through through' : Prop}

theorem Reaches.none (pages : List Word) (frames : Nat) (hthrough : ¬ through) :
    Reaches pages [] frames through :=
  ⟨List.nil_prefix, Nat.zero_le _, fun h => absurd h hthrough⟩

theorem Reaches.mono (h : Reaches pages targets frames through) (hle : frames ≤ frames')
    (hiff : through' → through) : Reaches pages targets frames' through' :=
  ⟨h.first, Nat.le_trans h.length hle, fun ht => h.all (hiff ht)⟩

/-- A run that stops in its first part. -/
theorem Reaches.stop (h : Reaches pages targets frames through) (hthrough : ¬ through') :
    Reaches (pages ++ more) (targets ++ []) frames through' := by
  rw [List.append_nil]
  exact ⟨h.first.trans (List.prefix_append pages more), h.length, fun ht => absurd ht hthrough⟩

/-- A run that goes on. -/
theorem Reaches.append (h : Reaches pages targets frames through) (hthrough : through)
    (later : Reaches more rest frames' through') (hle : targets.length + frames' ≤ frames) :
    Reaches (pages ++ more) (targets ++ rest) frames through' := by
  obtain rfl := h.all hthrough
  refine ⟨List.prefix_append_right_inj _ |>.2 later.first, ?_, fun ht => ?_⟩
  · rw [List.length_append]
    have := later.length
    omega
  · rw [later.all ht]

/-- The loop over fresh pages gets to the pages in order, with a frame for each. -/
theorem freshTargets_reaches {pml4 flags : Word} {virt : Nat → Word} :
    ∀ (count i : Nat) (s : Vmm),
      Reaches ((List.range' i count).map virt) (freshTargets pml4 virt flags count i s)
          s.pmm.freeSet.card
          (∃ out, mapFreshPages pml4 virt flags count i s = .ok out ∧ out.complete = true) ∧
        ∀ out, mapFreshPages pml4 virt flags count i s = .ok out →
          (freshTargets pml4 virt flags count i s).length + out.vmm.pmm.freeSet.card ≤
            s.pmm.freeSet.card
  | 0, i, s => by
      refine ⟨⟨List.nil_prefix, Nat.zero_le _, fun _ => rfl⟩, fun out hout => ?_⟩
      cases hout
      exact Nat.le_of_eq (Nat.zero_add _)
  | count + 1, i, s => by
      rw [List.range'_succ, List.map_cons]
      unfold freshTargets mapFreshPages
      rcases pmmAlloc_spec s.pmm with ⟨hnull, -⟩ | ⟨n, hn, -, halloc⟩
      · simp only [hnull, if_true]
        refine ⟨.none _ _ ?_, fun out hout => ?_⟩
        · rintro ⟨out, hout, hcomplete⟩
          cases hout
          cases hcomplete
        · cases hout
          exact Nat.le_of_eq (Nat.zero_add _)
      · have hcard : (reserveFrame n s.pmm).freeSet.card + 1 = s.pmm.freeSet.card := by
          have := Finset.card_pos.2 ⟨n, hn⟩
          rw [freeSet_reserveFrame, Finset.card_erase_of_mem hn]
          omega
        rw [halloc]
        dsimp only
        split
        · refine ⟨.none _ _ ?_, fun out hout => ?_⟩
          · rintro ⟨out, hout, hcomplete⟩
            cases hout
            cases hcomplete
          · cases hout
            show 0 + (reserveFrame n s.pmm).freeSet.card ≤ _
            omega
        · cases hmap : vmmMapIn { s with pmm := reserveFrame n s.pmm } pml4 (virt i)
              (framePointer (n * pageSize)) flags with
          | error halt =>
              refine ⟨⟨List.prefix_append [virt i] _, ?_, ?_⟩, fun out hout => by cases hout⟩
              · show 1 ≤ _
                omega
              · rintro ⟨out, hout, -⟩
                cases hout
          | ok s₁ =>
              obtain ⟨hrest, hleft⟩ := freshTargets_reaches count (i + 1) s₁
              have hle : s₁.pmm.freeSet.card ≤ (reserveFrame n s.pmm).freeSet.card :=
                Finset.card_le_card (vmmMapIn_allocs hmap).free
              have hone : Reaches [virt i] [virt i] 1 True :=
                ⟨List.prefix_rfl, Nat.le_refl 1, fun _ => rfl⟩
              refine ⟨((hone.mono (by omega) fun h => h).append trivial hrest
                (by show 1 + _ ≤ _; omega)).mono (Nat.le_refl _) ?_, fun out hout => ?_⟩
              · rintro ⟨out, hout, hcomplete⟩
                obtain ⟨_, hs, hout⟩ := bind_ok hout
                cases hs
                obtain ⟨rest, hok, hout⟩ := bind_ok hout
                cases hout
                exact ⟨rest, hok, hcomplete⟩
              · obtain ⟨_, hs, hout⟩ := bind_ok hout
                cases hs
                obtain ⟨rest, hok, hout⟩ := bind_ok hout
                cases hout
                have := hleft rest hok
                show (freshTargets pml4 virt flags count (i + 1) s₁).length + 1 +
                  rest.vmm.pmm.freeSet.card ≤ _
                omega

/-! ### The program-header loop -/

/-- The pages of the loadable segments, in order. -/
def segmentPages (phdrs : List Phdr) : List Word :=
  (loadables phdrs).flatMap fun phdr => (List.range' 0 phdr.pages).map phdr.page

theorem segmentPages_cons {phdr : Phdr} (hload : phdr.loadable = true) (phdrs : List Phdr) :
    segmentPages (phdr :: phdrs) =
      (List.range' 0 phdr.pages).map phdr.page ++ segmentPages phdrs := by
  rw [segmentPages, loadables, List.filter_cons_of_pos hload, List.flatMap_cons]
  rfl

theorem segmentPages_skip {phdr : Phdr} (hload : ¬ phdr.loadable = true) (phdrs : List Phdr) :
    segmentPages (phdr :: phdrs) = segmentPages phdrs := by
  rw [segmentPages, loadables, List.filter_cons_of_neg hload]
  rfl

/-- The headers of a file do not depend on where it was read. -/
theorem SameFile.header {slot : Nat} {d d' : Ramdisk} (h : SameFile slot d d') (stale : Stale)
    (ehdr : Ehdr) :
    Filesystem.header stale d'.image (d'.fds slot) ehdr =
      Filesystem.header stale d.image (d.fds slot) ehdr := by
  funext j
  rw [Filesystem.header, Filesystem.header, h.delivered]

section Loop

variable {stale : Stale} {ehdr : Ehdr} {fd : Int} {pageTable cr3 : Word} {slot : Nat}

/-- The program-header loop gets to the pages of the segments in order. -/
theorem elfLoopTargets_reaches : ∀ (count i : Nat) (st : ElfLoop),
    openSlot st.disk fd = some slot →
    Reaches
      (segmentPages ((List.range' i count).map
        (header stale st.disk.image (st.disk.fds slot) ehdr)))
      (elfLoopTargets stale ehdr fd pageTable cr3 count i st) st.vmm.pmm.freeSet.card
      (∃ out, elfLoop stale ehdr fd pageTable cr3 count i st = .ok out ∧ out.ok = true)
  | 0, i, st, hopen => ⟨List.nil_prefix, Nat.zero_le _, fun _ => rfl⟩
  | count + 1, i, st, hopen => by
      rw [List.range'_succ, List.map_cons]
      unfold elfLoopTargets elfLoop
      cases hread : seekRead st.disk fd (ehdr.ePhoff + BitVec.ofNat 64 (i * phdrSize))
          (BitVec.ofNat 64 phdrSize) with
      | error halt =>
          refine .none _ _ ?_
          rintro ⟨out, hout, -⟩
          cases hout
      | ok read =>
          obtain ⟨hbytes, hsame⟩ := seekRead_ok hopen hread
          have hphdr : Phdr.ofBytes (overwrite (stale.phdr i) read.bytes) =
              header stale st.disk.image (st.disk.fds slot) ehdr i := by
            rw [header, hbytes]
            rfl
          dsimp only [after, bind, Except.bind]
          rw [hphdr]
          generalize header stale st.disk.image (st.disk.fds slot) ehdr i = phdr
          by_cases hload : phdr.loadable = true
          · rw [segmentPages_cons hload, if_pos hload, if_pos hload]
            obtain ⟨hpages, hleft⟩ := @freshTargets_reaches pageTable userPage phdr.page phdr.pages 0
              st.vmm
            change Reaches _ (freshTargets pageTable phdr.page userPage phdr.pages 0 st.vmm ++ _) _ _
            cases hmap : mapFreshPages pageTable (sbrkPage phdr.vstart) userPage
                (brkPages phdr.vstart phdr.vend) 0 st.vmm with
            | error halt =>
                refine hpages.stop ?_
                rintro ⟨out, hout, -⟩
                cases hout
            | ok pages =>
                dsimp only
                by_cases hcomplete : pages.complete = true
                · rw [if_pos hcomplete, if_pos hcomplete]
                  -- the pages of this segment are there, and the loop goes on if the stores do
                  have hgo := hleft pages hmap
                  have hdone : ∃ out, mapFreshPages pageTable phdr.page userPage phdr.pages 0
                      st.vmm = .ok out ∧ out.complete = true := ⟨pages, hmap, hcomplete⟩
                  cases hzero : storeBytes phdr.pVaddr (List.replicate phdr.pMemsz.toNat 0#8)
                      (vmmSwitchAddressSpace pages.vmm pageTable) with
                  | error halt =>
                      refine hpages.stop ?_
                      rintro ⟨out, hout, -⟩
                      cases hout
                  | ok s₁ =>
                      dsimp only
                      cases hcontents : seekRead read.disk fd phdr.pOffset phdr.pFilesz with
                      | error halt =>
                          refine hpages.stop ?_
                          rintro ⟨out, hout, -⟩
                          cases hout
                      | ok contents =>
                          dsimp only
                          cases hfill : storeBytes phdr.pVaddr contents.bytes s₁ with
                          | error halt =>
                              refine hpages.stop ?_
                              rintro ⟨out, hout, -⟩
                              cases hout
                          | ok s₂ =>
                              dsimp only
                              have hboth := hsame.trans
                                (seekRead_ok (hsame.openSlot hopen) hcontents).2
                              have hpmm : s₂.pmm = pages.vmm.pmm :=
                                (storeBytes_pmm _ _ _ _ hfill).1.trans
                                  (storeBytes_pmm _ _ _ _ hzero).1
                              have hrest := elfLoopTargets_reaches count (i + 1)
                                { vmm := vmmSwitchAddressSpace s₂ cr3
                                  disk := contents.disk
                                  lastVend := if st.lastVend < phdr.vend then phdr.vend
                                    else st.lastVend
                                  ok := true } (hboth.openSlot hopen)
                              rw [show (vmmSwitchAddressSpace s₂ cr3).pmm = pages.vmm.pmm from hpmm,
                                hboth.header] at hrest
                              exact hpages.append hdone hrest hgo
                · rw [if_neg hcomplete, if_neg hcomplete]
                  refine hpages.stop ?_
                  rintro ⟨out, hout, hok⟩
                  cases hout
                  cases hok
          · rw [segmentPages_skip hload, if_neg hload, if_neg hload]
            have hrest := elfLoopTargets_reaches count (i + 1) { st with disk := read.disk }
              (hsame.openSlot hopen)
            rw [hsame.header] at hrest
            exact hrest

end Loop

/-! ### The constructor -/

/-- The pages of a process: its stack, then its segments. -/
def elfPages (phdrs : List Phdr) : List Word :=
  (List.range' 0 userStackPages).map userStackPage ++ segmentPages phdrs

section Constructor

variable {fuel : Nat} {stale : Stale} {fns : Trampolines} {useLinuxAbi : BitVec 32} {k : Kernel}
  {slot : Nat} {fd : Int}

/-- Behind `process_alloc`. -/
theorem loadElfTargets_reaches {ehdr : Ehdr} {p : NewProcess}
    (hopen : openSlot k.disk fd = some slot) :
    Reaches (elfPages (elfFile stale k.disk.image (k.disk.fds slot) ehdr).phdrs)
      (loadElfTargets stale ehdr fd k) k.vmm.pmm.freeSet.card
      (∃ k' new, loadElf fuel stale fns ehdr fd useLinuxAbi k p = .ok (k', some new)) := by
  have hcreated := Finset.card_le_card (vmmCreateAddressSpace_allocs k.vmm).free
  rw [elfFile_phdrs]
  unfold loadElfTargets loadElf elfPages
  generalize vmmCreateAddressSpace k.vmm = created at hcreated ⊢
  obtain ⟨vmm, pageTable⟩ := created
  dsimp only at hcreated ⊢
  by_cases hnull : pageTable = 0#64
  · rw [if_pos hnull, if_pos hnull]
    refine .none _ _ ?_
    rintro ⟨k', new, hok⟩
    obtain ⟨k₁, -, hok⟩ := bind_ok hok
    cases hok
  · rw [if_neg hnull, if_neg hnull]
    obtain ⟨hpages, hleft⟩ := @freshTargets_reaches pageTable userPage userStackPage userStackPages
      0 vmm
    refine Reaches.mono ?_ hcreated id
    cases hmap : mapFreshPages pageTable userStackPage userPage userStackPages 0 vmm with
    | error halt =>
        refine hpages.stop ?_
        rintro ⟨k', new, hok⟩
        cases hok
    | ok stack =>
        dsimp only [after, bind, Except.bind]
        by_cases hcomplete : stack.complete = true
        · rw [if_pos hcomplete, if_pos hcomplete]
          have hrest := @elfLoopTargets_reaches stale ehdr fd pageTable stack.vmm.cr3 slot
            ehdr.ePhnum.toNat 0 { vmm := stack.vmm, disk := k.disk, lastVend := 0#64, ok := true }
            hopen
          refine (hpages.append ⟨stack, hmap, hcomplete⟩ hrest (hleft stack hmap)).mono
            (Nat.le_refl _) ?_
          rintro ⟨k', new, hok⟩
          cases hloop : elfLoop stale ehdr fd pageTable stack.vmm.cr3 ehdr.ePhnum.toNat 0
              { vmm := stack.vmm, disk := k.disk, lastVend := 0#64, ok := true } with
          | error halt =>
              rw [hloop] at hok
              cases hok
          | ok st =>
              rw [hloop] at hok
              dsimp only at hok
              by_cases hst : st.ok = true
              · exact ⟨st, rfl, hst⟩
              · rw [if_neg hst] at hok
                cases hok
        · rw [if_neg hcomplete, if_neg hcomplete]
          refine hpages.stop ?_
          rintro ⟨k', new, hok⟩
          cases hok

/-- `process_create_elf` maps the pages of the program in the file, in order, and all of them if it
    returns a process. -/
theorem processCreateElfTargets_reaches {path : List Byte} {p : Nat} {size : Word}
    (hfind : findFile k.disk.image k.disk.length path (k.disk.length / 512 + 1) 0 =
      some (p, size)) :
    Reaches (elfPages (fileProgram stale k.disk.image (openedFile p size)).phdrs)
      (processCreateElfTargets fuel stale k path) k.vmm.pmm.freeSet.card
      (∃ k' new, processCreateElf fuel stale fns k path useLinuxAbi = .ok (k', some new)) := by
  cases hfree : freeSlot k.disk.fds with
  | none =>
      unfold processCreateElfTargets processCreateElf
      rw [ramdiskOpen_full path hfree]
      refine .none _ _ ?_
      rintro ⟨k', new, hok⟩
      cases hok
  | some slot =>
      have hopen : ramdiskOpen k.disk path =
          ((slot : Int) + 3, k.disk.setEntry slot (openedFile p size)) := by
        unfold ramdiskOpen
        rw [hfind, hfree]
        rfl
      obtain ⟨hslot, -⟩ := freeSlot_some hfree
      unfold processCreateElfTargets processCreateElf
      rw [hopen]
      dsimp only
      rw [if_neg (by omega), if_neg (by omega)]
      cases hread : orEndless (ramdiskRead (k.disk.setEntry slot (openedFile p size))
          ((slot : Int) + 3) ehdrSize) with
      | error halt =>
          refine .none _ _ ?_
          rintro ⟨k', new, hok⟩
          cases hok
      | ok read =>
          obtain ⟨hbytes, hsame⟩ := @read_header _ _ p size _ hslot (orEndless_ok hread)
          have hheader : Ehdr.ofBytes (overwrite stale.ehdr read.bytes) =
              fileHeader stale k.disk.image (openedFile p size) := by
            rw [fileHeader, hbytes]
            rfl
          dsimp only [after, bind, Except.bind]
          rw [hheader]
          by_cases hsupported : (fileHeader stale k.disk.image (openedFile p size)).Supported
          · rw [if_pos hsupported, if_pos hsupported]
            cases halloc : processAlloc fuel { k with disk := read.disk } with
            | error halt =>
                refine .none _ _ ?_
                rintro ⟨k', new, hok⟩
                cases hok
            | ok allocated =>
                obtain ⟨k₁, proc⟩ := allocated
                obtain ⟨hvmm, hdisk⟩ := processAlloc_frame halloc
                dsimp only at hvmm hdisk ⊢
                cases proc with
                | none =>
                    refine .none _ _ ?_
                    rintro ⟨k', new, hok⟩
                    cases hok
                | some new =>
                    have hopen : openSlot k₁.disk ((slot : Int) + 3) = some slot := by
                      rw [hdisk]
                      exact hsame.openSlot (openSlot_opened hslot)
                    have hload := @loadElfTargets_reaches fuel stale fns useLinuxAbi k₁ slot
                      ((slot : Int) + 3) (fileHeader stale k.disk.image (openedFile p size)) new hopen
                    rw [hvmm] at hload
                    have hprogram : (elfFile stale k₁.disk.image (k₁.disk.fds slot)
                        (fileHeader stale k.disk.image (openedFile p size))).phdrs =
                        (fileProgram stale k.disk.image (openedFile p size)).phdrs := by
                      rw [fileProgram, elfFile_phdrs, elfFile_phdrs, hdisk, hsame.header,
                        Ramdisk.setEntry_fds_self]
                      rfl
                    rw [hprogram] at hload
                    exact hload
          · rw [if_neg hsupported, if_neg hsupported]
            refine .none _ _ ?_
            rintro ⟨k', new, hok⟩
            cases hok

end Constructor

/-! ### Pages that are mapped once -/

/-- No page is mapped twice. -/
def MapsOnce (targets : List Word) : Prop :=
  targets.Pairwise fun v w => walkPath v ≠ walkPath w

/-- A segment of at most `2 ^ 36` pages has them all apart. -/
theorem page_once (phdr : Phdr) {k j : Nat} (hlt : k < j) (hj : j < 2 ^ 36) :
    walkPath (phdr.page k) ≠ walkPath (phdr.page j) := by
  have hpage : ∀ i, (phdr.page i).toNat = (phdr.vstart.toNat + i * 4096) % 2 ^ 64 := by
    intro i
    show (phdr.vstart + BitVec.ofNat 64 (i * 4096)).toNat = _
    rw [BitVec.toNat_add, BitVec.toNat_ofNat]
    omega
  have hstart : phdr.vstart.toNat = phdr.pVaddr.toNat / 4096 * 4096 := toNat_entryAddr _
  rw [Ne, walkPath_eq_iff, hpage, hpage]
  omega

theorem stackPage_once {k j : Nat} (hlt : k < j) (hj : j < userStackPages) :
    walkPath (userStackPage k) ≠ walkPath (userStackPage j) := by
  have hbound : j < 32 := hj
  rw [Ne, walkPath_eq_iff, userStackPage_toNat (Nat.lt_trans hlt hj), userStackPage_toNat hj]
  omega

/-- Pages `0 .. n - 1` of a range that has them apart. -/
theorem range_once {page : Nat → Word} {n : Nat}
    (h : ∀ {k j}, k < j → j < n → walkPath (page k) ≠ walkPath (page j)) :
    MapsOnce ((List.range' 0 n).map page) := by
  refine List.pairwise_map.2 (List.Pairwise.imp_of_mem (fun _ hj hlt => h hlt ?_)
    List.pairwise_lt_range')
  have := (List.mem_range'_1.1 hj).2
  omega

/-- The first pages of segments that share none. -/
theorem segments_once : ∀ (phdrs : List Phdr) (m : Nat), m ≤ 2 ^ 36 → phdrs.Pairwise Phdr.Apart →
    MapsOnce ((phdrs.flatMap fun phdr => (List.range' 0 phdr.pages).map phdr.page).take m)
  | [], m, hm, hapart => by
      rw [List.flatMap_nil, List.take_nil]
      exact List.Pairwise.nil
  | phdr :: phdrs, m, hm, hapart => by
      obtain ⟨hfirst, hrest⟩ := List.pairwise_cons.1 hapart
      rw [List.flatMap_cons, List.take_append]
      refine List.pairwise_append.2 ⟨?_, segments_once phdrs _ (by omega) hrest, ?_⟩
      · -- within the segment
        rw [← List.map_take]
        by_cases hle : m ≤ phdr.pages
        · rw [List.take_range'_of_length_ge hle]
          exact range_once fun hlt hj => page_once phdr hlt (by omega)
        · rw [List.take_range'_of_length_le (by omega)]
          exact range_once fun hlt hj => page_once phdr hlt (by omega)
      · -- between this segment and a later one
        intro v hv w hw
        obtain ⟨k, hk, rfl⟩ := List.mem_map.1 (List.mem_of_mem_take hv)
        obtain ⟨other, hother, hpage⟩ := List.mem_flatMap.1 (List.mem_of_mem_take hw)
        obtain ⟨j, hj, rfl⟩ := List.mem_map.1 hpage
        refine hfirst other hother k ?_ j ?_
        · have := (List.mem_range'_1.1 hk).2
          omega
        · have := (List.mem_range'_1.1 hj).2
          omega

/-- Pages apart are mapped once, however far the load gets. -/
theorem PagesApart.mapsOnce {phdrs : List Phdr} {targets : List Word} {frames : Nat}
    {through : Prop} (h : PagesApart phdrs) (hreach : Reaches (elfPages phdrs) targets frames through)
    (hframes : frames ≤ totalFrames) : MapsOnce targets := by
  have htotal : totalFrames = 65536 := by decide
  have hlength := hreach.length
  rw [List.prefix_iff_eq_take.1 hreach.first, elfPages, List.take_append]
  refine List.pairwise_append.2 ⟨List.Pairwise.sublist (List.take_sublist _ _)
    (range_once fun hlt hj => stackPage_once hlt hj),
    segments_once _ _ (by omega) h.segments, ?_⟩
  · intro v hv w hw
    obtain ⟨k, hk, rfl⟩ := List.mem_map.1 (List.mem_of_mem_take hv)
    obtain ⟨phdr, hphdr, hpage⟩ := List.mem_flatMap.1 (List.mem_of_mem_take hw)
    obtain ⟨j, hj, rfl⟩ := List.mem_map.1 hpage
    refine h.stack phdr hphdr k ?_ j ?_
    · have := (List.mem_range'_1.1 hk).2
      omega
    · have := (List.mem_range'_1.1 hj).2
      omega

/-- Pages that are all mapped once are apart. -/
theorem MapsOnce.apart {phdrs : List Phdr} (h : MapsOnce (elfPages phdrs)) : PagesApart phdrs := by
  obtain ⟨-, hsegments, hcross⟩ := List.pairwise_append.1 h
  have hmem : ∀ (phdr : Phdr) {k : Nat}, k < phdr.pages →
      phdr.page k ∈ (List.range' 0 phdr.pages).map phdr.page := fun phdr k hk =>
    List.mem_map_of_mem (List.mem_range'_1.2 ⟨Nat.zero_le k, by omega⟩)
  refine ⟨(List.pairwise_flatMap.1 hsegments).2.imp fun {a b} hab => ?_,
    fun phdr hphdr k hk j hj => ?_⟩
  · exact fun k hk j hj => hab _ (hmem a hk) _ (hmem b hj)
  exact hcross _ (List.mem_map_of_mem (List.mem_range'_1.2 ⟨Nat.zero_le k, by omega⟩)) _
    (List.mem_flatMap.2 ⟨phdr, hphdr, hmem phdr hj⟩)

end CustomKernel.Filesystem

namespace CustomKernel

open Memory Filesystem Syscall Loops StepSystem

/-- Whatever program headers a file has: if no two segments share a page after rounding and none lies
    in the stack, no page is mapped twice, and a process has its program in place; and a call that
    returns a process has mapped no page twice only if they are so. -/
theorem loader_maps_once (image : BootImage) (fns : Trampolines) (ram : PhysMem) (k₀ : Kernel)
    (boot : kernelBoot image ram = .ok k₀.vmm) (calls : List SystemCall) (s : System)
    (run : Run (SystemStep image fns) { kernel := k₀, users := [] } calls s) (fuel : Nat)
    (stale : Stale) (path : List Byte) (useLinuxAbi : BitVec 32) (p : Nat) (size : Word)
    (found : findFile (s.constructing image).disk.image (s.constructing image).disk.length path
      ((s.constructing image).disk.length / 512 + 1) 0 = some (p, size)) :
    (PagesApart (fileProgram stale (s.constructing image).disk.image (openedFile p size)).phdrs →
      MapsOnce (processCreateElfTargets fuel stale (s.constructing image) path)) ∧
    ∀ k' new, processCreateElf fuel stale fns (s.constructing image) path useLinuxAbi =
        .ok (k', some new) →
      (MapsOnce (processCreateElfTargets fuel stale (s.constructing image) path) ↔
        PagesApart
          (fileProgram stale (s.constructing image).disk.image (openedFile p size)).phdrs) ∧
      (PagesApart (fileProgram stale (s.constructing image).disk.image (openedFile p size)).phdrs →
        (∀ phdr ∈ loadables
            (fileProgram stale (s.constructing image).disk.image (openedFile p size)).phdrs,
          phdr.pFilesz.toNat ≤ phdr.pMemsz.toNat) →
        ProgramLoaded k'.vmm.mem new.proc.pageTable
          (fileProgram stale (s.constructing image).disk.image (openedFile p size))) := by
  have hreach := @processCreateElfTargets_reaches fuel stale fns useLinuxAbi (s.constructing image)
    path p size found
  have honce := fun hapart => PagesApart.mapsOnce hapart hreach (freeSet_card_le _)
  refine ⟨honce, fun k' new hok => ⟨⟨fun h => ?_, honce⟩, fun hapart hfilesz => ?_⟩⟩
  · rw [hreach.all ⟨k', new, hok⟩] at h
    exact h.apart
  · obtain ⟨tag, inv⟩ := SystemInv.of_run boot run
    obtain ⟨-, ⟨-, hnone⟩ | ⟨p', size', r, hfind, hspace, hvmm, hnew⟩⟩ := processCreateElf_cases hok
    · cases hnone
    · rw [found] at hfind
      cases hfind
      cases hproc : r.proc with
      | none =>
          rw [hproc] at hnew
          cases hnew
      | some proc =>
          rw [hproc] at hnew
          have htable : new.proc.pageTable = proc.pageTable :=
            congrArg Prod.fst (Option.some.inj hnew)
          rw [hvmm, htable]
          refine (createElf_loaded (inv.toTreeInv.switch image.pml4Table) rfl (fun phdr hphdr => ?_)
            hapart hspace hproc).1
          exact Nat.le_trans (ElfFile.contents_le _ phdr (List.mem_filter.1 hphdr).1)
            (hfilesz phdr hphdr)

/-- The small program maps its stack and its pages once each, and is in place. -/
theorem loader_maps_once_small : ∃ k k' new,
    kernelBoot bootedImage (fun _ _ => 0#64) = .ok k.vmm ∧
      processCreateElf 4 ⟨fun _ => 0, fun _ _ => 0⟩ ⟨0#64, 0#64⟩
        (System.constructing bootedImage { kernel := k, users := [] }) [97] 0#32 =
        .ok (k', some new) ∧
      MapsOnce (processCreateElfTargets 4 ⟨fun _ => 0, fun _ _ => 0⟩
        (System.constructing bootedImage { kernel := k, users := [] }) [97]) ∧
      ProgramLoaded k'.vmm.mem new.proc.pageTable
        (fileProgram ⟨fun _ => 0, fun _ _ => 0⟩
          (System.constructing bootedImage { kernel := k, users := [] }).disk.image
          (openedFile 0 (BitVec.ofNat 64 smallProgram.length))) := by
  obtain ⟨vmm, k', new, boot, hok⟩ := smallProgram_file.created
    (fun _ => smallProgram_file.fits) smallProgram_short
    smallProgram_frames ⟨fun _ => 0, fun _ _ => 0⟩ ⟨0#64, 0#64⟩
  have stored := fileKernel_stored vmm smallProgram smallProgram_short
  have apart := smallProgram_file.apart
  have filesz := smallProgram_file.filesz
  have hphdrs := stored.phdrs ⟨fun _ => 0, fun _ _ => 0⟩ smallProgram_file.header
    smallProgram_file.phdrs
  rw [← hphdrs] at apart filesz
  obtain ⟨honce, hprocess⟩ := loader_maps_once bootedImage ⟨0#64, 0#64⟩ (fun _ _ => 0#64)
    (fileKernel vmm smallProgram smallProgram_short) boot [] _ (.nil _) 4
    ⟨fun _ => 0, fun _ _ => 0⟩ [97] 0#32 0 (BitVec.ofNat 64 smallProgram.length) stored.found
  exact ⟨_, k', new, boot, hok, honce apart, (hprocess k' new hok).2 apart filesz⟩

/-! ### Two segments in one page -/

/-- Two segments that share no byte. -/
def Phdr.BytesApart (phdr other : Phdr) : Prop :=
  phdr.pVaddr.toNat + phdr.pMemsz.toNat ≤ other.pVaddr.toNat ∨
    other.pVaddr.toNat + other.pMemsz.toNat ≤ phdr.pVaddr.toNat

/-- A program with two segments of four bytes, in the same page. -/
def sharingProgram : List Byte :=
  elfHeader 2 ++ loadHeader 176 0x8001000000 4 4 ++ loadHeader 180 0x8001000800 4 4 ++
    [1, 2, 3, 4, 5, 6, 7, 8]

theorem sharingProgram_length : sharingProgram.length = 184 := by
  simp [sharingProgram, elfHeader, loadHeader, wordBytes]

theorem sharingProgram_phdrs : filePhdrs sharingProgram =
    [⟨ptLoad, 176#64, 0x8001000000#64, 4#64, 4#64⟩,
      ⟨ptLoad, 180#64, 0x8001000800#64, 4#64, 4#64⟩] := by decide

theorem sharingProgram_loadables :
    loadables (filePhdrs sharingProgram) = filePhdrs sharingProgram := by
  rw [sharingProgram_phdrs]
  rfl

theorem sharingProgram_user : UserProgram sharingProgram := by
  have hall : ∀ {P : Phdr → Prop}, P ⟨ptLoad, 176#64, 0x8001000000#64, 4#64, 4#64⟩ →
      P ⟨ptLoad, 180#64, 0x8001000800#64, 4#64, 4#64⟩ →
      ∀ phdr ∈ loadables (filePhdrs sharingProgram), P phdr := by
    intro P hP hP' phdr hphdr
    rw [sharingProgram_loadables, sharingProgram_phdrs] at hphdr
    rcases List.mem_cons.1 hphdr with rfl | hphdr
    · exact hP
    · rw [List.mem_singleton.1 hphdr]
      exact hP'
  have hlength := sharingProgram_length
  refine ⟨⟨by omega, by decide, ?_, hall (by decide) (by decide), hall ?_ ?_⟩,
    hall (by decide) (by decide)⟩
  all_goals
    rw [hlength]
    decide

/-- The two segments share no byte. -/
theorem sharingProgram_bytes :
    (loadables (filePhdrs sharingProgram)).Pairwise Phdr.BytesApart := by
  rw [sharingProgram_loadables, sharingProgram_phdrs]
  refine List.pairwise_cons.2 ⟨fun other hother => ?_, List.pairwise_singleton ..⟩
  rw [List.mem_singleton.1 hother]
  exact .inl (by decide)

/-- Segments that share no byte do not keep the loader from mapping a page twice. -/
theorem loader_maps_twice :
    ¬ ∀ (image : BootImage) (fns : Trampolines) (ram : PhysMem) (k₀ : Kernel),
      kernelBoot image ram = .ok k₀.vmm → ∀ (calls : List SystemCall) (s : System),
      Run (SystemStep image fns) { kernel := k₀, users := [] } calls s →
      ∀ (path : List Byte) (p : Nat) (file : List Byte),
      StoredFile (s.constructing image).disk path p file → UserProgram file →
      (loadables (filePhdrs file)).Pairwise Phdr.BytesApart → ∀ (fuel : Nat) (stale : Stale),
      MapsOnce (processCreateElfTargets fuel stale (s.constructing image) path) := by
  intro hclaim
  have hshort : sharingProgram.length < 8 ^ 11 := by
    rw [sharingProgram_length]
    decide
  obtain ⟨vmm, k', new, boot, hok⟩ := sharingProgram_user.created
    (fun _ => sharingProgram_user.fits) hshort
    (by rw [sharingProgram_phdrs]; decide) ⟨fun _ => 0, fun _ _ => 0⟩ ⟨0#64, 0#64⟩
  have stored : StoredFile (System.constructing bootedImage
      { kernel := fileKernel vmm sharingProgram hshort, users := [] }).disk [97] 0 sharingProgram :=
    fileKernel_stored vmm sharingProgram hshort
  have honce := hclaim bootedImage ⟨0#64, 0#64⟩ (fun _ _ => 0#64)
    (fileKernel vmm sharingProgram hshort) boot [] _ (.nil _) [97] 0 sharingProgram stored
    sharingProgram_user sharingProgram_bytes 4 ⟨fun _ => 0, fun _ _ => 0⟩
  rw [(processCreateElfTargets_reaches stored.found).all ⟨k', new, hok⟩] at honce
  have hapart := honce.apart.segments
  rw [stored.phdrs _ sharingProgram_user.header sharingProgram_user.phdrs,
    sharingProgram_loadables, sharingProgram_phdrs] at hapart
  exact (List.pairwise_cons.1 hapart).1 _ (List.mem_singleton.2 rfl) 0 (by decide) 0 (by decide)
    (by decide)

end CustomKernel
