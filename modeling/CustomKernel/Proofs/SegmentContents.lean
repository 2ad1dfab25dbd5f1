/-
Module: CustomKernel.Proofs.SegmentContents
Layer: Proofs
Purpose: What a load puts into memory. A store through the tables is read back at its own address and
  nowhere else, because addresses of one address space that differ are translated to bytes that
  differ. A segment is loaded when the processor accepts its addresses and there are frames for it:
  its bytes are those of the file followed by zeros, and bytes in other pages are as before.
Imports: CustomKernel.Proofs.ProgramLoad
Trusted boundary: none (fully proved)
Main exports: loadByte_storeByte, LoadTree.readByte_storeByte, Placed, UserPage, LoadTree.pages,
  SegmentPlaced, segments_loaded, segments_ok
-/
import CustomKernel.Proofs.ProgramLoad

namespace CustomKernel.Memory

open CustomKernel.Syscall Loops

/-! ### Bytes of physical memory -/

theorem toNat_offset (phys : Word) : (phys &&& 0xFFF#64).toNat = phys.toNat % 4096 :=
  Bits.toNat_and_lowMask phys (n := 12) (by decide)

theorem loadByte_storeByte (mem : PhysMem) (phys : Word) (byte : BitVec 8) :
    (mem.storeByte phys byte).loadByte phys = byte := by
  unfold PhysMem.loadByte PhysMem.storeByte
  dsimp only
  rw [PhysMem.store_same]
  exact Bits.byte_insertByte _ byte (by omega)

theorem loadByte_storeByte_ne (mem : PhysMem) {phys other : Word} (hne : other ≠ phys)
    (byte : BitVec 8) : (mem.storeByte phys byte).loadByte other = mem.loadByte other := by
  unfold PhysMem.loadByte PhysMem.storeByte
  dsimp only
  rw [PhysMem.store_apply, toNat_offset, toNat_offset]
  split
  · rename_i hhit
    -- another byte of the same word
    have haddr := congrArg BitVec.toNat hhit.1
    rw [toNat_entryAddr, toNat_entryAddr] at haddr
    have hbyte : other.toNat % 8 ≠ phys.toNat % 8 := fun heq =>
      hne (BitVec.eq_of_toNat_eq (by omega))
    rw [← hhit.1, ← hhit.2]
    exact Bits.byte_insertByte_apart _ byte (by omega) (by omega) (by omega)
  · rfl

/-- The bytes of a frame depend on the frame alone. -/
theorem loadByte_congr {mem mem' : PhysMem} {phys : Word}
    (h : mem' (entryAddr phys) = mem (entryAddr phys)) : mem'.loadByte phys = mem.loadByte phys := by
  unfold PhysMem.loadByte
  rw [h]

/-! ### Bytes of an address space -/

theorem toNat_leaf_phys {leaf : Word} (h : (entryAddr leaf).toNat < 2 ^ 52) (v : Word) :
    (leafTranslation v leaf 12).phys.toNat % 4096 = v.toNat % 4096 := by
  have hmask : offsetMask 12 = 0xFFF#64 := by decide
  have hlow : (entryAddr leaf &&& ~~~0xFFF#64) &&& 0xFFF#64 = 0#64 := by
    rw [BitVec.and_assoc, show ~~~0xFFF#64 &&& 0xFFF#64 = 0#64 from by decide, BitVec.and_zero]
  rw [← toNat_offset, ← toNat_offset]
  show (((pteAddr leaf &&& ~~~offsetMask 12) ||| (v &&& offsetMask 12)) &&& 0xFFF#64).toNat = _
  rw [pteAddr_eq_entryAddr h, hmask, BitVec.and_or_distrib_right, hlow, BitVec.zero_or,
    BitVec.and_assoc, BitVec.and_self]

section Bytes

variable {image : BootImage} {window : Word → Prop} {tag tag' : Word → Option Label} {s s' : Vmm}
  {pml4 v w : Word}

/-- Two loadable addresses that are translated to one byte are the same. -/
theorem LoadTree.phys_inj (h : LoadTree image window pml4 tag s) (hv : Loadable v) (hw : Loadable w)
    {tr tr' : Translation} (htr : Memory.translate s.mem pml4 v = some tr)
    (htr' : Memory.translate s.mem pml4 w = some tr') (heq : tr.phys = tr'.phys) : v = w := by
  have hlabel := h.translate_frame hv htr
  rw [heq, h.translate_frame hw htr'] at hlabel
  injection Option.some.inj hlabel with _ hpath
  have hpage := (walkPath_eq_iff w v).1 hpath
  have hoffset : ∀ {u : Word} {t : Translation}, Loadable u →
      Memory.translate s.mem pml4 u = some t → t.phys.toNat % 4096 = u.toNat % 4096 := by
    intro u t hu ht
    obtain ⟨hown, hphys⟩ := h.translate hu ht
    obtain ⟨n, hn, -, -, hframe⟩ := h.tagged.frame hown
    have hlt : n < 65536 := hn
    rw [hphys, toNat_leaf_phys (by rw [hframe, toNat_frameAddr hn]; omega)]
  have hlow := hoffset hv htr
  rw [heq, hoffset hw htr'] at hlow
  have hcanon := hv.2
  have hcanon' := hw.2
  unfold Canonical at hcanon hcanon'
  exact BitVec.eq_of_toNat_eq (by omega)

/-- A store is read back at its own address and nowhere else. -/
theorem LoadTree.readByte_storeByte (h : LoadTree image window pml4 tag s) (hcr3 : s.cr3 = pml4)
    (htop : Memory.translate s.mem pml4 topPage = none) (hv : 2 ^ 30 ≤ v.toNat) {byte : BitVec 8}
    (hok : Memory.storeByte s v byte = .ok s') :
    readByte s'.mem pml4 v = some byte ∧
      ∀ w, Loadable w → w ≠ v → readByte s'.mem pml4 w = readByte s.mem pml4 w := by
  have stored := h.storeByte hcr3 htop hv hok
  unfold Memory.storeByte at hok
  split at hok
  · cases hok
  rename_i hcanon
  cases htr : Memory.translate s.mem s.cr3 v with
  | none =>
      rw [htr] at hok
      cases hok
  | some tr =>
      rw [htr] at hok
      cases hok
      rw [hcr3] at htr
      have htranslate := fun w => stored.translate pml4 w h.root
      dsimp only at htranslate ⊢
      refine ⟨?_, fun w hw hne => ?_⟩
      · rw [readByte, htranslate, htr]
        exact congrArg some (loadByte_storeByte s.mem tr.phys byte)
      · rw [readByte, readByte, htranslate]
        cases htr' : Memory.translate s.mem pml4 w with
        | none => rfl
        | some tr' =>
            refine congrArg some (loadByte_storeByte_ne s.mem (fun heq => hne ?_) byte)
            exact h.phys_inj hw ⟨hv, not_not.1 hcanon⟩ htr' htr heq

/-- Bytes that lie one after the other in an address space. -/
def Placed (mem : PhysMem) (pml4 v : Word) (bytes : List (BitVec 8)) : Prop :=
  ∀ z (hz : z < bytes.length), readByte mem pml4 (v + BitVec.ofNat 64 z) = some bytes[z]

/-- The addresses from `v` on, `n` of them, are loadable and do not wrap around. -/
structure LoadableRange (v : Word) (n : Nat) : Prop where
  low : 2 ^ 30 ≤ v.toNat
  fits : v.toNat + n < 2 ^ 64
  canonical : ∀ z < n, Canonical (v + BitVec.ofNat 64 z)

theorem LoadableRange.toNat_add {n z : Nat} (h : LoadableRange v n) (hz : z ≤ n) :
    (v + BitVec.ofNat 64 z).toNat = v.toNat + z := by
  have := h.fits
  rw [BitVec.toNat_add, BitVec.toNat_ofNat]
  omega

theorem LoadableRange.loadable {n z : Nat} (h : LoadableRange v n) (hz : z < n) :
    Loadable (v + BitVec.ofNat 64 z) := by
  refine ⟨?_, h.canonical z hz⟩
  have := h.low
  rw [h.toNat_add (Nat.le_of_lt hz)]
  omega

/-- The range behind its first address. -/
theorem LoadableRange.tail {n : Nat} (h : LoadableRange v (n + 1)) : LoadableRange (v + 1#64) n := by
  have hnext : (v + 1#64).toNat = v.toNat + 1 := h.toNat_add (z := 1) (by omega)
  have hlow := h.low
  have hfits := h.fits
  refine ⟨by omega, by omega, fun z hz => ?_⟩
  have := h.canonical (z + 1) (by omega)
  rwa [Nat.add_comm, BitVec.ofNat_add, ← BitVec.add_assoc] at this

theorem LoadableRange.shorter {n m : Nat} (h : LoadableRange v n) (hle : m ≤ n) :
    LoadableRange v m :=
  ⟨h.low, Nat.le_trans (by omega) h.fits, fun z hz => h.canonical z (by omega)⟩

/-- A run of stores that comes back is read back. -/
theorem LoadTree.readByte_storeBytes : ∀ (bytes : List (BitVec 8)) (v : Word) (s s' : Vmm),
    LoadTree image window pml4 tag s → s.cr3 = pml4 →
    Memory.translate s.mem pml4 topPage = none → LoadableRange v bytes.length →
    Memory.storeBytes v bytes s = .ok s' →
    Placed s'.mem pml4 v bytes ∧
      ∀ w, Loadable w → (∀ z < bytes.length, w ≠ v + BitVec.ofNat 64 z) →
        readByte s'.mem pml4 w = readByte s.mem pml4 w
  | [], v, s, s', h, hcr3, htop, hv, hok => by
      cases hok
      exact ⟨fun z hz => absurd hz (Nat.not_lt_zero z), fun _ _ _ => rfl⟩
  | byte :: bytes, v, s, s', h, hcr3, htop, hv, hok => by
      obtain ⟨s₁, hfirst, hrest⟩ := bind_ok hok
      have first := h.storeByte hcr3 htop hv.1 hfirst
      obtain ⟨hread, hkeep⟩ := h.readByte_storeByte hcr3 htop hv.1 hfirst
      rw [List.length_cons] at hv
      have hnext : (v + 1#64).toNat = v.toNat + 1 := hv.toNat_add (z := 1) (by omega)
      have hsum : ∀ z, v + BitVec.ofNat 64 (z + 1) = v + 1#64 + BitVec.ofNat 64 z := fun z => by
        rw [BitVec.add_assoc, Nat.add_comm, BitVec.ofNat_add]
      have hrange := hv.tail
      obtain ⟨hplaced, hkeep'⟩ := LoadTree.readByte_storeBytes bytes (v + 1#64) s₁ s' first.tree
        (first.cr3.trans hcr3) (by rw [first.translate _ _ h.root, htop]) hrange hrest
      refine ⟨fun z hz => ?_, fun w hw hout => ?_⟩
      · cases z with
        | zero =>
            -- the later stores go to other addresses
            have hself := hv.loadable (z := 0) (by omega)
            rw [BitVec.add_zero] at hself
            rw [BitVec.add_zero, hkeep' v hself fun z hz heq => ?_, hread]
            · rfl
            · have := congrArg BitVec.toNat heq
              rw [hrange.toNat_add (by omega), hnext] at this
              omega
        | succ z =>
            rw [hsum]
            exact hplaced z (Nat.lt_of_succ_lt_succ hz)
      · rw [hkeep' w hw fun z hz => ?_, hkeep w hw fun heq => ?_]
        · refine hout 0 (by simp) ?_
          rw [BitVec.add_zero]
          exact heq
        · rw [← hsum]
          exact hout (z + 1) (by simpa using hz)

/-- A run of stores comes back if every address is mapped. -/
theorem LoadTree.storeBytes_ok : ∀ (bytes : List (BitVec 8)) (v : Word) (s : Vmm),
    LoadTree image window pml4 tag s → s.cr3 = pml4 →
    Memory.translate s.mem pml4 topPage = none → LoadableRange v bytes.length →
    (∀ z < bytes.length, Memory.translate s.mem pml4 (v + BitVec.ofNat 64 z) ≠ none) →
    ∃ s', Memory.storeBytes v bytes s = .ok s'
  | [], v, s, h, hcr3, htop, hv, hmapped => ⟨s, rfl⟩
  | byte :: bytes, v, s, h, hcr3, htop, hv, hmapped => by
      have hself := hv.loadable (z := 0) (by simp)
      have hmap := hmapped 0 (by simp)
      rw [BitVec.add_zero] at hself hmap
      obtain ⟨tr, htr⟩ := Option.ne_none_iff_exists'.1 hmap
      have hfirst : Memory.storeByte s v byte =
          .ok { s with mem := s.mem.storeByte tr.phys byte } := by
        unfold Memory.storeByte
        rw [if_neg (not_not.2 hself.2), hcr3, htr]
      have first := h.storeByte hcr3 htop hv.1 hfirst
      obtain ⟨s', hs'⟩ := LoadTree.storeBytes_ok bytes (v + 1#64) _ first.tree
        (first.cr3.trans hcr3) (by rw [first.translate _ _ h.root, htop])
        hv.tail fun z hz => by
          rw [first.translate _ _ h.root]
          have := hmapped (z + 1) (by simpa using hz)
          rwa [Nat.add_comm, BitVec.ofNat_add, ← BitVec.add_assoc] at this
      refine ⟨s', ?_⟩
      show (Memory.storeByte s v byte >>= _) = _
      rw [hfirst]
      exact hs'

/-! ### Bytes and fresh pages -/

theorem LoadTree.switch (h : LoadTree image window pml4 tag s) (cr3 : Word) :
    LoadTree image window pml4 tag (vmmSwitchAddressSpace s cr3) :=
  ⟨h.toPageTree.switch cr3, h.root, h.leaves⟩

theorem Widened.some_left {tr : Translation} : ∀ {after : Option Translation},
    Widened (some tr) after → ∃ tr', after = some tr' ∧ tr.Widened tr'
  | some tr', h => ⟨tr', rfl, h⟩

/-- Mapping a fresh page changes no byte of another page. -/
theorem LoadTree.readByte_map {n : Nat} {virt flags : Word}
    (h : LoadTree image window pml4 tag s) (hn : n ∈ s.pmm.freeSet)
    (m : FreshMapped pml4 virt flags n tag s tag' s') (hv : Loadable v)
    (hne : walkPath v ≠ walkPath virt) : readByte s'.mem pml4 v = readByte s.mem pml4 v := by
  have hext := @extends_update _ _ (slot privateOwner pml4 virt 0) (h.tagged.free_unlabelled hn)
  have hwide : Widened (Memory.translate s.mem pml4 v) (Memory.translate s'.mem pml4 v) :=
    m.mapped.widened (hext _ _ h.root) (.inr hne)
  unfold readByte
  cases htr : Memory.translate s.mem pml4 v with
  | none =>
      rw [htr] at hwide
      rw [hwide.eq_none]
      rfl
  | some tr =>
      rw [htr] at hwide
      obtain ⟨tr', htr', hsame⟩ := hwide.some_left
      rw [htr']
      have hframe := hext _ _ (h.translate_frame hv htr)
      show some (s'.mem.loadByte tr'.phys) = some (s.mem.loadByte tr.phys)
      rw [hsame.phys, loadByte_congr (m.mapped.pages hframe (level_slot _ _ (by decide)))]

/-- A page of the process, which may read and write it. -/
def UserPage (mem : PhysMem) (pml4 v : Word) : Prop :=
  ∃ tr, Memory.translate mem pml4 v = some tr ∧ tr.writable = true ∧ tr.user = true

theorem UserPage.widened {mem mem' : PhysMem} (h : UserPage mem pml4 v)
    (hwide : Widened (Memory.translate mem pml4 v) (Memory.translate mem' pml4 v)) :
    UserPage mem' pml4 v := by
  obtain ⟨tr, htr, hwritable, huser⟩ := h
  rw [htr] at hwide
  obtain ⟨tr', htr', hmore⟩ := hwide.some_left
  exact ⟨tr', htr', hmore.writable hwritable, hmore.user huser⟩

/-- The page that was mapped is one of the process. -/
theorem FreshMapped.user {n : Nat} {virt : Word}
    (m : FreshMapped pml4 virt userPage n tag s tag' s') (hv : walkPath v = walkPath virt) :
    UserPage s'.mem pml4 v := by
  have hrights : ∀ flag, hasFlag userPage flag = true →
      hasFlag (frameAddr n ||| userPage ||| ptePresent) flag = true := by
    intro flag hflag
    rw [hasFlag_or, hasFlag_or, hflag, Bool.or_true, Bool.true_or]
  exact ⟨_, m.mapped.self hv, hrights pteWritable (by decide), hrights pteUser (by decide)⟩

/-- What a loop over fresh pages does: every page of it becomes one of the process, and nothing is
    to be seen of it in the others. -/
structure PagesAdded (image : BootImage) (window : Word → Prop) (pml4 : Word) (virt : Nat → Word)
    (count : Nat) (tag : Word → Option Label) (s : Vmm) (tag' : Word → Option Label) (s' : Vmm) :
    Prop where
  tree : LoadTree image window pml4 tag' s'
  ext : Extends tag tag'
  cr3 : s'.cr3 = s.cr3
  widened : ∀ v, (∀ k < count, walkPath v ≠ walkPath (virt k)) →
    Widened (Memory.translate s.mem pml4 v) (Memory.translate s'.mem pml4 v)
  kept : ∀ v, Loadable v → (∀ k < count, walkPath v ≠ walkPath (virt k)) →
    readByte s'.mem pml4 v = readByte s.mem pml4 v

/-- The loop over fresh pages. -/
theorem LoadTree.pages {virt : Nat → Word} {count : Nat} {out : FreshPages}
    (h : LoadTree image window pml4 tag s)
    (hok : mapFreshPages pml4 virt userPage count 0 s = .ok out) :
    (∃ tag', PagesAdded image window pml4 virt count tag s tag' out.vmm) ∧
      (out.complete = true → ∀ k < count, ∀ v, walkPath v = walkPath (virt k) →
        UserPage out.vmm.mem pml4 v) := by
  have hloop := mapFreshPages_each
    (fun t => ∃ tag', PagesAdded image window pml4 virt count tag s tag' t)
    (fun k t => ∀ v, walkPath v = walkPath (virt k) → UserPage t.mem pml4 v)
    (fun t ht => by
      obtain ⟨tag', ht⟩ := ht
      exact ht.tree.zero_notMem)
    count 0 s out
    (fun k _ hk t n t' ht hn hmap => by
      obtain ⟨tag₁, ht⟩ := ht
      obtain ⟨tag₂, htree, m⟩ := ht.tree.map_fresh hn (by decide) hmap
      have hroot := @extends_update _ _ (slot privateOwner pml4 (virt k) 0)
        (ht.tree.tagged.free_unlabelled hn) _ _ ht.tree.root
      have hwide : ∀ v, walkPath v ≠ walkPath (virt k) →
          Widened (Memory.translate t.mem pml4 v) (Memory.translate t'.mem pml4 v) :=
        fun v hne => m.mapped.widened hroot (.inr hne)
      refine ⟨⟨tag₂, htree, ht.ext.trans (m.ext ht.tree.tagged hn),
        (vmmMapIn_cr3 hmap).trans ht.cr3,
        fun v hne => (ht.widened v hne).trans (hwide v (hne k (by omega))), fun v hv hne => ?_⟩,
        fun v => m.user, fun j hj v hv => ?_⟩
      · rw [ht.tree.readByte_map hn m hv (hne k (by omega)), ht.kept v hv hne]
      · by_cases hsame : walkPath v = walkPath (virt k)
        · exact m.user hsame
        · exact (hj v hv).widened (hwide v hsame))
    ⟨tag, h, fun _ _ ht => ht, rfl, fun _ _ => .refl _, fun _ _ _ => rfl⟩ hok
  exact ⟨hloop.1, fun hc k hk => hloop.2.2 hc k (Nat.zero_le k) (by omega)⟩

end Bytes

end CustomKernel.Memory

namespace CustomKernel.Filesystem

open CustomKernel.Memory CustomKernel.Syscall Loops

/-! ### Segments -/

/-- The bytes of a segment are in place: those from the file, then zeros. -/
def SegmentPlaced (mem : PhysMem) (pml4 : Word) (phdr : Phdr) (contents : List (BitVec 8)) : Prop :=
  ∀ z < phdr.pMemsz.toNat,
    readByte mem pml4 (phdr.pVaddr + BitVec.ofNat 64 z) = some (contents.getD z 0#8)

/-- Page `k` of a segment. -/
def Phdr.page (phdr : Phdr) (k : Nat) : Word := sbrkPage phdr.vstart k

/-- The number of its pages. -/
def Phdr.pages (phdr : Phdr) : Nat := brkPages phdr.vstart phdr.vend

/-- An address in none of the pages of a segment. -/
def Phdr.Off (phdr : Phdr) (v : Word) : Prop :=
  ∀ k < phdr.pages, walkPath v ≠ walkPath (phdr.page k)

section Segments

variable {image : BootImage} {window : Word → Prop} {pml4 cr3 : Word} {tag : Word → Option Label}
  {s : Vmm} {phdr : Phdr} {contents : List (BitVec 8)}

/-- Every byte of a segment lies in one of its pages. -/
theorem segment_page (h : LoadableRange phdr.pVaddr phdr.pMemsz.toNat)
    (hfits : phdr.pVaddr.toNat + phdr.pMemsz.toNat < 2 ^ 64 - 4095) {z : Nat}
    (hz : z < phdr.pMemsz.toNat) :
    ∃ k < phdr.pages, walkPath (phdr.pVaddr + BitVec.ofNat 64 z) = walkPath (phdr.page k) := by
  have hstart : phdr.vstart.toNat = phdr.pVaddr.toNat / 4096 * 4096 := toNat_entryAddr _
  have hend : phdr.vend.toNat =
      ((phdr.pVaddr.toNat + phdr.pMemsz.toNat) % 2 ^ 64 + 4095) % 2 ^ 64 / 4096 * 4096 := by
    have hmask : phdr.vend = entryAddr (phdr.pVaddr + phdr.pMemsz + 0xFFF#64) := rfl
    rw [hmask, toNat_entryAddr, BitVec.toNat_add, BitVec.toNat_add, BitVec.toNat_ofNat]
  have hpage : ∀ k, (phdr.page k).toNat = (phdr.vstart.toNat + k * 4096) % 2 ^ 64 := by
    intro k
    show (phdr.vstart + BitVec.ofNat 64 (k * 4096)).toNat = _
    rw [BitVec.toNat_add, BitVec.toNat_ofNat]
    omega
  refine ⟨(phdr.pVaddr.toNat % 4096 + z) / 4096, ?_, ?_⟩
  · rw [Phdr.pages, brkPages, hstart, hend, show pageSize = 4096 from rfl]
    omega
  · rw [walkPath_eq_iff, h.toNat_add (Nat.le_of_lt hz), hpage, hstart]
    omega

/-- What loading a segment does: its bytes are in place, and nothing is to be seen of it in other
    pages. -/
structure SegmentLoaded (image : BootImage) (window : Word → Prop) (pml4 : Word) (phdr : Phdr)
    (contents : List (BitVec 8)) (tag : Word → Option Label) (s : Vmm)
    (tag' : Word → Option Label) (s' : Vmm) : Prop where
  tree : LoadTree image window pml4 tag' s'
  ext : Extends tag tag'
  cr3 : s'.cr3 = s.cr3
  top : translate s'.mem pml4 topPage = none
  inPages : ∀ z < phdr.pMemsz.toNat, Loadable (phdr.pVaddr + BitVec.ofNat 64 z) ∧
    ∃ k < phdr.pages, walkPath (phdr.pVaddr + BitVec.ofNat 64 z) = walkPath (phdr.page k)
  placed : SegmentPlaced s'.mem pml4 phdr contents
  widened : ∀ v, phdr.Off v → Widened (translate s.mem pml4 v) (translate s'.mem pml4 v)
  kept : ∀ v, Loadable v → phdr.Off v → readByte s'.mem pml4 v = readByte s.mem pml4 v

/-- A loadable segment with no more bytes in the file than in memory. -/
theorem segment_loaded {load : Loading} (h : LoadTree image window pml4 tag s)
    (htop : translate s.mem pml4 topPage = none) (hload : phdr.loadable = true)
    (hle : contents.length ≤ phdr.pMemsz.toNat)
    (hok : loadSegment pml4 phdr contents s = .ok load) (hdone : load.ok = true) :
    ∃ tag', SegmentLoaded image window pml4 phdr contents tag s tag' load.vmm := by
  obtain ⟨out, hmap, hok⟩ := bind_ok hok
  obtain ⟨⟨tag', added⟩, -⟩ := h.pages hmap
  split at hok
  case isFalse =>
    cases hok
    cases hdone
  case isTrue hcomplete =>
    obtain ⟨s₁, hzero, hok⟩ := bind_ok hok
    obtain ⟨s₂, hfill, hok⟩ := bind_ok hok
    cases hok
    -- the addresses of the segment
    have hmem := Phdr.loadable_memsz hload
    have hcanon := storeBytes_canonical _ _ _ _ hzero
    rw [List.length_replicate] at hcanon
    obtain ⟨hpos, hv⟩ := segment_start h htop hmem hcanon hmap hcomplete
      (List.length_replicate ..) hzero
    have hfits := (segment_pages hmem hcanon hpos).1
    have hrange : LoadableRange phdr.pVaddr phdr.pMemsz.toNat := ⟨hv, by omega, hcanon⟩
    have htop₀ : translate out.vmm.mem pml4 topPage = none := by
      have hwide := added.widened topPage fun k hk => (segment_pages hmem hcanon hk).2.2.2.symm
      rw [htop] at hwide
      exact hwide.eq_none
    -- the zeros, then the bytes from the file
    have zeroed := LoadTree.storeBytes _ _ _ _ (added.tree.switch pml4) rfl htop₀ hv hzero
    have htop₁ := (zeroed.translate _ topPage added.tree.root).trans htop₀
    obtain ⟨hzeros, hkeep₁⟩ := LoadTree.readByte_storeBytes _ _ _ _ (added.tree.switch pml4) rfl
      htop₀ (by rw [List.length_replicate]; exact hrange) hzero
    have filled := LoadTree.storeBytes _ _ _ _ zeroed.tree zeroed.cr3 htop₁ hv hfill
    obtain ⟨hbytes, hkeep₂⟩ := LoadTree.readByte_storeBytes _ _ _ _ zeroed.tree zeroed.cr3 htop₁
      (hrange.shorter hle) hfill
    have hlength : (List.replicate phdr.pMemsz.toNat 0#8).length = phdr.pMemsz.toNat :=
      List.length_replicate ..
    have hpage := fun z (hz : z < phdr.pMemsz.toNat) => segment_page hrange hfits hz
    have htranslate : ∀ v, translate s₂.mem pml4 v = translate out.vmm.mem pml4 v := fun v =>
      (filled.translate pml4 v zeroed.tree.root).trans (zeroed.translate pml4 v added.tree.root)
    refine ⟨tag', filled.tree.switch _, added.ext, rfl, (htranslate _).trans htop₀,
      fun z hz => ⟨hrange.loadable hz, hpage z hz⟩, fun z hz => ?_, fun v hoff => ?_,
      fun v hload hoff => ?_⟩
    · show readByte s₂.mem pml4 _ = _
      by_cases hfile : z < contents.length
      · rw [hbytes z hfile, List.getD_eq_getElem?_getD, List.getElem?_eq_getElem hfile]
        rfl
      · rw [hkeep₂ _ (hrange.loadable hz) fun z' hz' heq => ?_, hzeros z (by omega),
          List.getElem_replicate, List.getD_eq_getElem?_getD, List.getElem?_eq_none (by omega)]
        · rfl
        · have := congrArg BitVec.toNat heq
          rw [hrange.toNat_add (by omega), hrange.toNat_add (by omega)] at this
          omega
    · show Widened _ (translate s₂.mem pml4 v)
      rw [htranslate]
      exact added.widened v hoff
    · have hother : ∀ z < phdr.pMemsz.toNat, v ≠ phdr.pVaddr + BitVec.ofNat 64 z := by
        rintro z hz rfl
        obtain ⟨k, hk, hpath⟩ := hpage z hz
        exact hoff k hk hpath
      show readByte s₂.mem pml4 v = _
      rw [hkeep₂ v hload fun z hz => hother z (by omega), hkeep₁ v hload fun z hz => hother z
        (by omega)]
      exact added.kept v hload hoff

/-! ### The program-header loop -/

/-- Two segments without a common page. -/
def Phdr.Apart (phdr other : Phdr) : Prop :=
  ∀ k < phdr.pages, ∀ j < other.pages, walkPath (phdr.page k) ≠ walkPath (other.page j)

/-- The loadable headers. -/
def loadables (phdrs : List Phdr) : List Phdr := phdrs.filter Phdr.loadable

/-- What loading all segments does. -/
structure SegmentsLoaded (image : BootImage) (window : Word → Prop) (pml4 : Word)
    (phdrs : List Phdr) (contents : Phdr → List (BitVec 8)) (tag : Word → Option Label) (s : Vmm)
    (tag' : Word → Option Label) (s' : Vmm) : Prop where
  tree : LoadTree image window pml4 tag' s'
  ext : Extends tag tag'
  cr3 : s'.cr3 = s.cr3
  placed : ∀ phdr ∈ loadables phdrs, SegmentPlaced s'.mem pml4 phdr (contents phdr)
  widened : ∀ v, (∀ phdr ∈ loadables phdrs, phdr.Off v) →
    Widened (translate s.mem pml4 v) (translate s'.mem pml4 v)
  kept : ∀ v, Loadable v → (∀ phdr ∈ loadables phdrs, phdr.Off v) →
    readByte s'.mem pml4 v = readByte s.mem pml4 v

/-- A segment whose pages the later ones leave alone. -/
theorem SegmentsLoaded.cons {phdrs : List Phdr} {contents : Phdr → List (BitVec 8)}
    {tag₁ tag₂ : Word → Option Label} {s₁ s₂ : Vmm} (hload : phdr.loadable = true)
    (hapart : ∀ other ∈ loadables phdrs, phdr.Apart other)
    (first : SegmentLoaded image window pml4 phdr (contents phdr) tag s tag₁ s₁)
    (rest : SegmentsLoaded image window pml4 phdrs contents tag₁ s₁ tag₂ s₂) :
    SegmentsLoaded image window pml4 (phdr :: phdrs) contents tag s tag₂ s₂ := by
  have hcons : loadables (phdr :: phdrs) = phdr :: loadables phdrs := List.filter_cons_of_pos hload
  refine ⟨rest.tree, first.ext.trans rest.ext, rest.cr3.trans first.cr3, fun other hother => ?_,
    fun v hoff => ?_, fun v hv hoff => ?_⟩
  · rw [hcons] at hother
    rcases List.mem_cons.1 hother with rfl | hother
    · intro z hz
      obtain ⟨hv, k, hk, hpath⟩ := first.inPages z hz
      rw [rest.kept _ hv fun later hlater j hj => ?_]
      · exact first.placed z hz
      · rw [hpath]
        exact hapart later hlater k hk j hj
    · exact rest.placed other hother
  · rw [hcons] at hoff
    exact (first.widened v (hoff phdr (List.mem_cons_self ..))).trans
      (rest.widened v fun other hother => hoff other (List.mem_cons_of_mem _ hother))
  · rw [hcons] at hoff
    rw [rest.kept v hv fun other hother => hoff other (List.mem_cons_of_mem _ hother)]
    exact first.kept v hv (hoff phdr (List.mem_cons_self ..))

/-- A program-header loop that gets through loads every segment, if no two share a page. -/
theorem segments_loaded {contents : Phdr → List (BitVec 8)} :
    ∀ (phdrs : List Phdr) (tag : Word → Option Label) (s : Vmm) (load : Loading),
      LoadTree image window pml4 tag s → translate s.mem pml4 topPage = none →
      (∀ phdr ∈ loadables phdrs, (contents phdr).length ≤ phdr.pMemsz.toNat) →
      (loadables phdrs).Pairwise Phdr.Apart →
      loadSegments pml4 contents phdrs s = .ok load → load.ok = true →
      ∃ tag', SegmentsLoaded image window pml4 phdrs contents tag s tag' load.vmm
  | [], tag, s, load, h, htop, hle, hapart, hok, hdone => by
      cases hok
      exact ⟨tag, h, fun _ _ ht => ht, rfl, fun _ hphdr => (nomatch hphdr), fun _ _ => .refl _,
        fun _ _ _ => rfl⟩
  | phdr :: phdrs, tag, s, load, h, htop, hle, hapart, hok, hdone => by
      rw [loadSegments] at hok
      split at hok
      case isTrue hload =>
        have hcons : loadables (phdr :: phdrs) = phdr :: loadables phdrs :=
          List.filter_cons_of_pos hload
        rw [hcons] at hle hapart
        obtain ⟨hfirst, hlater⟩ := List.pairwise_cons.1 hapart
        obtain ⟨one, hone, hok⟩ := bind_ok hok
        split at hok
        case isTrue hc =>
          obtain ⟨rest, hrest, hok⟩ := bind_ok hok
          cases hok
          obtain ⟨tag₁, first⟩ := segment_loaded h htop hload (hle _ (List.mem_cons_self ..)) hone hc
          obtain ⟨tag₂, more⟩ := segments_loaded phdrs tag₁ one.vmm rest first.tree first.top
            (fun other hother => hle other (List.mem_cons_of_mem _ hother)) hlater hrest hdone
          exact ⟨tag₂, .cons hload hfirst first more⟩
        case isFalse hc =>
          cases hok
          exact absurd hdone hc
      case isFalse hload =>
        have hcons : loadables (phdr :: phdrs) = loadables phdrs := List.filter_cons_of_neg hload
        rw [hcons] at hle hapart
        obtain ⟨tag', more⟩ := segments_loaded phdrs tag s load h htop hle hapart hok hdone
        refine ⟨tag', more.tree, more.ext, more.cr3, ?_, ?_, ?_⟩
        · rw [hcons]
          exact more.placed
        · rw [hcons]
          exact more.widened
        · rw [hcons]
          exact more.kept

/-! ### When a load gets through -/

/-- A segment of addresses behind the identity map that the processor accepts and that do not wrap
    around when they are rounded up. -/
structure Phdr.Fits (phdr : Phdr) : Prop where
  range : LoadableRange phdr.pVaddr phdr.pMemsz.toNat
  rounded : phdr.pVaddr.toNat + phdr.pMemsz.toNat < 2 ^ 64 - 4095

/-- The pages of such a segment are behind the identity map. -/
theorem Phdr.Fits.page_index (h : phdr.Fits) (hload : phdr.loadable = true) {k : Nat}
    (hk : k < phdr.pages) : ¬ (pml4Index (phdr.page k) = 0 ∧ pdptIndex (phdr.page k) = 0) := by
  obtain ⟨-, haddr, hcanon, -⟩ := segment_pages (Phdr.loadable_memsz hload) h.range.canonical hk
  have hstart : phdr.vstart.toNat = phdr.pVaddr.toNat / 4096 * 4096 := toNat_entryAddr _
  have hlow := h.range.low
  refine Loadable.index ⟨?_, hcanon⟩
  show 2 ^ 30 ≤ (sbrkPage phdr.vstart k).toNat
  rw [haddr, hstart]
  omega

/-- The frames that pages need at most, with their tables. -/
def framesFor (pages : Nat) : Nat := 4 * pages

/-- A segment is loaded when there are frames for it. -/
theorem segment_ok (h : LoadTree image window pml4 tag s)
    (htop : translate s.mem pml4 topPage = none) (hload : phdr.loadable = true) (hfits : phdr.Fits)
    (hle : contents.length ≤ phdr.pMemsz.toNat)
    (hfree : framesFor phdr.pages ≤ s.pmm.freeSet.card) :
    ∃ load, loadSegment pml4 phdr contents s = .ok load ∧ load.ok = true ∧
      s.pmm.freeSet.card ≤ load.vmm.pmm.freeSet.card + framesFor phdr.pages := by
  obtain ⟨out, hmap, hcomplete, hcard⟩ := @mapFreshPages_ok _ pml4 userPage phdr.page phdr.pages 0
    tag s h.tagged h.root hfree fun j _ hj => hfits.page_index hload (by omega)
  obtain ⟨⟨tag', added⟩, hpages⟩ := h.pages hmap
  have hmem := Phdr.loadable_memsz hload
  have htop₀ : translate out.vmm.mem pml4 topPage = none := by
    have hwide := added.widened topPage fun k hk =>
      (segment_pages hmem hfits.range.canonical hk).2.2.2.symm
    rw [htop] at hwide
    exact hwide.eq_none
  have hmapped : ∀ z < phdr.pMemsz.toNat,
      translate out.vmm.mem pml4 (phdr.pVaddr + BitVec.ofNat 64 z) ≠ none := by
    intro z hz
    obtain ⟨k, hk, hpath⟩ := segment_page hfits.range hfits.rounded hz
    obtain ⟨tr, htr, -⟩ := hpages hcomplete k hk _ hpath
    rw [htr]
    exact Option.some_ne_none _
  have hlength : (List.replicate phdr.pMemsz.toNat 0#8).length = phdr.pMemsz.toNat :=
    List.length_replicate ..
  obtain ⟨s₁, hzero⟩ := LoadTree.storeBytes_ok (List.replicate phdr.pMemsz.toNat 0#8) phdr.pVaddr _
    (added.tree.switch pml4) rfl htop₀ (by rw [hlength]; exact hfits.range)
    (by rw [hlength]; exact hmapped)
  have zeroed := LoadTree.storeBytes _ _ _ _ (added.tree.switch pml4) rfl htop₀ hfits.range.low hzero
  have htop₁ := (zeroed.translate _ topPage added.tree.root).trans htop₀
  obtain ⟨s₂, hfill⟩ := LoadTree.storeBytes_ok contents phdr.pVaddr s₁ zeroed.tree zeroed.cr3 htop₁
    (hfits.range.shorter hle) fun z hz => by
      rw [zeroed.translate pml4 _ added.tree.root]
      exact hmapped z (by omega)
  have filled := LoadTree.storeBytes _ _ _ _ zeroed.tree zeroed.cr3 htop₁ hfits.range.low hfill
  refine ⟨{ vmm := vmmSwitchAddressSpace s₂ s.cr3, frames := out.frames, ok := true }, ?_, rfl, ?_⟩
  · unfold loadSegment
    change (mapFreshPages pml4 phdr.page userPage phdr.pages 0 s >>= _) = _
    rw [hmap]
    show (if out.complete = true then _ else _) = _
    rw [if_pos hcomplete, hzero]
    show (storeBytes phdr.pVaddr contents s₁ >>= _) = _
    rw [hfill]
    rfl
  · show s.pmm.freeSet.card ≤ s₂.pmm.freeSet.card + _
    rw [filled.pmm, zeroed.pmm]
    exact hcard

/-- The pages of all loadable segments. -/
def totalPages (phdrs : List Phdr) : Nat := ((loadables phdrs).map Phdr.pages).sum

/-- The program-header loop gets through when there are frames for all segments. -/
theorem segments_ok {contents : Phdr → List (BitVec 8)} :
    ∀ (phdrs : List Phdr) (tag : Word → Option Label) (s : Vmm),
      LoadTree image window pml4 tag s → translate s.mem pml4 topPage = none →
      (∀ phdr ∈ loadables phdrs, phdr.Fits ∧ (contents phdr).length ≤ phdr.pMemsz.toNat) →
      framesFor (totalPages phdrs) ≤ s.pmm.freeSet.card →
      ∃ load, loadSegments pml4 contents phdrs s = .ok load ∧ load.ok = true
  | [], tag, s, h, htop, hfits, hfree => ⟨_, rfl, rfl⟩
  | phdr :: phdrs, tag, s, h, htop, hfits, hfree => by
      rw [loadSegments]
      split
      case isTrue hload =>
        have hcons : loadables (phdr :: phdrs) = phdr :: loadables phdrs :=
          List.filter_cons_of_pos hload
        rw [totalPages, hcons, List.map_cons, List.sum_cons] at hfree
        rw [hcons] at hfits
        obtain ⟨hself, hle⟩ := hfits phdr (List.mem_cons_self ..)
        unfold framesFor at hfree
        obtain ⟨one, hone, hdone, hleft⟩ := segment_ok h htop hload hself hle
          (by unfold framesFor; omega)
        obtain ⟨tag₁, first⟩ := segment_loaded h htop hload hle hone hdone
        unfold framesFor at hleft
        obtain ⟨rest, hrest, hall⟩ := segments_ok phdrs tag₁ one.vmm first.tree first.top
          (fun other hother => hfits other (List.mem_cons_of_mem _ hother))
          (by unfold framesFor totalPages; omega)
        refine ⟨{ rest with frames := one.frames ++ rest.frames }, ?_, hall⟩
        rw [hone]
        show (if one.ok = true then _ else _) = _
        rw [if_pos hdone, hrest]
        rfl
      case isFalse hload =>
        have hcons : loadables (phdr :: phdrs) = loadables phdrs := List.filter_cons_of_neg hload
        rw [totalPages, hcons] at hfree
        rw [hcons] at hfits
        exact segments_ok phdrs tag s h htop hfits hfree

end Segments

end CustomKernel.Filesystem
