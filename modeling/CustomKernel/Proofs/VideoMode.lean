/-
Module: CustomKernel.Proofs.VideoMode
Layer: Proofs
Purpose: The picture. `fb_init` loads its tables into the registers of the VGA, whatever they held,
  which takes the write protection off before it counts. From there on, whatever is called for the
  palette, the screen has the size of the frame buffer, and shows at each pixel the palette's entry for
  the byte of the frame buffer there.
Imports: CustomKernel.Drivers.VideoMode, CustomKernel.Proofs.Rectangles
Trusted boundary: none (fully proved)
Main exports: loaded, fbTable_loaded, fbTable_crtc, fbTable_ac, fbInit_exec, VideoCall,
  video_picture
-/
import CustomKernel.Drivers.VideoMode
import CustomKernel.Proofs.Rectangles

namespace CustomKernel

open PortProgram Loops

/-! ### The ports -/

theorem vgaDevice_write_misc (v : BitVec 8) (s : VgaRegisters) :
    vgaDevice.write vgaMisc v s = { s with misc := v } := rfl

theorem vgaDevice_write_crtcIndex (v : BitVec 8) (s : VgaRegisters) :
    vgaDevice.write vgaCrtcIndex v s = if s.colour then { s with crtcIndex := v } else s := rfl

theorem vgaDevice_write_crtcData (v : BitVec 8) (s : VgaRegisters) :
    vgaDevice.write vgaCrtcData v s = if s.colour then s.writeCrtc v else s := rfl

theorem vgaDevice_write_ac (v : BitVec 8) (s : VgaRegisters) :
    vgaDevice.write vgaAc v s = s.writeAc v := rfl

theorem vgaDevice_write_paletteIndex (v : BitVec 8) (s : VgaRegisters) :
    vgaDevice.write vgaPaletteIndex v s = { s with palette := s.palette.select v } := rfl

theorem vgaDevice_write_paletteData (v : BitVec 8) (s : VgaRegisters) :
    vgaDevice.write vgaPaletteData v s = { s with palette := s.palette.data v } := rfl

theorem vgaDevice_read_crtcData (s : VgaRegisters) :
    vgaDevice.read vgaCrtcData s = (if s.colour then s.crtc s.crtcIndex else 0xFF, s) := rfl

theorem vgaDevice_read_status (s : VgaRegisters) :
    vgaDevice.read vgaStatus s = (0, if s.colour then { s with acData := false } else s) := rfl

/-! ### Tables in registers -/

/-- The first `n` registers from a table, and the others as they were. -/
def loaded (table : List (BitVec 8)) (n : Nat) (registers : BitVec 8 → BitVec 8) :
    BitVec 8 → BitVec 8 :=
  fun r => if r.toNat < n then table.getD r.toNat 0 else registers r

theorem loaded_zero (table : List (BitVec 8)) (registers : BitVec 8 → BitVec 8) :
    loaded table 0 registers = registers :=
  funext fun _ => if_neg (Nat.not_lt_zero _)

/-- A register that is in the table. -/
theorem loaded_of_getD {table : List (BitVec 8)} {n : Nat} {r v : BitVec 8}
    (h : r.toNat < n ∧ table.getD r.toNat 0 = v) (registers : BitVec 8 → BitVec 8) :
    loaded table n registers r = v :=
  (if_pos h.1).trans h.2

/-- The next register. -/
theorem update_loaded {table : List (BitVec 8)} {n : Nat} (hn : n < 256)
    (registers : BitVec 8 → BitVec 8) :
    Function.update (loaded table n registers) (BitVec.ofNat 8 n) (table.getD n 0) =
      loaded table (n + 1) registers := by
  have hindex : (BitVec.ofNat 8 n).toNat = n := BitVec.toNat_ofNat n 8 ▸ Nat.mod_eq_of_lt hn
  funext r
  by_cases hr : r = BitVec.ofNat 8 n
  · rw [hr, Function.update_self, loaded, hindex, if_pos (Nat.lt_succ_self n)]
  · have hne : r.toNat ≠ n := fun heq => hr (BitVec.eq_of_toNat_eq (heq.trans hindex.symm))
    rw [Function.update_of_ne hr, loaded, loaded]
    exact if_congr (by omega) rfl rfl

/-- A table is loaded by a loop each of whose rounds loads one register, in a state that has, besides
    the registers, only the index that changes. -/
theorem fbTable_loaded {indexPort dataPort : Port} {table : List (BitVec 8)}
    (hlength : table.length ≤ 256) (registers : BitVec 8 → BitVec 8)
    (state : BitVec 8 → (BitVec 8 → BitVec 8) → VgaRegisters)
    (round : ∀ k n, n < table.length →
      vgaDevice.write dataPort (table.getD n 0)
          (vgaDevice.write indexPort (BitVec.ofNat 8 n) (state k (loaded table n registers))) =
        state (BitVec.ofNat 8 n)
          (Function.update (loaded table n registers) (BitVec.ofNat 8 n) (table.getD n 0)))
    (k : BitVec 8) :
    ∃ k', (fbTable indexPort dataPort table).exec vgaDevice (state k registers) =
      state k' (loaded table table.length registers) := by
  rw [fbTable, exec_forRange]
  refine @forRange_invariant _ _ (fun n s => ∃ k, s = state k (loaded table n registers)) 0
    table.length _ (Nat.zero_le _) ⟨k, by rw [loaded_zero]⟩ ?_
  rintro n s - hn ⟨k, rfl⟩
  refine ⟨BitVec.ofNat 8 n, ?_⟩
  rw [exec_bind, exec_outb, exec_outb, round k n hn, update_loaded (by omega)]

/-- The sequencer. -/
theorem fbTable_seq (s : VgaRegisters) {table : List (BitVec 8)} (h : table.length ≤ 256) :
    ∃ k, (fbTable vgaSeqIndex vgaSeqData table).exec vgaDevice s =
      { s with seqIndex := k, seq := loaded table table.length s.seq } :=
  fbTable_loaded h s.seq (fun k registers => { s with seqIndex := k, seq := registers })
    (fun _ _ _ => rfl) s.seqIndex

/-- The graphics controller. -/
theorem fbTable_gc (s : VgaRegisters) {table : List (BitVec 8)} (h : table.length ≤ 256) :
    ∃ k, (fbTable vgaGcIndex vgaGcData table).exec vgaDevice s =
      { s with gcIndex := k, gc := loaded table table.length s.gc } :=
  fbTable_loaded h s.gc (fun k registers => { s with gcIndex := k, gc := registers })
    (fun _ _ _ => rfl) s.gcIndex

/-- A CRT controller that is not write-protected takes every byte. -/
theorem writeCrtc_open {s : VgaRegisters} (h : (s.crtc 0x11).getLsbD 7 = false) (v : BitVec 8) :
    s.writeCrtc v = { s with crtc := Function.update s.crtc s.crtcIndex v } := by
  unfold VgaRegisters.writeCrtc
  rw [h]
  rfl

/-- The CRT controller. The protection stays off, since the table does not turn it on. -/
theorem fbTable_crtc {s : VgaRegisters} (hcolour : s.colour = true)
    (hopen : (s.crtc 0x11).getLsbD 7 = false) {table : List (BitVec 8)} (h : table.length ≤ 256)
    (htable : (table.getD 0x11 0).getLsbD 7 = false) :
    ∃ k, (fbTable vgaCrtcIndex vgaCrtcData table).exec vgaDevice s =
      { s with crtcIndex := k, crtc := loaded table table.length s.crtc } := by
  refine fbTable_loaded h s.crtc (fun k registers => { s with crtcIndex := k, crtc := registers })
    (fun k n _ => ?_) s.crtcIndex
  have hopen' : (loaded table n s.crtc 0x11).getLsbD 7 = false := by
    have hplace : (0x11 : BitVec 8).toNat = 0x11 := rfl
    rw [loaded, hplace]
    split
    · exact htable
    · exact hopen
  let before : VgaRegisters :=
    { s with crtcIndex := BitVec.ofNat 8 n, crtc := loaded table n s.crtc }
  have hindex : vgaDevice.write vgaCrtcIndex (BitVec.ofNat 8 n)
      { s with crtcIndex := k, crtc := loaded table n s.crtc } = before :=
    (vgaDevice_write_crtcIndex _ _).trans (if_pos hcolour)
  have hdata : vgaDevice.write vgaCrtcData (table.getD n 0) before =
      before.writeCrtc (table.getD n 0) :=
    (vgaDevice_write_crtcData _ _).trans (if_pos hcolour)
  exact (congrArg _ hindex).trans (hdata.trans (@writeCrtc_open before hopen' _))

/-- The first 32 indices are within the bits for an index, and do not turn the screen on. -/
theorem low_index : ∀ n < 32, BitVec.ofNat 8 n &&& 0x1F = BitVec.ofNat 8 n ∧
    (BitVec.ofNat 8 n).getLsbD 5 = false := by
  decide

theorem writeAc_index {s : VgaRegisters} (h : s.acData = false) (v : BitVec 8) :
    s.writeAc v = { s with acIndex := v, acData := true } := by
  rw [VgaRegisters.writeAc, h]
  rfl

/-- With the screen off, every attribute is open. -/
theorem writeAc_data {s : VgaRegisters} (h : s.acData = true) (hshut : s.acIndex.getLsbD 5 = false)
    (v : BitVec 8) :
    s.writeAc v =
      { s with ac := Function.update s.ac (s.acIndex &&& 0x1F) v, acData := false } := by
  rw [VgaRegisters.writeAc, if_pos h]
  dsimp only
  rw [if_neg]
  rintro ⟨hopen, -⟩
  rw [hshut] at hopen
  cases hopen

/-- The attribute controller, when its port waits for an index. -/
theorem fbTable_ac {s : VgaRegisters} (hphase : s.acData = false) {table : List (BitVec 8)}
    (h : table.length ≤ 32) :
    ∃ k, (fbTable vgaAc vgaAc table).exec vgaDevice s =
      { s with acIndex := k, ac := loaded table table.length s.ac } := by
  have hstart : s = { s with acData := false } := by rw [← hphase]
  rw [hstart]
  refine fbTable_loaded (by omega) s.ac
    (fun k registers => { s with acIndex := k, acData := false, ac := registers })
    (fun k n hn => ?_) s.acIndex
  obtain ⟨hindex, hshut⟩ := low_index n (by omega)
  let before : VgaRegisters := { s with acData := false, acIndex := k, ac := loaded table n s.ac }
  let selected : VgaRegisters := { before with acIndex := BitVec.ofNat 8 n, acData := true }
  have hselect : vgaDevice.write vgaAc (BitVec.ofNat 8 n) before = selected :=
    (vgaDevice_write_ac _ _).trans (@writeAc_index before rfl _)
  have hdata := (vgaDevice_write_ac (table.getD n 0) selected).trans
    (@writeAc_data selected rfl hshut _)
  rw [show selected.acIndex &&& 0x1F = BitVec.ofNat 8 n from hindex] at hdata
  exact (congrArg _ hselect).trans hdata

/-! ### The mode -/

theorem loaded_update {table : List (BitVec 8)} {n : Nat} {r : BitVec 8} (hr : r.toNat < n)
    (registers : BitVec 8 → BitVec 8) (v : BitVec 8) :
    loaded table n (Function.update registers r v) = loaded table n registers := by
  funext r'
  rw [loaded, loaded]
  by_cases heq : r' = r
  · rw [heq, if_pos hr, if_pos hr]
  · rw [Function.update_of_ne heq]

/-- The registers hold the tables of `fb_init`, from the state `s` on, and the screen is on. -/
structure VgaRegisters.Loaded (s s' : VgaRegisters) : Prop where
  misc : s'.misc = 0x63
  seq : s'.seq = loaded fbSeq 5 s.seq
  crtc : s'.crtc = loaded fbCrtc 25 s.crtc
  gc : s'.gc = loaded fbGc 9 s.gc
  ac : s'.ac = loaded fbAc 21 s.ac
  acIndex : s'.acIndex = 0x20
  acData : s'.acData = true

/-- Unlocking the CRT controller, which takes even if it is write-protected. -/
theorem unlock_exec {s : VgaRegisters} (hcolour : s.colour = true) :
    vgaDevice.write vgaCrtcData
        ((vgaDevice.read vgaCrtcData (vgaDevice.write vgaCrtcIndex 0x11 s)).1 &&& ~~~0x80)
        (vgaDevice.read vgaCrtcData (vgaDevice.write vgaCrtcIndex 0x11 s)).2 =
      { s with
        crtcIndex := 0x11
        crtc := Function.update s.crtc 0x11 (s.crtc 0x11 &&& ~~~0x80) } := by
  let selected : VgaRegisters := { s with crtcIndex := 0x11 }
  have hselect : vgaDevice.write vgaCrtcIndex 0x11 s = selected :=
    (vgaDevice_write_crtcIndex _ _).trans (if_pos hcolour)
  have hread : vgaDevice.read vgaCrtcData selected = (s.crtc 0x11, selected) := by
    rw [vgaDevice_read_crtcData]
    exact congrArg (Prod.mk · selected) (if_pos hcolour)
  have hindex : ¬ (0x11 : BitVec 8) ≤ 7 := by decide
  rw [hselect, hread, vgaDevice_write_crtcData]
  refine (if_pos hcolour).trans ?_
  unfold VgaRegisters.writeCrtc
  dsimp only
  rw [if_neg fun h => hindex h.2]

/-- The unlocked register has bit 7 clear. -/
theorem unlocked_bit (v : BitVec 8) : (v &&& ~~~0x80).getLsbD 7 = false := by
  have hbit : (~~~0x80 : BitVec 8).getLsbD 7 = false := by decide
  rw [BitVec.getLsbD_and, hbit, Bool.and_false]

/-- Bit 0 of what `fb_init` writes first selects the ports for colour. -/
theorem colour_of_misc {s : VgaRegisters} (h : s.misc = 0x63) : s.colour = true := by
  rw [VgaRegisters.colour, h]
  decide

/-- `fb_init` on registers in any state. -/
theorem fbInit_exec (s : VgaRegisters) :
    s.Loaded (fbInit.exec vgaDevice s) ∧ (fbInit.exec vgaDevice s).palette = s.palette := by
  rw [fbInit]
  simp only [exec_bind, exec_outb, run_inb, exec_inb]
  rw [vgaDevice_write_misc]
  obtain ⟨k, hseq⟩ := @fbTable_seq { s with misc := 0x63 } fbSeq (by decide)
  rw [hseq, unlock_exec (colour_of_misc rfl)]
  -- the table of the CRT controller writes the unlocked register again
  let unlocked : VgaRegisters :=
    { s with
      misc := 0x63
      seqIndex := k
      seq := loaded fbSeq fbSeq.length s.seq
      crtcIndex := 0x11
      crtc := Function.update s.crtc 0x11 (s.crtc 0x11 &&& ~~~0x80) }
  have hopen : (unlocked.crtc 0x11).getLsbD 7 = false := by
    show (Function.update s.crtc 0x11 (s.crtc 0x11 &&& ~~~0x80) 0x11).getLsbD 7 = false
    rw [Function.update_self]
    exact unlocked_bit _
  obtain ⟨k₁, hcrtc⟩ := @fbTable_crtc unlocked (colour_of_misc rfl) hopen fbCrtc (by decide)
    (by decide)
  have hlength : (0x11 : BitVec 8).toNat < fbCrtc.length := by decide
  rw [show unlocked.crtc = Function.update s.crtc 0x11 (s.crtc 0x11 &&& ~~~0x80) from rfl,
    loaded_update hlength] at hcrtc
  obtain ⟨k₂, hgc⟩ := @fbTable_gc
    { unlocked with crtcIndex := k₁, crtc := loaded fbCrtc fbCrtc.length s.crtc } fbGc (by decide)
  let indexed : VgaRegisters :=
    { unlocked with
      crtcIndex := k₁
      crtc := loaded fbCrtc fbCrtc.length s.crtc
      gcIndex := k₂
      gc := loaded fbGc fbGc.length s.gc
      acData := false }
  obtain ⟨k₃, hac⟩ := @fbTable_ac indexed rfl fbAc (by decide)
  rw [hcrtc, hgc, vgaDevice_read_status]
  dsimp only
  rw [if_pos (colour_of_misc rfl), hac, vgaDevice_write_ac, writeAc_index rfl]
  exact ⟨⟨rfl, rfl, rfl, rfl, rfl, rfl, rfl⟩, rfl⟩

/-- The screen has the size of the frame buffer, with two lines for each row, and a byte selects the
    entry of the palette with its number. -/
structure VgaRegisters.ShowsFramebuffer (s : VgaRegisters) : Prop where
  bytePixels : s.BytePixels
  columns : s.columns = fbWidth
  linesPerRow : s.linesPerRow = 2
  lines : s.lines = s.linesPerRow * fbHeight
  pitch : s.pitch = fbWidth
  start : s.start = 0
  paletteIndex : ∀ v, s.paletteIndex v = v

/-- The first 16 attributes are their own numbers. -/
theorem fbAc_identity (registers : BitVec 8 → BitVec 8) {r : BitVec 8} (hr : r.toNat < 16) :
    loaded fbAc 21 registers r = r := by
  have htable : ∀ n < 16, fbAc.getD n 0 = BitVec.ofNat 8 n := by decide
  rw [loaded, if_pos (by omega), htable _ hr, BitVec.ofNat_toNat, BitVec.setWidth_eq]

/-- The two halves of a byte, put together again. -/
theorem halves_joined :
    ∀ v : BitVec 8, (v >>> 4 &&& 0x0F) <<< 4 ||| v &&& 0x0F &&& 0x0F = v := by
  decide

theorem VgaRegisters.Loaded.crtc_value {s s' : VgaRegisters} (h : s.Loaded s') (r v : BitVec 8)
    (hr : r.toNat < 25 ∧ fbCrtc.getD r.toNat 0 = v) : s'.crtc r = v := by
  rw [h.crtc, loaded_of_getD hr]

theorem VgaRegisters.Loaded.bytePixels {s s' : VgaRegisters} (h : s.Loaded s') : s'.BytePixels where
  chained := by
    rw [h.seq, @loaded_of_getD fbSeq 5 4 0x0E (by decide)]
    decide
  written := by
    rw [h.seq, @loaded_of_getD fbSeq 5 2 0x0F (by decide)]
    decide
  running := by
    rw [h.seq, @loaded_of_getD fbSeq 5 0 0x03 (by decide)]
    decide
  lit := by
    rw [h.seq, @loaded_of_getD fbSeq 5 1 0x01 (by decide)]
    decide
  shifted := by
    rw [h.gc, @loaded_of_getD fbGc 9 5 0x40 (by decide)]
    decide
  graphics := by
    rw [h.gc, @loaded_of_getD fbGc 9 6 0x05 (by decide)]
    decide
  doubleWords := by
    rw [h.crtc_value 0x14 0x40 (by decide)]
    decide
  addresses := by
    rw [h.crtc_value 0x17 0xA3 (by decide)]
    decide
  preset := h.crtc_value 8 0 (by decide)
  unsplit := by
    rw [h.crtc_value 7 0x1F (by decide), h.crtc_value 9 0x41 (by decide)]
    exact ⟨h.crtc_value 0x18 0xFF (by decide), by decide, by decide⟩
  halves := by
    rw [h.ac, @loaded_of_getD fbAc 21 0x10 0x41 (by decide)]
    decide
  planes := by
    rw [h.ac, @loaded_of_getD fbAc 21 0x12 0x0F (by decide)]
    decide
  unpanned := by
    rw [h.ac, @loaded_of_getD fbAc 21 0x13 0x00 (by decide)]
    decide
  display := by
    rw [h.acIndex]
    decide

theorem VgaRegisters.Loaded.showsFramebuffer {s s' : VgaRegisters} (h : s.Loaded s') :
    s'.ShowsFramebuffer where
  bytePixels := h.bytePixels
  columns := by
    rw [VgaRegisters.columns, h.crtc_value 1 0x4F (by decide)]
    decide
  linesPerRow := by
    rw [VgaRegisters.linesPerRow, h.crtc_value 9 0x41 (by decide)]
    decide
  lines := by
    rw [VgaRegisters.lines, VgaRegisters.linesPerRow, h.crtc_value 0x12 0x8F (by decide),
      h.crtc_value 7 0x1F (by decide), h.crtc_value 9 0x41 (by decide)]
    decide
  pitch := by
    rw [VgaRegisters.pitch, h.crtc_value 0x13 0x28 (by decide)]
    decide
  start := by
    rw [VgaRegisters.start, h.crtc_value 0x0C 0 (by decide), h.crtc_value 0x0D 0 (by decide)]
    decide
  paletteIndex v := by
    have hhigh : (v >>> 4).toNat < 16 := by
      rw [BitVec.toNat_ushiftRight, Nat.shiftRight_eq_div_pow]
      have := v.isLt
      omega
    have hlow : (v &&& 0x0F).toNat < 16 := by
      rw [BitVec.toNat_and]
      exact Nat.lt_of_le_of_lt Nat.and_le_right (by decide)
    rw [VgaRegisters.paletteIndex, h.ac, fbAc_identity _ hhigh, fbAc_identity _ hlow]
    exact halves_joined v

/-! ### The palette -/

/-- An entry of the palette from bytes, of which it takes the six high bits. -/
def PaletteEntry.ofBytes (r g b : BitVec 8) : PaletteEntry := ⟨r >>> 2, g >>> 2, b >>> 2⟩

/-- `fb_set_palette` whatever has been written to the palette before. -/
theorem fbSetPalette_exec (index r g b : BitVec 8) (s : VgaRegisters) :
    (fbSetPalette index r g b).exec vgaDevice s =
      { s with
        palette :=
          ⟨Function.update s.palette.entries index (.ofBytes r g b), index + 1, .red⟩ } := by
  have hsix : ∀ v : BitVec 8, v >>> 2 &&& (0x3F : BitVec 8) = v >>> 2 := by decide
  rw [fbSetPalette]
  simp only [exec_bind, exec_outb, vgaDevice_write_paletteIndex, vgaDevice_write_paletteData,
    Palette.select, Palette.data, hsix]
  rfl

/-- Through the `int8_t` and the call, a byte stays what it is. -/
theorem signed_byte (v : BitVec 8) : (v.signExtend 32).setWidth 8 = v := by
  apply BitVec.eq_of_getLsbD_eq
  intro i hi
  have hwide : i < 32 := by omega
  rw [BitVec.getLsbD_setWidth, BitVec.getLsbD_signExtend]
  simp [hi, hwide]

/-- `sys_setpalette`: every entry, from three bytes each. -/
theorem sysSetpalette_exec (pal : Nat → BitVec 8) (s : VgaRegisters) :
    ∃ index phase, (sysSetpalette pal).exec vgaDevice s =
      { s with
        palette :=
          ⟨fun i => .ofBytes (pal (i.toNat * 3)) (pal (i.toNat * 3 + 1)) (pal (i.toNat * 3 + 2)),
            index, phase⟩ } := by
  rw [sysSetpalette, exec_forRange]
  have hloop := @forRange_invariant _
    (fun i => PortProgram.exec vgaDevice (fbSetPalette (BitVec.ofNat 8 i) (pal (i * 3))
      (pal (i * 3 + 1)) (pal (i * 3 + 2))))
    (fun n s' => ∃ index phase, s' =
      { s with
        palette :=
          ⟨fun i => if i.toNat < n then
              .ofBytes (pal (i.toNat * 3)) (pal (i.toNat * 3 + 1)) (pal (i.toNat * 3 + 2))
            else s.palette.entries i, index, phase⟩ })
    0 256 s (Nat.zero_le _) ⟨s.palette.index, s.palette.phase, rfl⟩ ?_
  · simp only [signed_byte]
    obtain ⟨index, phase, hend⟩ := hloop
    refine ⟨index, phase, hend.trans ?_⟩
    congr 2
    funext i
    exact if_pos i.isLt
  · rintro n s' - hn ⟨index, phase, rfl⟩
    have hindex : (BitVec.ofNat 8 n).toNat = n := BitVec.toNat_ofNat n 8 ▸ Nat.mod_eq_of_lt hn
    refine ⟨BitVec.ofNat 8 n + 1, .red, ?_⟩
    rw [fbSetPalette_exec]
    congr 2
    funext i
    by_cases hi : i = BitVec.ofNat 8 n
    · rw [hi, Function.update_self, hindex, if_pos (Nat.lt_succ_self n)]
    · have hne : i.toNat ≠ n := fun heq => hi (BitVec.eq_of_toNat_eq (heq.trans hindex.symm))
      rw [Function.update_of_ne hi]
      exact if_congr (by omega) rfl rfl

/-! ### Calls -/

/-- The registers and the frame buffer. -/
structure Video where
  registers : VgaRegisters
  fb : Framebuffer

instance (x y w h : BitVec 32) (i j : Int) : Decidable (InRectangle x y w h i j) :=
  inferInstanceAs (Decidable (_ ∧ _))

/-- What is called after `fb_init`: drawing, and setting the palette. -/
inductive VideoCall where
  | clear (colour : BitVec 8)
  | putPixel (x y : BitVec 32) (colour : BitVec 8)
  | drawRect (x y w h : BitVec 32) (colour : BitVec 8)
  | setPalette (index r g b : BitVec 8)
  | sysSetpalette (pal : Nat → BitVec 8)

namespace VideoCall

/-- The call on the device and on the memory. -/
def run (v : Video) : VideoCall → Video
  | .clear colour => { v with fb := fbClear v.fb colour }
  | .putPixel x y colour => { v with fb := fbPutPixel v.fb x y colour }
  | .drawRect x y w h colour => { v with fb := fbDrawRect v.fb x y w h colour }
  | .setPalette index r g b =>
      { v with registers := (fbSetPalette index r g b).exec vgaDevice v.registers }
  | .sysSetpalette pal =>
      { v with registers := (CustomKernel.sysSetpalette pal).exec vgaDevice v.registers }

/-- What the call makes of the byte of a pixel. -/
def byteAt (i j : Int) (byte : BitVec 8) : VideoCall → BitVec 8
  | .clear colour => colour
  | .putPixel x y colour => if i = x.toInt ∧ j = y.toInt then colour else byte
  | .drawRect x y w h colour => if InRectangle x y w h i j then colour else byte
  | _ => byte

/-- What the call makes of an entry of the palette. -/
def entryAt (n : BitVec 8) (entry : PaletteEntry) : VideoCall → PaletteEntry
  | .setPalette index r g b => if n = index then .ofBytes r g b else entry
  | .sysSetpalette pal =>
      .ofBytes (pal (n.toNat * 3)) (pal (n.toNat * 3 + 1)) (pal (n.toNat * 3 + 2))
  | _ => entry

end VideoCall

theorem Painted.pixel_eq {colour : BitVec 8} {region : Int → Int → Prop} {fb fb' : Framebuffer}
    (h : Painted colour region fb fb') {i j : Int} (hij : OnScreen i j) [Decidable (region i j)] :
    fb'.pixel i j = if region i j then colour else fb.pixel i j := by
  split
  · exact h.inside i j hij ‹_›
  · exact h.outside i j hij ‹_›

/-- A call on one pixel. -/
theorem VideoCall.run_pixel (v : Video) (c : VideoCall) {i j : Int} (hij : OnScreen i j) :
    (c.run v).fb.pixel i j = c.byteAt i j (v.fb.pixel i j) := by
  cases c with
  | clear colour =>
      simp only [VideoCall.run, VideoCall.byteAt]
      exact (Painted.clear v.fb colour).inside i j hij trivial
  | putPixel x y colour =>
      simp only [VideoCall.run, VideoCall.byteAt]
      exact (Painted.putPixel v.fb x y).pixel_eq hij
  | drawRect x y w h colour =>
      simp only [VideoCall.run, VideoCall.byteAt]
      exact (Painted.drawRect v.fb x y w h).pixel_eq hij
  | setPalette index r g b => simp only [VideoCall.run, VideoCall.byteAt]
  | sysSetpalette pal => simp only [VideoCall.run, VideoCall.byteAt]

/-- A call on the registers: all but the palette stay, and its entries change as they are called. -/
theorem VideoCall.run_registers (v : Video) (c : VideoCall) :
    ∃ palette, (c.run v).registers = { v.registers with palette := palette } ∧
      ∀ n, palette.entries n = c.entryAt n (v.registers.palette.entries n) := by
  cases c with
  | clear colour =>
      simp only [VideoCall.run, VideoCall.entryAt]
      exact ⟨v.registers.palette, rfl, fun _ => rfl⟩
  | putPixel x y colour =>
      simp only [VideoCall.run, VideoCall.entryAt]
      exact ⟨v.registers.palette, rfl, fun _ => rfl⟩
  | drawRect x y w h colour =>
      simp only [VideoCall.run, VideoCall.entryAt]
      exact ⟨v.registers.palette, rfl, fun _ => rfl⟩
  | setPalette index r g b =>
      simp only [VideoCall.run, VideoCall.entryAt]
      exact ⟨_, fbSetPalette_exec index r g b v.registers, fun n => Function.update_apply ..⟩
  | sysSetpalette pal =>
      simp only [VideoCall.run, VideoCall.entryAt]
      obtain ⟨index, phase, hexec⟩ := sysSetpalette_exec pal v.registers
      exact ⟨_, hexec, fun _ => rfl⟩

/-- A whole sequence of calls. -/
theorem videoCalls_pixel {i j : Int} (hij : OnScreen i j) : ∀ (calls : List VideoCall) (v : Video),
    (calls.foldl VideoCall.run v).fb.pixel i j =
      calls.foldl (VideoCall.byteAt i j) (v.fb.pixel i j)
  | [], _ => rfl
  | c :: calls, v => by
      rw [List.foldl_cons, List.foldl_cons, videoCalls_pixel hij calls, c.run_pixel v hij]

theorem videoCalls_registers : ∀ (calls : List VideoCall) (v : Video),
    ∃ palette, (calls.foldl VideoCall.run v).registers = { v.registers with palette := palette } ∧
      ∀ n, palette.entries n = calls.foldl (VideoCall.entryAt n) (v.registers.palette.entries n)
  | [], v => ⟨v.registers.palette, rfl, fun _ => rfl⟩
  | c :: calls, v => by
      obtain ⟨palette, hrun, hentries⟩ := c.run_registers v
      obtain ⟨palette', hruns, hentries'⟩ := videoCalls_registers calls (c.run v)
      refine ⟨palette', hruns.trans (by rw [hrun]), fun n => ?_⟩
      rw [hentries' n, hrun, List.foldl_cons, ← hentries n]

theorem VgaRegisters.ShowsFramebuffer.withPalette {s : VgaRegisters} (h : s.ShowsFramebuffer)
    (palette : Palette) : ({ s with palette := palette } : VgaRegisters).ShowsFramebuffer :=
  ⟨⟨h.bytePixels.chained, h.bytePixels.written, h.bytePixels.running, h.bytePixels.lit,
    h.bytePixels.shifted, h.bytePixels.graphics, h.bytePixels.doubleWords, h.bytePixels.addresses,
    h.bytePixels.preset, h.bytePixels.unsplit, h.bytePixels.halves, h.bytePixels.planes,
    h.bytePixels.unpanned, h.bytePixels.display⟩, h.columns, h.linesPerRow, h.lines, h.pitch,
    h.start, h.paletteIndex⟩

/-- Each line shows a row of the frame buffer through the palette. -/
theorem VgaRegisters.ShowsFramebuffer.shown_eq {s : VgaRegisters} (h : s.ShowsFramebuffer)
    (fb : Framebuffer) (column line : Nat) :
    s.shown (fun n => fb.pixels n) column line =
      s.palette.entries (fb.pixel column (line / 2 : Nat)) := by
  rw [VgaRegisters.shown, h.paletteIndex, h.start, h.linesPerRow, h.pitch, Framebuffer.pixel,
    Nat.zero_add]
  congr 2

/-- The byte of a pixel and an entry of the palette after a sequence of calls. -/
def byteAfter (calls : List VideoCall) (fb : Framebuffer) (i j : Int) : BitVec 8 :=
  calls.foldl (VideoCall.byteAt i j) (fb.pixel i j)

def entryAfter (calls : List VideoCall) (palette : Palette) (n : BitVec 8) : PaletteEntry :=
  calls.foldl (VideoCall.entryAt n) (palette.entries n)

/-- `fb_init`, with the VGA in any state, and then any calls that draw and that set the palette. The
    screen is in a mode with a byte for each pixel, 320 pixels wide, with 400 lines. On both lines of
    a row it shows, at each pixel, an entry of the palette, as the last call that named the entry has
    left it, and that for the byte of the last call that drew over the pixel. -/
theorem video_picture (s : VgaRegisters) (fb : Framebuffer) (calls : List VideoCall) :
    (calls.foldl VideoCall.run ⟨fbInit.exec vgaDevice s, fb⟩).registers.ShowsFramebuffer ∧
      ∀ column line : Nat, column < 320 → line < 400 →
        (calls.foldl VideoCall.run ⟨fbInit.exec vgaDevice s, fb⟩).registers.shown
          (fun n => (calls.foldl VideoCall.run ⟨fbInit.exec vgaDevice s, fb⟩).fb.pixels n)
            column line =
          entryAfter calls s.palette (byteAfter calls fb column (line / 2 : Nat)) := by
  obtain ⟨hloaded, hpalette⟩ := fbInit_exec s
  obtain ⟨palette, hregisters, hentries⟩ :=
    videoCalls_registers calls ⟨fbInit.exec vgaDevice s, fb⟩
  have hshows := hloaded.showsFramebuffer.withPalette palette
  rw [← hregisters] at hshows
  refine ⟨hshows, fun column line hcolumn hline => ?_⟩
  have hscreen : OnScreen column (line / 2 : Nat) := by
    unfold OnScreen
    omega
  rw [hshows.shown_eq, videoCalls_pixel hscreen, hregisters]
  exact (hentries _).trans (by rw [hpalette, entryAfter, byteAfter])

end CustomKernel
