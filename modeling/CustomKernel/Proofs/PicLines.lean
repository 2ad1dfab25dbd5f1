/-
Module: CustomKernel.Proofs.PicLines
Layer: Proofs
Purpose: The interrupt controllers under their driver. `pic_init` takes them from whatever the
  firmware has left, even in the middle of an initialisation, to the vectors 32 to 47 and keeps the
  masks; from there on a call of the driver changes the mask of the one line it names or ends an
  interrupt, and never talks to a controller that waits for an initialisation word.
Imports: CustomKernel.Drivers.Pic, CustomKernel.Library.Bits
Trusted boundary: none (fully proved)
Main exports: Pic.Programmed, PicPair.Configured, PicPair.masked, PicCall, picInit_exec,
  Configured.call, pic_lines
-/
import CustomKernel.Drivers.Pic
import CustomKernel.Library.Bits

namespace CustomKernel

open PortProgram

/-! ### The driver on the controllers -/

@[simp] theorem picDevice_write_pic1Cmd (v : BitVec 8) (s : PicPair) :
    picDevice.write pic1Cmd v s = { s with master := s.master.writeCommand v } := rfl

@[simp] theorem picDevice_write_pic1Data (v : BitVec 8) (s : PicPair) :
    picDevice.write pic1Data v s = { s with master := s.master.writeData v } := rfl

@[simp] theorem picDevice_write_pic2Cmd (v : BitVec 8) (s : PicPair) :
    picDevice.write pic2Cmd v s = { s with slave := s.slave.writeCommand v } := rfl

@[simp] theorem picDevice_write_pic2Data (v : BitVec 8) (s : PicPair) :
    picDevice.write pic2Data v s = { s with slave := s.slave.writeData v } := rfl

@[simp] theorem picDevice_read_pic1Data (s : PicPair) :
    picDevice.read pic1Data s = (s.master.imr, s) := rfl

@[simp] theorem picDevice_read_pic2Data (s : PicPair) :
    picDevice.read pic2Data s = (s.slave.imr, s) := rfl

@[simp] theorem exec_ioWait (s : PicPair) : ioWait.exec picDevice s = s := rfl

/-- A controller behind `ICW1` to `ICW4`, waiting for masks. -/
structure Pic.Programmed (p : Pic) (vectorBase cascade : BitVec 8) : Prop where
  stage : p.stage = .ready
  vectorBase : p.vectorBase = vectorBase
  cascade : p.cascade = cascade
  /-- 8086 mode, fully nested, with explicit ends of interrupts. -/
  mode : p.mode = 0x01

/-- Both controllers as `pic_init` means to program them. -/
structure PicPair.Configured (s : PicPair) : Prop where
  master : s.master.Programmed 0x20 0x04
  slave : s.slave.Programmed 0x28 0x02

/-- `pic_init` on controllers in any state. -/
theorem picInit_exec (s : PicPair) :
    picInit.exec picDevice s =
      { master := ⟨.ready, 0x11, 0x20, 0x04, 0x01, s.master.imr, 0, 0⟩
        slave := ⟨.ready, 0x11, 0x28, 0x02, 0x01, s.slave.imr, 0, 0⟩ } := by
  simp [picInit, Pic.writeCommand, Pic.writeData, Pic.afterCascade]

theorem picInit_configured (s : PicPair) : (picInit.exec picDevice s).Configured := by
  rw [picInit_exec]
  exact ⟨⟨rfl, rfl, rfl, rfl⟩, ⟨rfl, rfl, rfl, rfl⟩⟩

/-- The end of interrupt that `pic_send_eoi` writes. -/
def Pic.eoi (p : Pic) : Pic := { p with isr := Pic.withoutHighest p.isr }

theorem Pic.writeCommand_eoi (p : Pic) : p.writeCommand 0x20#8 = p.eoi := by
  simp [Pic.writeCommand, Pic.eoi]

/-- `pic_send_eoi` on controllers in any state. -/
theorem picSendEoi_exec (irq : BitVec 8) (s : PicPair) :
    (picSendEoi irq).exec picDevice s =
      { master := s.master.eoi, slave := if 8 ≤ irq then s.slave.eoi else s.slave } := by
  unfold picSendEoi
  split
  · simp [Pic.writeCommand_eoi]
  · simp [Pic.writeCommand_eoi]

/-! ### Masks -/

/-- A line is masked at its controller. -/
def PicPair.masked (s : PicPair) (n : Nat) : Bool :=
  if n < 8 then s.master.imr.getLsbD n else s.slave.imr.getLsbD (n - 8)

/-- The line a call names, as a bit of its controller's mask. -/
theorem getLsbD_picBit {irq : BitVec 8} {j : Nat} (hj : j < 8) :
    (picBit irq).getLsbD j =
      decide (j = if 8 ≤ irq.toNat then irq.toNat - 8 else irq.toNat) := by
  unfold picBit
  rw [Bits.getLsbD_one_shiftLeft (by omega)]
  by_cases h : 8 ≤ irq.toNat
  · have hle : (8 : BitVec 8) ≤ irq := h
    rw [if_pos hle, if_pos h, BitVec.toNat_sub_of_le hle]
    rfl
  · have hle : ¬ (8 : BitVec 8) ≤ irq := h
    rw [if_neg hle, if_neg h]

/-- The mask byte `pic_mask` writes. -/
theorem getLsbD_maskByte (mask : BitVec 8) (bit : BitVec 32) {j : Nat} (hj : j < 8) :
    ((mask.setWidth 32 ||| bit).setWidth 8).getLsbD j = (mask.getLsbD j || bit.getLsbD j) := by
  have hwide : j < 32 := by omega
  simp [hj, hwide]

/-- The mask byte `pic_unmask` writes. -/
theorem getLsbD_unmaskByte (mask : BitVec 8) (bit : BitVec 32) {j : Nat} (hj : j < 8) :
    ((mask.setWidth 32 &&& ~~~bit).setWidth 8).getLsbD j = (mask.getLsbD j && !bit.getLsbD j) := by
  have hwide : j < 32 := by omega
  simp [hj, hwide]

/-- A controller with another mask. -/
def Pic.withMask (p : Pic) (mask : BitVec 8) : Pic := { p with imr := mask }

theorem Pic.writeData_ready {p : Pic} (h : p.stage = .ready) (mask : BitVec 8) :
    p.writeData mask = p.withMask mask := by
  cases p
  cases h
  rfl

/-- A driver call that writes back what it makes of the mask it reads: `pic_mask` and
    `pic_unmask`. -/
def updateMask (irq : BitVec 8) (f : BitVec 8 → BitVec 8) : PortProgram Unit := do
  let mask ← inb (picPort irq)
  outb (picPort irq) (f mask)

theorem updateMask_exec {s : PicPair} (h : s.Configured) (irq : BitVec 8)
    (f : BitVec 8 → BitVec 8) :
    (updateMask irq f).exec picDevice s =
      if irq.toNat < 8 then { s with master := s.master.withMask (f s.master.imr) }
      else { s with slave := s.slave.withMask (f s.slave.imr) } := by
  unfold updateMask picPort
  by_cases hlt : irq.toNat < 8
  · have hirq : irq < 8 := hlt
    rw [if_pos hirq, if_pos hlt]
    simp [Pic.writeData_ready h.master.stage]
  · have hirq : ¬ irq < 8 := hlt
    rw [if_neg hirq, if_neg hlt]
    simp [Pic.writeData_ready h.slave.stage]

/-! ### Calls -/

/-- What happens to the controllers: calls of the driver, and interrupts that are raised and
    acknowledged. -/
inductive PicCall where
  | mask (irq : BitVec 8)
  | unmask (irq : BitVec 8)
  | sendEoi (irq : BitVec 8)
  | raise (irq : Nat)
  | acknowledge (irq : Nat)
deriving DecidableEq, Repr

def PicPair.call (s : PicPair) : PicCall → PicPair
  | .mask irq => (picMask irq).exec picDevice s
  | .unmask irq => (picUnmask irq).exec picDevice s
  | .sendEoi irq => (picSendEoi irq).exec picDevice s
  | .raise irq => s.raise irq
  | .acknowledge irq => s.acknowledge irq

/-- What the call makes of a line's mask. -/
def PicCall.maskOf (n : Nat) (masked : Bool) : PicCall → Bool
  | .mask irq => if irq.toNat = n then true else masked
  | .unmask irq => if irq.toNat = n then false else masked
  | _ => masked

/-- The shift of the call is defined: the count is below the width of an `int`. -/
def PicCall.Defined : PicCall → Prop
  | .mask irq | .unmask irq => irq.toNat < 40
  | _ => True

theorem PicPair.Configured.withMask {s : PicPair} (h : s.Configured) (irq : BitVec 8)
    (f : BitVec 8 → BitVec 8) : ((updateMask irq f).exec picDevice s).Configured := by
  rw [updateMask_exec h]
  split
  · exact ⟨⟨h.master.stage, h.master.vectorBase, h.master.cascade, h.master.mode⟩, h.slave⟩
  · exact ⟨h.master, ⟨h.slave.stage, h.slave.vectorBase, h.slave.cascade, h.slave.mode⟩⟩

/-- No call leads out of the configuration. -/
theorem PicPair.Configured.call {s : PicPair} (h : s.Configured) (c : PicCall) :
    (s.call c).Configured := by
  have hmaster := h.master
  have hslave := h.slave
  cases c with
  | mask irq => exact h.withMask irq _
  | unmask irq => exact h.withMask irq _
  | sendEoi irq =>
      rw [PicPair.call, picSendEoi_exec]
      refine ⟨⟨hmaster.stage, hmaster.vectorBase, hmaster.cascade, hmaster.mode⟩, ?_⟩
      dsimp only
      split
      · exact ⟨hslave.stage, hslave.vectorBase, hslave.cascade, hslave.mode⟩
      · exact hslave
  | raise irq =>
      rw [PicPair.call, PicPair.raise]
      split
      · exact ⟨⟨hmaster.stage, hmaster.vectorBase, hmaster.cascade, hmaster.mode⟩, hslave⟩
      · exact ⟨hmaster, ⟨hslave.stage, hslave.vectorBase, hslave.cascade, hslave.mode⟩⟩
  | acknowledge irq =>
      rw [PicPair.call, PicPair.acknowledge]
      split
      · exact ⟨⟨hmaster.stage, hmaster.vectorBase, hmaster.cascade, hmaster.mode⟩, hslave⟩
      · exact ⟨⟨hmaster.stage, hmaster.vectorBase, hmaster.cascade, hmaster.mode⟩,
          ⟨hslave.stage, hslave.vectorBase, hslave.cascade, hslave.mode⟩⟩

/-- A call that updates the mask byte bit by bit changes the line it names and no other. -/
theorem masked_updateMask {s : PicPair} (h : s.Configured) {irq : BitVec 8}
    {f : BitVec 8 → BitVec 8} {g : Bool → Bool → Bool} (hirq : irq.toNat < 40)
    (hf : ∀ mask j, j < 8 → (f mask).getLsbD j = g (mask.getLsbD j) ((picBit irq).getLsbD j))
    (hg : ∀ b, g b false = b) {n : Nat} (hn : n < 16) :
    ((updateMask irq f).exec picDevice s).masked n =
      g (s.masked n) (decide (n = irq.toNat)) := by
  rw [updateMask_exec h]
  unfold PicPair.masked
  by_cases hline : irq.toNat < 8 <;> by_cases hnlt : n < 8
  · -- both lines belong to the master
    simp only [hline, hnlt, if_true, Pic.withMask]
    rw [hf _ _ hnlt, getLsbD_picBit hnlt, if_neg (by omega)]
  · simp only [hline, hnlt, if_true, if_false]
    rw [decide_eq_false (by omega), hg]
  · simp only [hline, hnlt, if_true, if_false]
    rw [decide_eq_false (by omega), hg]
  · -- both lines belong to the slave, or the call names a line that does not exist
    simp only [hline, hnlt, if_false, Pic.withMask]
    rw [hf _ _ (by omega), getLsbD_picBit (by omega), if_pos (by omega)]
    congr 1
    exact decide_eq_decide.2 (by omega)

/-- What a call does to the mask of a line. -/
theorem masked_call {s : PicPair} (h : s.Configured) {c : PicCall} (hc : c.Defined) {n : Nat}
    (hn : n < 16) : (s.call c).masked n = c.maskOf n (s.masked n) := by
  cases c with
  | mask irq =>
      have hmask := masked_updateMask h (g := fun a b => a || b) hc
        (fun mask j hj => getLsbD_maskByte mask (picBit irq) hj) (fun b => Bool.or_false b) hn
      refine hmask.trans ?_
      simp only [PicCall.maskOf, eq_comm (a := irq.toNat)]
      split <;> simp [*]
  | unmask irq =>
      have hmask := masked_updateMask h (g := fun a b => a && !b) hc
        (fun mask j hj => getLsbD_unmaskByte mask (picBit irq) hj) (fun b => by simp) hn
      refine hmask.trans ?_
      simp only [PicCall.maskOf, eq_comm (a := irq.toNat)]
      split <;> simp [*]
  | sendEoi irq =>
      rw [PicPair.call, picSendEoi_exec, PicPair.masked, PicPair.masked]
      dsimp only
      split
      · rfl
      · split <;> rfl
  | raise irq =>
      rw [PicPair.call, PicPair.raise]
      split <;> rfl
  | acknowledge irq =>
      rw [PicPair.call, PicPair.acknowledge]
      split <;> rfl

/-- The vectors of a configured pair are 32 to 47. -/
theorem PicPair.Configured.vector {s : PicPair} (h : s.Configured) {n : Nat} (hn : n < 16) :
    (s.vector n).toNat = 32 + n := by
  unfold PicPair.vector
  rw [h.master.vectorBase, h.slave.vectorBase]
  split
  · rw [BitVec.toNat_add, BitVec.toNat_ofNat]
    show (32 + n % 256) % 256 = 32 + n
    omega
  · rw [BitVec.toNat_add, BitVec.toNat_ofNat]
    show (40 + (n - 8) % 256) % 256 = 32 + n
    omega

theorem calls_configured : ∀ (calls : List PicCall) {s : PicPair}, s.Configured →
    (calls.foldl PicPair.call s).Configured
  | [], _, h => h
  | c :: calls, _, h => calls_configured calls (h.call c)

theorem calls_masked {n : Nat} (hn : n < 16) : ∀ (calls : List PicCall) {s : PicPair},
    s.Configured → (∀ c ∈ calls, c.Defined) →
      (calls.foldl PicPair.call s).masked n = calls.foldl (PicCall.maskOf n) (s.masked n)
  | [], _, _, _ => rfl
  | c :: calls, s, h, hdefined => by
      rw [List.foldl_cons, List.foldl_cons,
        calls_masked hn calls (h.call c) fun c' hc' => hdefined c' (List.mem_cons_of_mem _ hc'),
        masked_call h (hdefined c List.mem_cons_self) hn]

/-- After `pic_init`, whatever state the controllers were in, and after any sequence of driver calls
    and interrupts, line `n` has the vector `32 + n`, the controllers take what is written to their
    data ports for masks, and a line is masked exactly if the last call that names it was `pic_mask`,
    or, without such a call, if it was masked before `pic_init`. -/
theorem pic_lines (s : PicPair) (calls : List PicCall) (defined : ∀ c ∈ calls, c.Defined) :
    (calls.foldl PicPair.call (picInit.exec picDevice s)).Configured ∧
      ∀ n < 16, ((calls.foldl PicPair.call (picInit.exec picDevice s)).vector n).toNat = 32 + n ∧
        (calls.foldl PicPair.call (picInit.exec picDevice s)).masked n =
          calls.foldl (PicCall.maskOf n) (s.masked n) := by
  have hstart := picInit_configured s
  have hend := calls_configured calls hstart
  refine ⟨hend, fun n hn => ⟨hend.vector hn, ?_⟩⟩
  rw [calls_masked hn calls hstart defined]
  congr 1
  rw [picInit_exec, PicPair.masked, PicPair.masked]

/-- The calls that `kernel_main` makes, with the keyboard and the timer masked by the firmware. -/
theorem pic_lines_kernel_main :
    ([PicCall.unmask 1, .unmask 0].foldl PicPair.call (picInit.exec picDevice
      ⟨⟨.icw3, 0x11, 0x08, 0, 0, 0xFF, 0, 0⟩, ⟨.ready, 0x11, 0x70, 0, 0, 0xFF, 0, 0⟩⟩)).masked 1 =
        false :=
  (((pic_lines ⟨⟨.icw3, 0x11, 0x08, 0, 0, 0xFF, 0, 0⟩, ⟨.ready, 0x11, 0x70, 0, 0, 0xFF, 0, 0⟩⟩
    [.unmask 1, .unmask 0] (by
      intro c hc
      simp only [List.mem_cons, List.not_mem_nil, or_false] at hc
      rcases hc with rfl | rfl
      · show (1 : Nat) < 40
        decide
      · show (0 : Nat) < 40
        decide)).2 1 (by decide)).2).trans rfl

end CustomKernel
