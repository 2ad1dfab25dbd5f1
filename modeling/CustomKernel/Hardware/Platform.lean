/-
Module: CustomKernel.Hardware.Platform
Layer: Hardware
Purpose: The devices of the machine behind one I/O space: the port number decides which of them takes
  part in an access. No two answer on the same port.
Imports: CustomKernel.Hardware.InterruptController, CustomKernel.Hardware.IntervalTimer,
  CustomKernel.Hardware.Uart, CustomKernel.Hardware.VgaRegisters
Trusted boundary: the description of the port map
Main exports: Platform, platformDevice, pics_part, pit_part, uart_part, vga_part, ports_apart
-/
import CustomKernel.Hardware.InterruptController
import CustomKernel.Hardware.IntervalTimer
import CustomKernel.Hardware.Uart
import CustomKernel.Hardware.VgaRegisters

namespace CustomKernel

/-- The devices. -/
@[ext]
structure Platform where
  pics : PicPair
  pit : IntervalTimer
  uart : Uart
  vga : VgaRegisters

/-- The port that `io_wait` writes to. Nothing answers there. -/
def waitPort : Port := 0x80

/-- The ports of the interrupt controllers, with the one their driver waits on. -/
def picPorts (port : Port) : Prop :=
  port = pic1Cmd ∨ port = pic1Data ∨ port = pic2Cmd ∨ port = pic2Data ∨ port = waitPort

instance (port : Port) : Decidable (picPorts port) := inferInstanceAs (Decidable (_ ∨ _))

/-- No port belongs to two devices. -/
theorem ports_apart {port : Port} :
    (picPorts port → ¬ pitPorts port ∧ ¬ uartPorts port ∧ ¬ vgaPorts port) ∧
      (pitPorts port → ¬ uartPorts port ∧ ¬ vgaPorts port) ∧
      (uartPorts port → ¬ vgaPorts port) := by
  have hdata : ∀ a b : Port, a ≤ b ↔ a.toNat ≤ b.toNat := fun _ _ => Iff.rfl
  have heq : ∀ a : Port, port = a ↔ port.toNat = a.toNat :=
    fun _ => ⟨fun h => h ▸ rfl, BitVec.eq_of_toNat_eq⟩
  simp only [picPorts, pitPorts, uartPorts, vgaPorts, hdata, heq, pic1Cmd, pic1Data, pic2Cmd,
    pic2Data, waitPort, BitVec.ofNat_eq_ofNat, BitVec.toNat_ofNat]
  omega

/-- A port of no device takes what is written and reads as all ones. -/
def platformDevice : Device Platform where
  write port v s :=
    if picPorts port then { s with pics := picDevice.write port v s.pics }
    else if pitPorts port then { s with pit := pitDevice.write port v s.pit }
    else if uartPorts port then { s with uart := uartDevice.write port v s.uart }
    else if vgaPorts port then { s with vga := vgaDevice.write port v s.vga }
    else s
  read port s :=
    if picPorts port then
      ((picDevice.read port s.pics).1, { s with pics := (picDevice.read port s.pics).2 })
    else if pitPorts port then
      ((pitDevice.read port s.pit).1, { s with pit := (pitDevice.read port s.pit).2 })
    else if uartPorts port then
      ((uartDevice.read port s.uart).1, { s with uart := (uartDevice.read port s.uart).2 })
    else if vgaPorts port then
      ((vgaDevice.read port s.vga).1, { s with vga := (vgaDevice.read port s.vga).2 })
    else (0xFF, s)

theorem pics_part : Device.Part platformDevice picDevice picPorts Platform.pics where
  write_own p v t hp := by
    simp only [platformDevice, if_pos hp]
  write_other p v t hp := by
    simp only [platformDevice, if_neg hp]
    split_ifs <;> rfl
  read_own p t hp := by
    simp only [platformDevice, if_pos hp, and_self]
  read_other p t hp := by
    simp only [platformDevice, if_neg hp]
    split_ifs <;> rfl

theorem pit_part : Device.Part platformDevice pitDevice pitPorts Platform.pit where
  write_own p v t hp := by
    have hpic : ¬ picPorts p := fun h => (ports_apart.1 h).1 hp
    simp only [platformDevice, if_neg hpic, if_pos hp]
  write_other p v t hp := by
    simp only [platformDevice, if_neg hp]
    split_ifs <;> rfl
  read_own p t hp := by
    have hpic : ¬ picPorts p := fun h => (ports_apart.1 h).1 hp
    simp only [platformDevice, if_neg hpic, if_pos hp, and_self]
  read_other p t hp := by
    simp only [platformDevice, if_neg hp]
    split_ifs <;> rfl

theorem uart_part : Device.Part platformDevice uartDevice uartPorts Platform.uart where
  write_own p v t hp := by
    have hpic : ¬ picPorts p := fun h => (ports_apart.1 h).2.1 hp
    have hpit : ¬ pitPorts p := fun h => (ports_apart.2.1 h).1 hp
    simp only [platformDevice, if_neg hpic, if_neg hpit, if_pos hp]
  write_other p v t hp := by
    simp only [platformDevice, if_neg hp]
    split_ifs <;> rfl
  read_own p t hp := by
    have hpic : ¬ picPorts p := fun h => (ports_apart.1 h).2.1 hp
    have hpit : ¬ pitPorts p := fun h => (ports_apart.2.1 h).1 hp
    simp only [platformDevice, if_neg hpic, if_neg hpit, if_pos hp, and_self]
  read_other p t hp := by
    simp only [platformDevice, if_neg hp]
    split_ifs <;> rfl

theorem vga_part : Device.Part platformDevice vgaDevice vgaPorts Platform.vga where
  write_own p v t hp := by
    have hpic : ¬ picPorts p := fun h => (ports_apart.1 h).2.2 hp
    have hpit : ¬ pitPorts p := fun h => (ports_apart.2.1 h).2 hp
    have huart : ¬ uartPorts p := fun h => ports_apart.2.2 h hp
    simp only [platformDevice, if_neg hpic, if_neg hpit, if_neg huart, if_pos hp]
  write_other p v t hp := by
    simp only [platformDevice, if_neg hp]
    split_ifs <;> rfl
  read_own p t hp := by
    have hpic : ¬ picPorts p := fun h => (ports_apart.1 h).2.2 hp
    have hpit : ¬ pitPorts p := fun h => (ports_apart.2.1 h).2 hp
    have huart : ¬ uartPorts p := fun h => ports_apart.2.2 h hp
    simp only [platformDevice, if_neg hpic, if_neg hpit, if_neg huart, if_pos hp, and_self]
  read_other p t hp := by
    simp only [platformDevice, if_neg hp]
    split_ifs <;> rfl

end CustomKernel
