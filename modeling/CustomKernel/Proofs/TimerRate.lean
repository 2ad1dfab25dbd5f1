/-
Module: CustomKernel.Proofs.TimerRate
Layer: Proofs
Purpose: The interval timer under `timer_init`. Whatever the counters were doing, even between the two
  bytes of a count, counter 0 becomes a square wave that counts in binary from the divisor, as far as
  it fits into the 16 bits of a count; so it ticks at the frequency asked for exactly from 19 Hz up to
  the frequency of the clock.
Imports: CustomKernel.Drivers.Timer
Trusted boundary: none (fully proved)
Main exports: timerDivisor, timerInit_exec, timer_rate
-/
import CustomKernel.Drivers.Timer

namespace CustomKernel

open PortProgram

/-! ### The driver on the counters -/

@[simp] theorem pitDevice_write_command (v : BitVec 8) (s : IntervalTimer) :
    pitDevice.write pitCommand v s = s.command v := rfl

@[simp] theorem pitDevice_write_data (v : BitVec 8) (s : IntervalTimer) :
    pitDevice.write (pitData 0) v s = s.data 0 v := rfl

/-- The controllers of interrupts are not the timer. -/
theorem picUnmask_pitDevice (s : IntervalTimer) : (picUnmask 0).exec pitDevice s = s := rfl

/-- The command `0x36`: counter 0, low byte and then high byte, mode 3, binary. -/
theorem command_square_wave (s : IntervalTimer) :
    s.command 0x36#8 =
      ⟨fun i => if i = 0 then ⟨.lowHigh, 3, false, (s.counter 0).reload, none⟩
        else s.counter i⟩ := by
  unfold IntervalTimer.command
  congr 1
  funext i
  fin_cases i
  · rfl
  · rfl
  · rfl

/-- Both bytes of a count. -/
theorem Counter.count_count {c : Counter} (haccess : c.access = .lowHigh)
    (hpending : c.pending = none) (low high : BitVec 8) :
    (c.count low).count high = { c with reload := high ++ low } := by
  cases c
  cases haccess
  cases hpending
  rfl

theorem data_data (s : IntervalTimer) (i : Fin 3) (low high : BitVec 8) :
    (s.data i low).data i high =
      ⟨Function.update s.counter i (((s.counter i).count low).count high)⟩ := by
  unfold IntervalTimer.data
  dsimp only
  rw [Function.update_self, Function.update_idem]

/-! ### The divisor -/

/-- What `timer_init` writes as two bytes. -/
def timerDivisor (frequency : BitVec 32) : BitVec 16 := (1193182 / frequency).setWidth 16

theorem timerDivisor_bytes (divisor : BitVec 32) :
    (divisor >>> 8 &&& 0xFF).setWidth 8 ++ (divisor &&& 0xFF).setWidth 8 =
      divisor.setWidth 16 := by
  apply BitVec.eq_of_getLsbD_eq
  intro i hi
  have hmask : ∀ j < 8, (0xFF : BitVec 32).getLsbD j = true := by decide
  rw [BitVec.getLsbD_append, BitVec.getLsbD_setWidth, BitVec.getLsbD_setWidth,
    BitVec.getLsbD_setWidth, BitVec.getLsbD_and, BitVec.getLsbD_and, BitVec.getLsbD_ushiftRight]
  by_cases hlow : i < 8
  · rw [if_pos hlow, hmask i hlow]
    simp [hlow, hi]
  · have hhigh : i - 8 < 8 := by omega
    have hplace : 8 + (i - 8) = i := by omega
    rw [if_neg hlow, hmask (i - 8) hhigh, hplace]
    simp [hhigh, hi]

theorem toNat_timerDivisor (frequency : BitVec 32) :
    (timerDivisor frequency).toNat = 1193182 / frequency.toNat % 2 ^ 16 := by
  rw [timerDivisor, BitVec.toNat_setWidth, BitVec.toNat_udiv]
  rfl

/-- `timer_init` on counters in any state. -/
theorem timerInit_exec {frequency : BitVec 32} {program : PortProgram Unit}
    (h : timerInit frequency = some program) (s : IntervalTimer) :
    program.exec pitDevice s =
      ⟨fun i => if i = 0 then ⟨.lowHigh, 3, false, timerDivisor frequency, none⟩
        else s.counter i⟩ := by
  unfold timerInit at h
  split at h
  · cases h
  · have hprogram := Option.some.inj h
    rw [← hprogram]
    simp only [exec_bind, exec_outb, pitDevice_write_command, pitDevice_write_data,
      picUnmask_pitDevice]
    have hcommand : s.command 0x36 = _ := command_square_wave s
    rw [hcommand, data_data, Counter.count_count rfl rfl, timerDivisor_bytes]
    congr 1
    funext i
    by_cases hi : i = 0
    · rw [hi, Function.update_self, if_pos rfl]
      rfl
    · rw [Function.update_of_ne hi, if_neg hi]
      exact if_neg hi

/-! ### The rate -/

/-- The counter ticks at least `frequency` times in a second, and with one more clock for each tick it
    would not. -/
def Counter.Rate (c : Counter) (frequency : Nat) : Prop :=
  c.period * frequency ≤ 1193182 ∧ 1193182 < (c.period + 1) * frequency

/-- A count is the best one exactly if it is the quotient. -/
theorem rate_iff {c : Counter} {frequency : Nat} (hpos : 0 < frequency) :
    c.Rate frequency ↔ c.period = 1193182 / frequency := by
  unfold Counter.Rate
  constructor
  · rintro ⟨hle, hlt⟩
    exact (Nat.div_eq_of_lt_le hle hlt).symm
  · intro h
    rw [h]
    refine ⟨Nat.div_mul_le_self _ _, ?_⟩
    have hlt := Nat.lt_mul_div_succ 1193182 hpos
    rwa [Nat.mul_comm] at hlt

/-- A count of 0 stands for the one that does not fit. -/
theorem period_eq_quotient {c : Counter} {quotient : Nat} (h : c.reload.toNat = quotient % 2 ^ 16) :
    c.period = quotient ↔ 1 ≤ quotient ∧ quotient ≤ 2 ^ 16 := by
  have hzero : c.reload = 0 ↔ quotient % 2 ^ 16 = 0 := by
    rw [← h]
    exact ⟨fun heq => by rw [heq]; rfl, fun heq => BitVec.eq_of_toNat_eq heq⟩
  unfold Counter.period
  split
  next hreload =>
    have hmod := hzero.1 hreload
    omega
  next hreload =>
    have hmod : quotient % 2 ^ 16 ≠ 0 := fun hmod => hreload (hzero.2 hmod)
    rw [h]
    omega

/-- The quotient is a count from 19 Hz up to the frequency of the clock. -/
theorem quotient_fits {frequency : Nat} (hpos : 0 < frequency) :
    1 ≤ 1193182 / frequency ∧ 1193182 / frequency ≤ 2 ^ 16 ↔
      19 ≤ frequency ∧ frequency ≤ 1193182 := by
  have hbelow : 1193182 / frequency ≤ 2 ^ 16 ↔ 1193182 < (2 ^ 16 + 1) * frequency := by
    rw [← Nat.lt_succ_iff, Nat.div_lt_iff_lt_mul hpos]
  rw [Nat.le_div_iff_mul_le hpos, Nat.one_mul, hbelow]
  omega

/-- `timer_init` runs for every frequency but 0. From counters in any state, it leaves counter 0 as a
    square wave in binary with no byte of a count outstanding, and the others as they were. Counter 0
    then has the rate asked for exactly from 19 Hz to 1193182 Hz. -/
theorem timer_rate (frequency : BitVec 32) (s : IntervalTimer) :
    (timerInit frequency = none ↔ frequency = 0) ∧
      ∀ program, timerInit frequency = some program →
        ((program.exec pitDevice s).counter 0).access = .lowHigh ∧
        ((program.exec pitDevice s).counter 0).mode = 3 ∧
        ((program.exec pitDevice s).counter 0).bcd = false ∧
        ((program.exec pitDevice s).counter 0).pending = none ∧
        (∀ i, i ≠ 0 → (program.exec pitDevice s).counter i = s.counter i) ∧
        (((program.exec pitDevice s).counter 0).Rate frequency.toNat ↔
          19 ≤ frequency.toNat ∧ frequency.toNat ≤ 1193182) := by
  constructor
  · unfold timerInit
    split
    · exact ⟨fun _ => ‹_›, fun _ => rfl⟩
    · exact ⟨fun h => (by cases h), fun h => absurd h ‹_›⟩
  · intro program hprogram
    have hpos : 0 < frequency.toNat := by
      refine Nat.pos_of_ne_zero fun hzero => ?_
      have hfrequency : frequency = 0 := BitVec.eq_of_toNat_eq hzero
      rw [timerInit, if_pos hfrequency] at hprogram
      cases hprogram
    rw [timerInit_exec hprogram]
    refine ⟨rfl, rfl, rfl, rfl, fun i hi => if_neg hi, ?_⟩
    rw [rate_iff hpos, period_eq_quotient (toNat_timerDivisor frequency), quotient_fits hpos]

/-- The 100 Hz of `kernel_main`. -/
example : (timerDivisor 100).toNat = 11931 := by decide

end CustomKernel
