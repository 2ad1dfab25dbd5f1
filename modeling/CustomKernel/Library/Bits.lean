/-
Module: CustomKernel.Library.Bits
Layer: Library
Purpose: Single bits, low-bit masks and bytes of machine words of any width: what `v & (1 << j)`
  tests, what clearing or keeping the low bits does to the number a word stands for, and what is read
  from a word with a byte written to it.
Imports: Mathlib.Tactic
Trusted boundary: none (fully proved)
Main exports: getLsbD_one_shiftLeft, and_one_shiftLeft_bne, toNat_and_not_lowMask,
  toNat_and_lowMask, toNat_field, byte_insertByte, byte_insertByte_apart
-/
import Mathlib.Tactic

namespace Bits

variable {w : Nat}

/-- Bit `k` of `1 << j`, below the word's width. -/
theorem getLsbD_one_shiftLeft {j k : Nat} (hk : k < w) :
    (1#w <<< j).getLsbD k = decide (k = j) := by
  rw [BitVec.getLsbD_shiftLeft, BitVec.getLsbD_one]
  by_cases h : k = j
  · subst h
    have : 0 < w := by omega
    simp [hk, this]
  · by_cases hlt : k < j
    · simp [h, hlt]
    · have : k - j ≠ 0 := by omega
      simp [h, hlt, this]

/-- `v & (1 << j)` tests bit `j`. -/
theorem and_one_shiftLeft_bne (v : BitVec w) {j : Nat} (hj : j < w) :
    (v &&& 1#w <<< j != 0#w) = v.getLsbD j := by
  cases hbit : v.getLsbD j with
  | false =>
      have hzero : v &&& 1#w <<< j = 0#w := by
        apply BitVec.eq_of_getLsbD_eq
        intro k hk
        rw [BitVec.getLsbD_and, getLsbD_one_shiftLeft hk, BitVec.getLsbD_zero]
        by_cases hkj : k = j
        · rw [hkj, hbit]
          rfl
        · simp [hkj]
      simp [hzero]
  | true =>
      have hne : v &&& 1#w <<< j ≠ 0#w := by
        intro hzero
        have := congrArg (fun b => b.getLsbD j) hzero
        simp [BitVec.getLsbD_and, getLsbD_one_shiftLeft hj, hbit] at this
      simpa using hne

/-- The mask `2 ^ n - 1` has exactly its `n` low bits set. -/
theorem getLsbD_lowMask {n : Nat} (hn : n ≤ w) (k : Nat) :
    (BitVec.ofNat w (2 ^ n - 1)).getLsbD k = decide (k < n) := by
  rw [BitVec.getLsbD_ofNat, Nat.testBit_two_pow_sub_one]
  by_cases h : k < n
  · have : k < w := by omega
    simp [h, this]
  · simp [h]

/-- Keeping the `n` low bits is the remainder by `2 ^ n`. -/
theorem toNat_and_lowMask (v : BitVec w) {n : Nat} (hn : n ≤ w) :
    (v &&& BitVec.ofNat w (2 ^ n - 1)).toNat = v.toNat % 2 ^ n := by
  have hle : 2 ^ n ≤ 2 ^ w := Nat.pow_le_pow_right (by decide) hn
  have hpos : 0 < 2 ^ n := Nat.two_pow_pos n
  rw [BitVec.toNat_and, BitVec.toNat_ofNat, Nat.mod_eq_of_lt (a := 2 ^ n - 1) (by omega)]
  exact Nat.and_two_pow_sub_one_eq_mod _ n

/-- The field of `n` bits from bit `k` on. -/
theorem toNat_field (v : BitVec w) (k : Nat) {n : Nat} (hn : n ≤ w) :
    (v >>> k &&& BitVec.ofNat w (2 ^ n - 1)).toNat = v.toNat / 2 ^ k % 2 ^ n := by
  rw [toNat_and_lowMask _ hn, BitVec.toNat_ushiftRight, Nat.shiftRight_eq_div_pow]

/-- Clearing the `n` low bits rounds down to a multiple of `2 ^ n`. -/
theorem toNat_and_not_lowMask (v : BitVec w) {n : Nat} (hn : n ≤ w) :
    (v &&& ~~~BitVec.ofNat w (2 ^ n - 1)).toNat = v.toNat / 2 ^ n * 2 ^ n := by
  have hshift : v &&& ~~~BitVec.ofNat w (2 ^ n - 1) = v >>> n <<< n := by
    apply BitVec.eq_of_getLsbD_eq
    intro k hk
    rw [BitVec.getLsbD_and, BitVec.getLsbD_not, getLsbD_lowMask hn, BitVec.getLsbD_shiftLeft,
      BitVec.getLsbD_ushiftRight]
    by_cases h : k < n
    · simp [h]
    · have hsum : n + (k - n) = k := by omega
      simp [h, hk, hsum]
  have hle : v.toNat / 2 ^ n * 2 ^ n ≤ v.toNat := Nat.div_mul_le_self _ _
  have hlt : v.toNat / 2 ^ n * 2 ^ n < 2 ^ w := Nat.lt_of_le_of_lt hle v.isLt
  rw [hshift, BitVec.toNat_shiftLeft, BitVec.toNat_ushiftRight, Nat.shiftRight_eq_div_pow,
    Nat.shiftLeft_eq, Nat.mod_eq_of_lt hlt]

/-- Bit `i` of a word with a byte written to it at bit `k`. -/
theorem getLsbD_insertByte (v : BitVec w) (byte : BitVec 8) (k : Nat) {i : Nat} (hi : i < w)
    (hk : k + 8 ≤ w) :
    ((v &&& ~~~(BitVec.ofNat w (2 ^ 8 - 1) <<< k)) ||| byte.setWidth w <<< k).getLsbD i =
      if k ≤ i ∧ i < k + 8 then byte.getLsbD (i - k) else v.getLsbD i := by
  have hmask := getLsbD_lowMask (w := w) (n := 8) (by omega) (i - k)
  simp only [BitVec.getLsbD_or, BitVec.getLsbD_and, BitVec.getLsbD_not, BitVec.getLsbD_shiftLeft,
    BitVec.getLsbD_setWidth, hmask, hi, decide_true, Bool.true_and]
  by_cases hlo : i < k
  · have hout : ¬ (k ≤ i ∧ i < k + 8) := by omega
    simp [hlo, hout]
  · by_cases hhi : i - k < 8
    · have hin : k ≤ i ∧ i < k + 8 := by omega
      have hlt : i - k < w := by omega
      simp [hlo, hhi, hin, hlt]
    · have hout : ¬ (k ≤ i ∧ i < k + 8) := by omega
      have hbyte : byte.getLsbD (i - k) = false := BitVec.getLsbD_of_ge _ _ (by omega)
      simp [hlo, hhi, hout, hbyte]

/-- Reading the byte that was written. -/
theorem byte_insertByte (v : BitVec w) (byte : BitVec 8) {k : Nat} (hk : k + 8 ≤ w) :
    (((v &&& ~~~(BitVec.ofNat w (2 ^ 8 - 1) <<< k)) ||| byte.setWidth w <<< k) >>> k).setWidth 8 =
      byte := by
  apply BitVec.eq_of_getLsbD_eq
  intro i hi
  have hin : k ≤ k + i ∧ k + i < k + 8 := by omega
  rw [BitVec.getLsbD_setWidth, BitVec.getLsbD_ushiftRight,
    getLsbD_insertByte v byte k (by omega) hk, if_pos hin, Nat.add_sub_cancel_left]
  simp [hi]

/-- Reading another byte. -/
theorem byte_insertByte_apart (v : BitVec w) (byte : BitVec 8) {k j : Nat} (hk : k + 8 ≤ w)
    (hj : j + 8 ≤ w) (hapart : k + 8 ≤ j ∨ j + 8 ≤ k) :
    (((v &&& ~~~(BitVec.ofNat w (2 ^ 8 - 1) <<< k)) ||| byte.setWidth w <<< k) >>> j).setWidth 8 =
      (v >>> j).setWidth 8 := by
  apply BitVec.eq_of_getLsbD_eq
  intro i hi
  have hout : ¬ (k ≤ j + i ∧ j + i < k + 8) := by omega
  rw [BitVec.getLsbD_setWidth, BitVec.getLsbD_setWidth, BitVec.getLsbD_ushiftRight,
    BitVec.getLsbD_ushiftRight, getLsbD_insertByte v byte k (by omega) hk, if_neg hout]

end Bits
