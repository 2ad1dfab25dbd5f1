/-
Module: CustomKernel.Library.ByteMemory
Layer: Library
Purpose: Memory as bytes, with little-endian loads and stores of any width and the laws a proof about
  records laid out in it needs: a store is read back, a load elsewhere does not see it, and a load
  only depends on the bytes it covers. A loop that stores bytes one after the other changes the
  bytes it counts.
Imports: Mathlib.Tactic, CustomKernel.Library.Loops
Trusted boundary: none (fully proved)
Main exports: ByteMem, load, store, load_store, load_store_word, load_store_apart, load_congr,
  store_outside, zero_loop_outside, zero_loop_inside
-/
import Mathlib.Tactic
import CustomKernel.Library.Loops

namespace ByteMemory

/-- The byte at every address. -/
abbrev ByteMem := Nat → BitVec 8

/-- The number in the `n` bytes at `addr`, the lowest byte first. -/
def load (mem : ByteMem) : (n addr : Nat) → Nat
  | 0, _ => 0
  | n + 1, addr => (mem addr).toNat + 256 * load mem n (addr + 1)

/-- Store the `n` low bytes of `value` at `addr`. -/
def store : (n addr value : Nat) → ByteMem → ByteMem
  | 0, _, _, mem => mem
  | n + 1, addr, value, mem =>
      store n (addr + 1) (value / 256) (Function.update mem addr (BitVec.ofNat 8 value))

variable {mem mem' : ByteMem}

/-- A load depends on the bytes it covers. -/
theorem load_congr : ∀ {n addr : Nat},
    (∀ a, addr ≤ a → a < addr + n → mem' a = mem a) → load mem' n addr = load mem n addr
  | 0, _, _ => rfl
  | n + 1, addr, h => by
      have hfirst := h addr (Nat.le_refl _) (by omega)
      have hrest := @load_congr n (addr + 1) fun a hlo hhi =>
        h a (by omega) (by omega)
      rw [load, load, hfirst, hrest]

theorem load_lt (mem : ByteMem) : ∀ n addr : Nat, load mem n addr < 256 ^ n
  | 0, _ => Nat.one_pos
  | n + 1, addr => by
      have hbyte : (mem addr).toNat < 256 := (mem addr).isLt
      have hrest := load_lt mem n (addr + 1)
      rw [load, Nat.pow_succ]
      omega

/-- A store changes the bytes it covers and no others. -/
theorem store_outside : ∀ {n addr value : Nat} {mem : ByteMem} {a : Nat},
    a < addr ∨ addr + n ≤ a → store n addr value mem a = mem a
  | 0, _, _, _, _, _ => rfl
  | n + 1, addr, value, mem, a, h => by
      rw [store, store_outside (by omega), Function.update_of_ne (by omega)]

/-- What was stored is read back, cut to the width. -/
theorem load_store_self : ∀ (n addr value : Nat) (mem : ByteMem),
    load (store n addr value mem) n addr = value % 256 ^ n
  | 0, _, _, _ => (Nat.mod_one _).symm
  | n + 1, addr, value, mem => by
      rw [load, store, load_store_self, store_outside (by omega), Function.update_self,
        BitVec.toNat_ofNat]
      show value % 256 + 256 * (value / 256 % 256 ^ n) = value % 256 ^ (n + 1)
      rw [Nat.pow_succ, Nat.mul_comm (256 ^ n), Nat.mod_mul]

/-- A load does not see a store elsewhere. -/
theorem load_store_apart {n addr value m other : Nat} (h : other + m ≤ addr ∨ addr + n ≤ other) :
    load (store n addr value mem) m other = load mem m other :=
  load_congr fun _ hlo hhi => store_outside (by omega)

/-- What was stored is read back if it fits. -/
theorem load_store {n addr value : Nat} (h : value < 256 ^ n) :
    load (store n addr value mem) n addr = value := by
  rw [load_store_self, Nat.mod_eq_of_lt h]

/-- A word that was stored is read back. -/
theorem load_store_word {w n addr : Nat} (v : BitVec w) (h : w = 8 * n) :
    load (store n addr v.toNat mem) n addr = v.toNat := by
  have hpow : 2 ^ w = 256 ^ n := by rw [h, Nat.pow_mul]
  exact load_store (hpow ▸ v.isLt)

/-- A loop that zeroes bytes writes the bytes it counts. -/
theorem zero_loop_outside {ptr count a : Nat} {mem : ByteMem} (ha : a < ptr ∨ ptr + count ≤ a) :
    Loops.forRange 0 count (fun i mem => store 1 (ptr + i) 0 mem) mem a = mem a := by
  refine Loops.forRange_invariant (fun _ (mem' : ByteMem) => mem' a = mem a) (Nat.zero_le _) rfl ?_
  intro i mem' _ hi hmem'
  rw [store_outside (by omega), hmem']

theorem zero_loop_inside {ptr count i : Nat} {mem : ByteMem} (hi : i < count) :
    Loops.forRange 0 count (fun i mem => store 1 (ptr + i) 0 mem) mem (ptr + i) = 0#8 := by
  refine Loops.forRange_invariant (fun k (mem' : ByteMem) => ∀ i < k, mem' (ptr + i) = 0#8)
    (Nat.zero_le _) (fun _ hbad => nomatch hbad) ?_ i hi
  intro k mem' _ _ hmem' i hi
  rcases Nat.lt_succ_iff_lt_or_eq.1 hi with hlt | rfl
  · rw [store_outside (by omega), hmem' i hlt]
  · exact Function.update_self ..

end ByteMemory
