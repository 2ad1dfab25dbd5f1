/-
Module: CustomKernel.Library.Numerals
Layer: Library
Purpose: Numbers written in a base, most significant digit first and without leading zeros. Characters
  come in through a map from digits and a partial map back. A numeral of fixed width is the numeral
  with zeros in front.
Imports: Mathlib.Data.Nat.Digits.Lemmas
Trusted boundary: none (fully proved)
Main exports: bigEndian, bigEndian_of_ne_zero, bigEndian_value, padded, padded_eq, numeral, parse,
  parse_numeral, numeral_head
-/
import Mathlib.Data.Nat.Digits.Lemmas

namespace Numerals

variable {base n k : Nat}

/-! ### Digits -/

/-- The digits of `n`, most significant first; those of zero are a single zero. -/
def bigEndian (base n : Nat) : List Nat := if n = 0 then [0] else (Nat.digits base n).reverse

theorem bigEndian_zero (base : Nat) : bigEndian base 0 = [0] := if_pos rfl

theorem bigEndian_of_ne_zero (hn : n ≠ 0) : bigEndian base n = (Nat.digits base n).reverse := if_neg hn

theorem bigEndian_lt (hbase : 1 < base) : ∀ d ∈ bigEndian base n, d < base := by
  intro d hd
  unfold bigEndian at hd
  split at hd
  · rw [List.mem_singleton.1 hd]
    omega
  · exact Nat.digits_lt_base hbase (List.mem_reverse.1 hd)

theorem bigEndian_length_le (hbase : 1 < base) (hk : 0 < k) (hn : n < base ^ k) :
    (bigEndian base n).length ≤ k := by
  unfold bigEndian
  split
  · exact hk
  · rw [List.length_reverse]
    exact (Nat.digits_length_le_iff hbase n).2 hn

/-- The number that digits stand for, behind what has been read. -/
def valueFrom (base : Nat) (acc : Nat) (digits : List Nat) : Nat :=
  digits.foldl (fun acc d => acc * base + d) acc

theorem bigEndian_value (base n : Nat) : valueFrom base 0 (bigEndian base n) = n := by
  unfold bigEndian valueFrom
  split
  · rename_i hn
    simp [hn]
  · rw [List.foldl_reverse]
    calc (Nat.digits base n).foldr (fun d acc => acc * base + d) 0
        = (Nat.digits base n).foldr (fun d acc => (d : Nat) + base * acc) 0 := by
          congr 1
          funext d acc
          rw [Nat.mul_comm, Nat.add_comm]
      _ = Nat.ofDigits base (Nat.digits base n) := (Nat.ofDigits_eq_foldr base _).symm
      _ = n := Nat.ofDigits_digits base n

/-- The first digit of a number other than zero is none. -/
theorem bigEndian_head (hn : n ≠ 0) : ∃ d rest, bigEndian base n = d :: rest ∧ d ≠ 0 := by
  have hne : Nat.digits base n ≠ [] := Nat.digits_ne_nil_iff_ne_zero.2 hn
  have hlast := Nat.getLast_digit_ne_zero base hn
  rw [bigEndian_of_ne_zero hn]
  cases hrev : (Nat.digits base n).reverse with
  | nil => exact absurd (List.reverse_eq_nil_iff.1 hrev) hne
  | cons d rest =>
      refine ⟨d, rest, rfl, fun hd => hlast ?_⟩
      have hdigits : Nat.digits base n = rest.reverse ++ [d] := by
        rw [← List.reverse_reverse (Nat.digits base n), hrev, List.reverse_cons]
      simp only [hdigits, List.getLast_append_singleton, hd]

/-! ### Fixed width -/

/-- The `k` lowest digits of `n`, most significant first. -/
def padded (base : Nat) : (k n : Nat) → List Nat
  | 0, _ => []
  | k + 1, n => padded base k (n / base) ++ [n % base]

theorem padded_zero (base k : Nat) : padded base k 0 = List.replicate k 0 := by
  induction k with
  | zero => rfl
  | succ k ih => rw [padded, Nat.zero_div, Nat.zero_mod, ih, List.replicate_succ']

theorem padded_digits (hbase : 1 < base) (hn : n < base ^ k) : padded base k n =
    List.replicate (k - (Nat.digits base n).length) 0 ++ (Nat.digits base n).reverse := by
  induction k generalizing n with
  | zero =>
      rw [Nat.pow_zero] at hn
      obtain rfl : n = 0 := by omega
      simp [padded]
  | succ k ih =>
      rcases Nat.eq_zero_or_pos n with rfl | hpos
      · rw [padded_zero]
        simp
      · have hquot : n / base < base ^ k := by
          rw [Nat.div_lt_iff_lt_mul (by omega), ← Nat.pow_succ]
          exact hn
        rw [padded, ih hquot, Nat.digits_def' hbase hpos, List.length_cons, List.reverse_cons,
          List.append_assoc, Nat.add_sub_add_right]

/-- A numeral of fixed width is the numeral with zeros in front. -/
theorem padded_eq (hbase : 1 < base) (hk : 0 < k) (hn : n < base ^ k) :
    padded base k n = List.replicate (k - (bigEndian base n).length) 0 ++ bigEndian base n := by
  rcases Nat.eq_zero_or_pos n with rfl | hpos
  · rw [padded_zero, bigEndian_zero, List.length_singleton, ← List.replicate_succ']
    congr 1
    omega
  · rw [bigEndian_of_ne_zero (by omega), List.length_reverse]
    exact padded_digits hbase hn

/-! ### Characters -/

section Characters

variable {α : Type*} {char : Nat → α} {value : α → Option Nat}

/-- The digits as characters. -/
def numeral (base : Nat) (char : Nat → α) (n : Nat) : List α := (bigEndian base n).map char

/-- Reads digits of the base, behind what has been read. -/
def parseFrom (base : Nat) (value : α → Option Nat) : (acc : Nat) → List α → Option Nat
  | acc, [] => some acc
  | acc, c :: text => do
      let d ← value c
      if d < base then parseFrom base value (acc * base + d) text else none

/-- The number that a text of digits stands for. -/
def parse (base : Nat) (value : α → Option Nat) : List α → Option Nat
  | [] => none
  | c :: text => parseFrom base value 0 (c :: text)

theorem parseFrom_map (hchar : ∀ d < base, value (char d) = some d) :
    ∀ (digits : List Nat) (acc : Nat), (∀ d ∈ digits, d < base) →
      parseFrom base value acc (digits.map char) = some (valueFrom base acc digits)
  | [], acc, _ => rfl
  | d :: digits, acc, hlt => by
      have hd := hlt d (List.mem_cons_self ..)
      rw [List.map_cons, parseFrom, hchar d hd]
      show (if d < base then _ else _) = _
      rw [if_pos hd, parseFrom_map hchar digits _ fun e he => hlt e (List.mem_cons_of_mem _ he)]
      rfl

/-- Reading a numeral gives the number back. -/
theorem parse_numeral (hbase : 1 < base) (hchar : ∀ d < base, value (char d) = some d) (n : Nat) :
    parse base value (numeral base char n) = some n := by
  have hread := parseFrom_map hchar (bigEndian base n) 0 (bigEndian_lt hbase)
  rw [bigEndian_value] at hread
  unfold numeral
  cases hdigits : bigEndian base n with
  | nil =>
      unfold bigEndian at hdigits
      split at hdigits
      · cases hdigits
      · rename_i hn
        exact absurd (List.reverse_eq_nil_iff.1 hdigits) (Nat.digits_ne_nil_iff_ne_zero.2 hn)
  | cons d rest =>
      rw [hdigits] at hread
      exact hread

/-- A numeral starts with a zero only if it is the one of zero. -/
theorem numeral_head (hbase : 1 < base) (hchar : ∀ d < base, value (char d) = some d)
    (hhead : (numeral base char n).head? = some (char 0)) : n = 0 := by
  by_contra hn
  obtain ⟨d, rest, hdigits, hd⟩ := @bigEndian_head base n hn
  have hlt := @bigEndian_lt base n hbase d (by rw [hdigits]; exact List.mem_cons_self ..)
  rw [numeral, hdigits] at hhead
  have hsame : char d = char 0 := Option.some.inj hhead
  have hvalue := hchar d hlt
  rw [hsame, hchar 0 (by omega)] at hvalue
  exact hd (Option.some.inj hvalue).symm

end Characters

end Numerals
