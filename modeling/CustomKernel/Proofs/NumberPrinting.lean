/-
Module: CustomKernel.Proofs.NumberPrinting
Layer: Proofs
Purpose: What the number printers print. The loops are read as writing digits into a buffer, downwards
  from its end or upwards from its start, with a fixed or a minimal number of digits; each printer then
  prints the numeral of its value, and stays in its buffer. The printers of the screen and of the
  serial port agree since both print the same numeral.
Imports: CustomKernel.Drivers.Numbers, CustomKernel.Library.Numerals
Trusted boundary: none (fully proved)
Main exports: digitChar, digitValue, parseSigned, decimalLoop_digits, vgaHexLoop_digits,
  serialHexLoop_digits, skipZeros_string, number_printing
-/
import CustomKernel.Drivers.Numbers
import CustomKernel.Library.Numerals

namespace CustomKernel

open Numerals LocalArray

/-! ### Digits -/

/-- The character of a digit. -/
def digitChar (d : Nat) : BitVec 8 := BitVec.ofNat 8 (if d < 10 then 48 + d else 55 + d)

/-- The digit of a character. -/
def digitValue (c : BitVec 8) : Option Nat :=
  if 48 ≤ c.toNat ∧ c.toNat < 58 then some (c.toNat - 48)
  else if 65 ≤ c.toNat ∧ c.toNat < 71 then some (c.toNat - 55)
  else none

/-- The number that a text stands for, with or without a sign in front. -/
def parseSigned : List (BitVec 8) → Option Int
  | [] => none
  | c :: text =>
      if c = 0x2D then (parse 10 digitValue text).map fun n => -(n : Int)
      else (parse 10 digitValue (c :: text)).map fun n => (n : Int)

theorem digitValue_digitChar : ∀ d < 16, digitValue (digitChar d) = some d := by decide

theorem digitChar_ne_zero : ∀ d < 16, digitChar d ≠ 0 := by decide

theorem digitChar_ne_sign : ∀ d < 16, digitChar d ≠ 0x2D := by decide

theorem digitChar_eq_zero : ∀ d < 16, digitChar d = 0x30 → d = 0 := by decide

theorem nibbleChar_ofNat : ∀ d < 16, nibbleChar (BitVec.ofNat 8 d) = digitChar d := by decide

/-- The low four bits of a value, as a character. -/
theorem nibbleChar_low (val : BitVec 64) :
    nibbleChar ((val &&& 0xF).setWidth 8) = digitChar (val.toNat % 16) := by
  have hand : (val &&& 0xF).toNat = val.toNat % 16 := by
    rw [BitVec.toNat_and]
    exact Nat.and_two_pow_sub_one_eq_mod _ 4
  have hnibble : (val &&& 0xF).setWidth 8 = BitVec.ofNat 8 (val.toNat % 16) := by
    refine BitVec.eq_of_toNat_eq ?_
    rw [BitVec.toNat_setWidth, hand, BitVec.toNat_ofNat]
  rw [hnibble, nibbleChar_ofNat _ (Nat.mod_lt _ (by decide))]

/-- The last decimal digit of a value, as a character. -/
theorem decimalChar_low (val : BitVec 64) :
    (0x30 + val % 10).setWidth 8 = digitChar (val.toNat % 10) := by
  have hten : (10 : BitVec 64).toNat = 10 := rfl
  have hzero : (0x30 : BitVec 64).toNat = 48 := rfl
  have hlt : val.toNat % 10 < 10 := Nat.mod_lt _ (by decide)
  refine BitVec.eq_of_toNat_eq ?_
  rw [BitVec.toNat_setWidth, BitVec.toNat_add, BitVec.toNat_umod, hten, hzero, digitChar, if_pos hlt,
    BitVec.toNat_ofNat]
  omega

/-- No character of a numeral ends a string. -/
theorem numeral_nonzero {base n : Nat} (hbase : 1 < base) (hle : base ≤ 16) :
    0 ∉ numeral base digitChar n := by
  intro hmem
  obtain ⟨d, hd, hzero⟩ := List.mem_map.1 hmem
  exact digitChar_ne_zero d (Nat.lt_of_lt_of_le (bigEndian_lt hbase d hd) hle) hzero

/-! ### Decimal -/

/-- The decimal loop puts the digits in front of what the buffer holds. -/
theorem decimalLoop_digits : ∀ (n : Nat) (val : BitVec 64), val.toNat = n → ∀ (buf : CharBuf 21)
    (i : Int) (text : List (BitVec 8)), buf.Holds (i + 1) text →
      (Nat.digits 10 n).length ≤ i + 1 → i < 21 →
      ∃ buf', decimalLoop val buf i = some (buf', i - (Nat.digits 10 n).length) ∧
        buf'.Holds (i - (Nat.digits 10 n).length + 1)
          ((Nat.digits 10 n).reverse.map digitChar ++ text) := by
  intro n
  induction n using Nat.strongRecOn with
  | ind n ih =>
      intro val hval buf i text hbuf hroom hi
      rw [decimalLoop]
      rcases Nat.eq_zero_or_pos n with rfl | hpos
      · have hzero : val = 0 := BitVec.eq_of_toNat_eq hval
        rw [dif_pos hzero, Nat.digits_zero, List.length_nil, Int.natCast_zero, Int.sub_zero]
        exact ⟨buf, rfl, hbuf⟩
      · have hne : val ≠ 0 := by
          rintro rfl
          exact absurd hval (Nat.ne_of_lt hpos)
        rw [dif_neg hne, decimalChar_low, hval]
        rw [Nat.digits_def' (by decide) hpos, List.length_cons] at hroom ⊢
        obtain ⟨buf₁, hstore, hbuf₁⟩ := hbuf.push (by omega) (by omega) (digitChar (n % 10))
        have hquot : (val / 10).toNat = n / 10 := by
          rw [BitVec.toNat_udiv, hval]
          rfl
        have hi₁ : i - 1 + 1 = i := by omega
        rw [← hi₁] at hbuf₁
        obtain ⟨buf', hrest, hbuf'⟩ := ih (n / 10) (Nat.div_lt_self hpos (by decide)) (val / 10) hquot
          buf₁ (i - 1) _ hbuf₁ (by omega) (by omega)
        have hend : i - 1 - (Nat.digits 10 (n / 10)).length =
            i - ((Nat.digits 10 (n / 10)).length + 1 : Nat) := by omega
        rw [hend] at hrest hbuf'
        refine ⟨buf', ?_, ?_⟩
        · rw [hstore]
          exact hrest
        · rw [List.reverse_cons, List.map_append, List.append_assoc]
          exact hbuf'

/-- What both printers do with the buffer. -/
theorem decimal_string (stale : CharBuf 21) {val : BitVec 64} (hval : val ≠ 0) :
    ∃ buf buf' i, stale.store 20 0 = some buf ∧ decimalLoop val buf 19 = some (buf', i) ∧
      buf'.string 0 (i + 1) = some (numeral 10 digitChar val.toNat) := by
  obtain ⟨buf, hstore, hbuf⟩ := (Holds.nil stale (20 + 1)).push (by decide) (by decide) 0
  have hne : val.toNat ≠ 0 := fun hzero => hval (BitVec.eq_of_toNat_eq hzero)
  have hlength : (Nat.digits 10 val.toNat).length ≤ 20 :=
    (Nat.digits_length_le_iff (by decide) _).2 (Nat.lt_trans val.isLt (by decide))
  obtain ⟨buf', hloop, hbuf'⟩ := decimalLoop_digits val.toNat val rfl buf 19 [0] hbuf (by omega)
    (by decide)
  refine ⟨buf, buf', _, hstore, hloop, Holds.string ?_ (numeral_nonzero (by decide) (by decide)) ?_ ?_⟩
  · rw [numeral, bigEndian_of_ne_zero hne]
    exact hbuf'
  · omega
  · rw [numeral, bigEndian_of_ne_zero hne, List.length_map, List.length_reverse]
    omega

/-! ### Hexadecimal, upwards -/

/-- The loop of the screen puts the digits behind what the buffer holds, in reverse. -/
theorem vgaHexLoop_digits : ∀ (n : Nat) (val : BitVec 64), val.toNat = n → ∀ (buf : CharBuf 17)
    (text : List (BitVec 8)), buf.Holds 0 text → text.length + (Nat.digits 16 n).length ≤ 17 →
      ∃ buf', vgaHexLoop val buf text.length =
          some (buf', ((text ++ (Nat.digits 16 n).map digitChar).length : Int)) ∧
        buf'.Holds 0 (text ++ (Nat.digits 16 n).map digitChar) := by
  intro n
  induction n using Nat.strongRecOn with
  | ind n ih =>
      intro val hval buf text hbuf hroom
      rw [vgaHexLoop]
      rcases Nat.eq_zero_or_pos n with rfl | hpos
      · have hzero : val = 0 := BitVec.eq_of_toNat_eq hval
        rw [dif_pos hzero, Nat.digits_zero, List.map_nil, List.append_nil]
        exact ⟨buf, rfl, hbuf⟩
      · have hne : val ≠ 0 := by
          rintro rfl
          exact absurd hval (Nat.ne_of_lt hpos)
        rw [dif_neg hne, nibbleChar_low, hval]
        rw [Nat.digits_def' (by decide) hpos, List.length_cons] at hroom
        rw [Nat.digits_def' (by decide) hpos]
        obtain ⟨buf₁, hstore, hbuf₁⟩ := hbuf.snoc (by omega) (digitChar (n % 16))
        have hquot : (val >>> 4).toNat = n / 16 := by
          rw [BitVec.toNat_ushiftRight, hval, Nat.shiftRight_eq_div_pow]
        obtain ⟨buf', hrest, hbuf'⟩ := ih (n / 16) (Nat.div_lt_self hpos (by decide)) (val >>> 4) hquot
          buf₁ (text ++ [digitChar (n % 16)]) hbuf₁ (by
            rw [List.length_append, List.length_singleton]
            omega)
        rw [List.append_assoc] at hrest hbuf'
        refine ⟨buf', ?_, hbuf'⟩
        rw [hstore]
        rw [List.length_append, List.length_singleton, Int.natCast_add, Int.natCast_one] at hrest
        exact hrest

/-- The last loop prints what the buffer holds, backwards. -/
theorem vgaPutDown_reverse (buf : CharBuf 17) : ∀ (text : List (BitVec 8)) (vga : Vga),
    buf.Holds 0 text → text.length ≤ 17 →
      vgaPutDown buf vga (text.length - 1) = some (text.reverse.foldl vgaPutchar vga) := by
  intro text
  induction text using List.reverseRecOn with
  | nil =>
      intro vga _ _
      rw [vgaPutDown, if_neg (by simp)]
      rfl
  | append_singleton text c ih =>
      intro vga hbuf hle
      rw [List.length_append, List.length_singleton] at hle ⊢
      have hlast : ((text.length + 1 : Nat) : Int) - 1 = text.length := by omega
      have hload : buf.load text.length = some c := by
        have hc := hbuf text.length (by simp)
        rw [Int.zero_add, List.getElem_concat_length rfl] at hc
        rw [LocalArray.load, if_pos (by omega), hc]
      have hinit : buf.Holds 0 text := fun k hk => by
        have := hbuf k (by simp; omega)
        rwa [List.getElem_append_left hk] at this
      rw [hlast, vgaPutDown, if_pos (by omega), hload, List.reverse_append]
      exact ih (vgaPutchar vga c) hinit (by omega)

/-! ### Hexadecimal, of fixed width -/

/-- The loop of the serial port puts as many digits as there is room for in front of what the buffer
    holds. -/
theorem serialHexLoop_digits : ∀ (count : Nat) (val : BitVec 64) (buf : CharBuf 17)
    (text : List (BitVec 8)), buf.Holds count text → count ≤ 17 →
      ∃ buf', serialHexLoop val buf (count - 1) = some buf' ∧
        buf'.Holds 0 ((padded 16 count val.toNat).map digitChar ++ text)
  | 0, val, buf, text, hbuf, _ => by
      rw [serialHexLoop, if_neg (by omega)]
      exact ⟨buf, rfl, hbuf⟩
  | count + 1, val, buf, text, hbuf, hle => by
      have hi : ((count + 1 : Nat) : Int) - 1 = count := by omega
      have hnext : ((count + 1 : Nat) : Int) = count + 1 := by omega
      rw [hnext] at hbuf
      obtain ⟨buf₁, hstore, hbuf₁⟩ := hbuf.push (by omega) (by omega) (digitChar (val.toNat % 16))
      obtain ⟨buf', hrest, hbuf'⟩ := serialHexLoop_digits count (val >>> 4) buf₁ _ hbuf₁ (by omega)
      have hquot : (val >>> 4).toNat = val.toNat / 16 := by
        rw [BitVec.toNat_ushiftRight, Nat.shiftRight_eq_div_pow]
      refine ⟨buf', ?_, ?_⟩
      · rw [hi, serialHexLoop, if_pos (by omega), nibbleChar_low, hstore]
        exact hrest
      · rw [hquot] at hbuf'
        rw [padded, List.map_append, List.append_assoc]
        exact hbuf'

/-- Leading zeros are skipped, but not the last character. -/
theorem skipZeros_string {buf : CharBuf 17} {c : BitVec 8} {rest : List (BitVec 8)}
    (hc : c ≠ 0x30 ∨ rest = []) (hzero : c ≠ 0) :
    ∀ (count budget : Nat) (p : Int),
      buf.Holds p (List.replicate count 0x30 ++ (c :: rest ++ [0])) → 0 ≤ p →
      p + count + rest.length + 2 ≤ 17 → count < budget →
      skipZeros buf budget p = some (p + count)
  | 0, budget + 1, p, hbuf, hp, hroom, _ => by
      have hload := Holds.load hbuf hp (by omega)
      rw [skipZeros, hload, Int.natCast_zero, Int.add_zero]
      show (if c = 0x30 then _ else some p) = some p
      by_cases hself : c = 0x30
      · -- the only character left is followed by the terminator
        obtain rfl := hc.resolve_left fun h => h hself
        have hnext := Holds.load (Holds.tail hbuf) (by omega) (by omega)
        rw [if_pos hself, hnext]
        rfl
      · exact if_neg hself
  | count + 1, budget + 1, p, hbuf, hp, hroom, hbudget => by
      have hload := Holds.load hbuf hp (by omega)
      have htail := Holds.tail hbuf
      obtain ⟨next, hnext, hne⟩ : ∃ next, buf.load (p + 1) = some next ∧ next ≠ 0 := by
        cases count with
        | zero => exact ⟨c, Holds.load htail (by omega) (by omega), hzero⟩
        | succ count => exact ⟨0x30, Holds.load htail (by omega) (by omega), by decide⟩
      have hrest := skipZeros_string hc hzero count budget (p + 1) htail (by omega) (by omega)
        (by omega)
      have hend : p + 1 + count = p + (count + 1 : Nat) := by omega
      rw [skipZeros, hload, Option.bind_eq_bind, Option.bind_some, if_pos rfl, hnext,
        Option.bind_some, if_pos hne, hrest, hend]

/-! ### Strings -/

/-- A text without a terminator is printed as it stands. -/
theorem vgaPrint_text : ∀ (text : List (BitVec 8)) (vga : Vga), 0 ∉ text →
    vgaPrint vga text = text.foldl vgaPutchar vga
  | [], vga, _ => rfl
  | c :: text, vga, hzero => by
      have hc : c ≠ 0 := fun heq => hzero (heq ▸ List.mem_cons_self ..)
      rw [vgaPrint, if_neg hc, List.foldl_cons]
      exact vgaPrint_text text _ fun hmem => hzero (List.mem_cons_of_mem _ hmem)

theorem serialPrint_text : ∀ (text : List (BitVec 8)) (serial : Serial), 0 ∉ text →
    serialPrint serial text = { sent := serial.sent ++ text }
  | [], serial, _ => by rw [List.append_nil]; rfl
  | c :: text, serial, hzero => by
      have hc : c ≠ 0 := fun heq => hzero (heq ▸ List.mem_cons_self ..)
      rw [serialPrint, if_neg hc,
        serialPrint_text text _ fun hmem => hzero (List.mem_cons_of_mem _ hmem), serialPutchar,
        List.append_assoc]
      rfl

/-! ### The printers -/

/-- The hexadecimal digits of a value. -/
def hexDigits (val : BitVec 64) : List (BitVec 8) := numeral 16 digitChar val.toNat

/-- The decimal digits of a value. -/
def decimalDigits (val : BitVec 64) : List (BitVec 8) := numeral 10 digitChar val.toNat

/-- The decimal digits of a signed value, with its sign. -/
def signedDigits (val : BitVec 64) : List (BitVec 8) :=
  if val.slt 0 then 0x2D :: decimalDigits (-val) else decimalDigits val

theorem hexDigits_zero : hexDigits 0 = [0x30] := by
  unfold hexDigits numeral
  rw [show (0 : BitVec 64).toNat = 0 from rfl, bigEndian_zero]
  rfl

theorem decimalDigits_zero : decimalDigits 0 = [0x30] := by
  unfold decimalDigits numeral
  rw [show (0 : BitVec 64).toNat = 0 from rfl, bigEndian_zero]
  rfl

/-- `vga_print_hex` prints the digits behind its prefix. -/
theorem vgaPrintHex_digits (stale : CharBuf 17) (vga : Vga) (val : BitVec 64) :
    vgaPrintHex stale vga val =
      some ((hexDigits val).foldl vgaPutchar ([0x30, 0x78].foldl vgaPutchar vga)) := by
  rw [vgaPrintHex, ← vgaPrint_text _ vga (by decide)]
  by_cases hval : val = 0
  · rw [if_pos hval, hval, hexDigits_zero, ← vgaPrint_text _ _ (by decide)]
  · have hne : val.toNat ≠ 0 := fun hzero => hval (BitVec.eq_of_toNat_eq hzero)
    have hlength : (Nat.digits 16 val.toNat).length ≤ 16 :=
      (Nat.digits_length_le_iff (by decide) _).2 (Nat.lt_of_lt_of_eq val.isLt (by decide))
    obtain ⟨buf, hloop, hbuf⟩ := vgaHexLoop_digits val.toNat val rfl stale [] (Holds.nil stale 0)
      (by rw [List.length_nil]; omega)
    rw [List.nil_append] at hloop hbuf
    have hdown := vgaPutDown_reverse buf _ (vgaPrint vga [0x30, 0x78]) hbuf
      (by rw [List.length_map]; omega)
    rw [if_neg hval, show (0 : Int) = ([] : List (BitVec 8)).length from rfl, hloop, hexDigits, numeral,
      bigEndian_of_ne_zero hne, List.map_reverse]
    exact hdown

/-- `vga_print_uint` prints the digits. -/
theorem vgaPrintUint_digits (stale : CharBuf 21) (vga : Vga) (val : BitVec 64) :
    vgaPrintUint stale vga val = some ((decimalDigits val).foldl vgaPutchar vga) := by
  by_cases hval : val = 0
  · obtain ⟨buf, hstore, -⟩ := (Holds.nil stale (20 + 1)).push (by decide) (by decide) 0
    rw [vgaPrintUint, hstore, hval, decimalDigits_zero]
    rfl
  · obtain ⟨buf, buf', i, hstore, hloop, hstring⟩ := decimal_string stale hval
    rw [vgaPrintUint, hstore, Option.bind_eq_bind, Option.bind_some, if_neg hval, hloop,
      decimalDigits, ← vgaPrint_text _ _ (numeral_nonzero (by decide) (by decide))]
    show (buf'.string 0 (i + 1) >>= _) = _
    rw [hstring]
    rfl

/-- `vga_print_int` prints them behind the sign. -/
theorem vgaPrintInt_digits (stale : CharBuf 21) (vga : Vga) (val : BitVec 64) :
    vgaPrintInt stale vga val = some ((signedDigits val).foldl vgaPutchar vga) := by
  unfold vgaPrintInt signedDigits
  split
  · exact vgaPrintUint_digits stale _ (-val)
  · exact vgaPrintUint_digits stale vga val

/-- `serial_print_hex` sends the digits. -/
theorem serialPrintHex_digits (stale : CharBuf 17) (serial : Serial) (val : BitVec 64) :
    serialPrintHex stale serial val = some { sent := serial.sent ++ hexDigits val } := by
  have hlt : val.toNat < 16 ^ 16 := Nat.lt_of_lt_of_eq val.isLt (by decide)
  obtain ⟨buf, hstore, hbuf⟩ := (Holds.nil stale (16 + 1)).push (by decide) (by decide) 0
  obtain ⟨buf', hloop, hbuf'⟩ := serialHexLoop_digits 16 val buf [0] hbuf (by decide)
  have hlength := bigEndian_length_le (by decide) (by decide) hlt
  rw [padded_eq (by decide) (by decide) hlt, List.map_append, List.map_replicate,
    List.append_assoc] at hbuf'
  -- the first character that is not skipped
  obtain ⟨d, rest, hdigits, hfirst⟩ : ∃ d rest, bigEndian 16 val.toNat = d :: rest ∧
      (d ≠ 0 ∨ rest = []) := by
    by_cases hval : val.toNat = 0
    · exact ⟨0, [], by rw [hval, bigEndian_zero], .inr rfl⟩
    · obtain ⟨d, rest, hdigits, hd⟩ := @bigEndian_head 16 _ hval
      exact ⟨d, rest, hdigits, .inl hd⟩
  have hd := @bigEndian_lt 16 val.toNat (by decide) d (by rw [hdigits]; exact List.mem_cons_self ..)
  have hskip := @skipZeros_string buf' (digitChar d) (rest.map digitChar)
    (hfirst.imp (fun hne heq => hne (digitChar_eq_zero d hd heq)) fun hnil => by rw [hnil]; rfl)
    (digitChar_ne_zero d hd) (16 - (bigEndian 16 val.toNat).length) 17 0
  have hdigit : hexDigits val = digitChar d :: rest.map digitChar := by
    rw [hexDigits, numeral, hdigits, List.map_cons]
  have htext : (bigEndian 16 val.toNat).map digitChar = hexDigits val := rfl
  have hcount : (hexDigits val).length = (bigEndian 16 val.toNat).length := List.length_map ..
  have hrest : (rest.map digitChar).length + 1 = (hexDigits val).length := by rw [hdigit]; rfl
  rw [htext] at hbuf'
  have hp := hskip (by rw [List.cons_append, ← List.cons_append, ← hdigit]; exact hbuf')
    (Int.le_refl 0) (by omega) (by omega)
  have hright := hbuf'.right
  rw [List.length_replicate] at hright
  have hstring := hright.string (numeral_nonzero (by decide) (by decide)) (by omega) (by omega)
  rw [serialPrintHex, hstore, Option.bind_eq_bind, Option.bind_some]
  show (serialHexLoop val buf ((16 : Nat) - 1) >>= _) = _
  rw [hloop, Option.bind_eq_bind, Option.bind_some, hp, Option.bind_eq_bind, Option.bind_some, hstring,
    ← serialPrint_text (hexDigits val) serial (numeral_nonzero (by decide) (by decide))]
  rfl

theorem serialPrintInt_eq (stale : CharBuf 21) (serial : Serial) (val : BitVec 64) :
    serialPrintInt stale serial val =
      if val.slt 0 then serialPrintUnsigned stale (serialPutchar serial 0x2D) (-val)
      else serialPrintUnsigned stale serial val := by
  unfold serialPrintInt
  by_cases hneg : val.slt 0 = true
  · rw [if_pos hneg, if_pos hneg]
  · rw [if_neg hneg, if_neg hneg]

theorem serialPrintUnsigned_digits (stale : CharBuf 21) (serial : Serial) (val : BitVec 64) :
    serialPrintUnsigned stale serial val = some { sent := serial.sent ++ decimalDigits val } := by
  by_cases hval : val = 0
  · obtain ⟨buf, hstore, -⟩ := (Holds.nil stale (20 + 1)).push (by decide) (by decide) 0
    rw [serialPrintUnsigned, hstore, hval, decimalDigits_zero]
    rfl
  · obtain ⟨buf, buf', i, hstore, hloop, hstring⟩ := decimal_string stale hval
    rw [serialPrintUnsigned, hstore, Option.bind_eq_bind, Option.bind_some, if_neg hval, hloop,
      decimalDigits, ← serialPrint_text _ _ (numeral_nonzero (by decide) (by decide))]
    show (buf'.string 0 (i + 1) >>= _) = _
    rw [hstring]
    rfl

/-- `serial_print_int` sends the digits behind the sign. -/
theorem serialPrintInt_digits (stale : CharBuf 21) (serial : Serial) (val : BitVec 64) :
    serialPrintInt stale serial val = some { sent := serial.sent ++ signedDigits val } := by
  rw [serialPrintInt_eq]
  unfold signedDigits
  split
  · rw [serialPrintUnsigned_digits, serialPutchar, List.append_assoc]
    rfl
  · exact serialPrintUnsigned_digits stale serial val

/-! ### Reading back -/

theorem parse_hexDigits (val : BitVec 64) : parse 16 digitValue (hexDigits val) = some val.toNat :=
  parse_numeral (by decide) digitValue_digitChar _

theorem parse_decimalDigits (val : BitVec 64) :
    parse 10 digitValue (decimalDigits val) = some val.toNat :=
  parse_numeral (by decide) (fun d hd => digitValue_digitChar d (by omega)) _

theorem hexDigits_head {val : BitVec 64} (h : (hexDigits val).head? = some 0x30) : val = 0 :=
  BitVec.eq_of_toNat_eq (numeral_head (by decide) digitValue_digitChar h)

/-- The sign of a value: the negation wraps around, so the smallest value has its own digits. -/
theorem parse_signedDigits (val : BitVec 64) : parseSigned (signedDigits val) = some val.toInt := by
  have hlt := val.isLt
  have htoInt := BitVec.toInt_eq_toNat_cond val
  unfold signedDigits
  by_cases hneg : val.slt 0 = true
  · have hsign : val.toInt < 0 := BitVec.slt_iff_toInt_lt.1 hneg
    rw [if_pos hneg, parseSigned, if_pos rfl, parse_decimalDigits, BitVec.toNat_neg]
    refine congrArg some ?_
    show -(((2 ^ 64 - val.toNat) % 2 ^ 64 : Nat) : Int) = val.toInt
    split_ifs at htoInt <;> omega
  · have hsign : ¬ val.toInt < 0 := fun h => hneg (BitVec.slt_iff_toInt_lt.2 h)
    have hparse := parse_decimalDigits val
    rw [if_neg hneg]
    cases hdigits : decimalDigits val with
    | nil =>
        rw [hdigits] at hparse
        cases hparse
    | cons c text =>
        have hc : c ≠ 0x2D := by
          have hmem : c ∈ decimalDigits val := by rw [hdigits]; exact List.mem_cons_self ..
          obtain ⟨d, hd, rfl⟩ := List.mem_map.1 hmem
          exact digitChar_ne_sign d (Nat.lt_trans (bigEndian_lt (by decide) d hd) (by decide))
        rw [hdigits] at hparse
        rw [parseSigned, if_neg hc, hparse]
        refine congrArg some ?_
        show (val.toNat : Int) = val.toInt
        split_ifs at htoInt <;> omega

/-! ### The main result -/

/-- For every value, whatever the buffers hold: the printers come back, so no index has left its
    buffer; both hexadecimal printers print the same digits, which have no leading zero unless the
    value is zero and are read back as the value; the digits of `vga_print_uint` are read back as the
    value; and both signed printers print the same text, which is read back as the signed value. -/
theorem number_printing (val : BitVec 64) :
    (∃ digits, (∀ stale vga, vgaPrintHex stale vga val =
          some (digits.foldl vgaPutchar ([0x30, 0x78].foldl vgaPutchar vga))) ∧
        (∀ stale serial, serialPrintHex stale serial val =
          some { sent := serial.sent ++ digits }) ∧
        (digits.head? = some 0x30 → val = 0) ∧ parse 16 digitValue digits = some val.toNat) ∧
      (∃ digits, (∀ stale vga, vgaPrintUint stale vga val = some (digits.foldl vgaPutchar vga)) ∧
        parse 10 digitValue digits = some val.toNat) ∧
      ∃ text, (∀ stale vga, vgaPrintInt stale vga val = some (text.foldl vgaPutchar vga)) ∧
        (∀ stale serial, serialPrintInt stale serial val = some { sent := serial.sent ++ text }) ∧
        parseSigned text = some val.toInt :=
  ⟨⟨hexDigits val, fun stale vga => vgaPrintHex_digits stale vga val,
      fun stale serial => serialPrintHex_digits stale serial val, hexDigits_head, parse_hexDigits val⟩,
    ⟨decimalDigits val, fun stale vga => vgaPrintUint_digits stale vga val, parse_decimalDigits val⟩,
    ⟨signedDigits val, fun stale vga => vgaPrintInt_digits stale vga val,
      fun stale serial => serialPrintInt_digits stale serial val, parse_signedDigits val⟩⟩

end CustomKernel
