/-
Module: CustomKernel.Drivers.Numbers
Layer: Drivers
Purpose: The number printers at the end of `src/drivers/vga.c` and `src/drivers/serial.c`, with their
  local buffers. A printer has no result if an index leaves its buffer; `stale` is what the buffer
  holds before. Of the serial port, the bytes that are written to its data register are kept;
  `serial_wait` spins until the port is ready, which leaves nothing behind.
Imports: CustomKernel.Drivers.Vga, CustomKernel.Library.LocalArray
Trusted boundary: the translation of the source
Main exports: CharBuf, vgaPrintHex, vgaPrintUint, vgaPrintInt, Serial, serialPutchar, serialPrint,
  serialPrintHex, serialPrintInt
-/
import CustomKernel.Drivers.Vga
import CustomKernel.Library.LocalArray

namespace CustomKernel

/-- `char buf[size]`. -/
abbrev CharBuf (size : Nat) := LocalArray (BitVec 8) size

/-- `nibble < 10 ? '0' + nibble : 'A' + nibble - 10`. -/
def nibbleChar (nibble : BitVec 8) : BitVec 8 :=
  if nibble < 10 then 0x30 + nibble else 0x41 + nibble - 10

/-- `while(val > 0) { buf[i--] = '0' + (val % 10); val /= 10; }`, in `vga_print_uint` and
    `serial_print_int`. -/
def decimalLoop (val : BitVec 64) (buf : CharBuf 21) (i : Int) : Option (CharBuf 21 × Int) :=
  if _h : val = 0 then some (buf, i)
  else do
    let buf ← buf.store i ((0x30 + val % 10).setWidth 8)
    decimalLoop (val / 10) buf (i - 1)
termination_by val.toNat
decreasing_by
  have hne : val.toNat ≠ 0 := fun hzero => _h (BitVec.eq_of_toNat_eq hzero)
  have hten : (10 : BitVec 64).toNat = 10 := rfl
  rw [BitVec.toNat_udiv, hten]
  omega

/-! ### The text screen -/

/-- `while(val) { ...; buf[i++] = ...; val >>= 4; }`. -/
def vgaHexLoop (val : BitVec 64) (buf : CharBuf 17) (i : Int) : Option (CharBuf 17 × Int) :=
  if _h : val = 0 then some (buf, i)
  else do
    let buf ← buf.store i (nibbleChar ((val &&& 0xF).setWidth 8))
    vgaHexLoop (val >>> 4) buf (i + 1)
termination_by val.toNat
decreasing_by
  have hne : val.toNat ≠ 0 := fun hzero => _h (BitVec.eq_of_toNat_eq hzero)
  rw [BitVec.toNat_ushiftRight, Nat.shiftRight_eq_div_pow]
  omega

/-- `for (; j >= 0; j--) vga_putchar(buf[j]);`. -/
def vgaPutDown (buf : CharBuf 17) (vga : Vga) (j : Int) : Option Vga :=
  if 0 ≤ j then do
    let c ← buf.load j
    vgaPutDown buf (vgaPutchar vga c) (j - 1)
  else some vga
termination_by (j + 1).toNat

/-- `vga_print_hex`. -/
def vgaPrintHex (stale : CharBuf 17) (vga : Vga) (val : BitVec 64) : Option Vga :=
  let vga := vgaPrint vga [0x30, 0x78]
  if val = 0 then some (vgaPrint vga [0x30])
  else do
    let (buf, i) ← vgaHexLoop val stale 0
    vgaPutDown buf vga (i - 1)

/-- `vga_print_uint`. -/
def vgaPrintUint (stale : CharBuf 21) (vga : Vga) (val : BitVec 64) : Option Vga := do
  let buf ← stale.store 20 0
  if val = 0 then some (vgaPutchar vga 0x30)
  else do
    let (buf, i) ← decimalLoop val buf 19
    let str ← buf.string 0 (i + 1)
    some (vgaPrint vga str)

/-- `vga_print_int`. -/
def vgaPrintInt (stale : CharBuf 21) (vga : Vga) (val : BitVec 64) : Option Vga :=
  if val.slt 0 then vgaPrintUint stale (vgaPutchar vga 0x2D) (-val) else vgaPrintUint stale vga val

/-! ### The serial port -/

/-- The bytes sent so far. -/
structure Serial where
  sent : List (BitVec 8) := []
deriving DecidableEq, Repr

/-- `serial_putchar`. -/
def serialPutchar (serial : Serial) (c : BitVec 8) : Serial where
  sent := serial.sent ++ [c]

/-- `serial_print`, on the bytes from `str` on. The end of the list stands for a terminator. -/
def serialPrint (serial : Serial) : List (BitVec 8) → Serial
  | [] => serial
  | c :: str => if c = 0 then serial else serialPrint (serialPutchar serial c) str

/-- `for(; i >= 0; i--) { ...; buf[i] = ...; val >>= 4; }`. -/
def serialHexLoop (val : BitVec 64) (buf : CharBuf 17) (i : Int) : Option (CharBuf 17) :=
  if 0 ≤ i then do
    let buf ← buf.store i (nibbleChar ((val &&& 0xF).setWidth 8))
    serialHexLoop (val >>> 4) buf (i - 1)
  else some buf
termination_by (i + 1).toNat

/-- `while(*p == '0' && *(p+1) != '\0') p++;`. As long as `p` is in the buffer there are no more steps
    than the buffer is long. -/
def skipZeros (buf : CharBuf 17) : (budget : Nat) → (p : Int) → Option Int
  | 0, _ => none
  | budget + 1, p => do
      let c ← buf.load p
      if c = 0x30 then
        let next ← buf.load (p + 1)
        if next ≠ 0 then skipZeros buf budget (p + 1) else some p
      else some p

/-- `serial_print_hex`. -/
def serialPrintHex (stale : CharBuf 17) (serial : Serial) (val : BitVec 64) : Option Serial := do
  let buf ← stale.store 16 0
  let buf ← serialHexLoop val buf 15
  let p ← skipZeros buf 17 0
  let str ← buf.string 0 p
  some (serialPrint serial str)

/-- `serial_print_int` behind the sign. -/
def serialPrintUnsigned (stale : CharBuf 21) (serial : Serial) (val : BitVec 64) : Option Serial := do
  let buf ← stale.store 20 0
  if val = 0 then some (serialPutchar serial 0x30)
  else do
    let (buf, i) ← decimalLoop val buf 19
    let str ← buf.string 0 (i + 1)
    some (serialPrint serial str)

/-- `serial_print_int`. -/
def serialPrintInt (stale : CharBuf 21) (serial : Serial) (val : BitVec 64) : Option Serial :=
  let (serial, val) := if val.slt 0 then (serialPutchar serial 0x2D, -val) else (serial, val)
  serialPrintUnsigned stale serial val

end CustomKernel
