/-
Module: CustomKernel.Drivers.Keyboard
Layer: Drivers
Purpose: The keyboard driver `src/drivers/keyboard.c` and the two system calls that take characters
  from it, `sys_read` and `sys_getkey` of `src/syscall/syscall.c`. What `vga_putchar` shows and the
  end-of-interrupt are left out.
Imports: CustomKernel.Process.Process, CustomKernel.Library.RingBuffer,
  CustomKernel.Library.ByteMemory
Trusted boundary: the translation of the source; the buffer of `sys_read` is apart from those of the
  driver
Main exports: Keyboard, keyboardHandler, KeyPort, keyboardInterrupt, keyboardHasChar,
  keyboardGetchar, keyboardGetEvent, sysGetkey, ReadCall, sysReadLoop, sysReadRun
-/
import CustomKernel.Process.Process
import CustomKernel.Library.RingBuffer
import CustomKernel.Library.ByteMemory

namespace CustomKernel

open RingBuffer ByteMemory

/-- `key_event_t`. -/
structure KeyEvent where
  scancode : BitVec 8 := 0
  pressed : Bool := false
deriving DecidableEq, Repr, Inhabited

/-- `KB_BUFFER_SIZE`. -/
abbrev kbBufferSize : Nat := 64

/-- `KB_EVENT_BUF`. -/
abbrev kbEventBuf : Nat := 32

/-- The two buffers of the driver: `kb_buf` with `kb_read_pos` and `kb_write_pos`, `key_events` with
    `event_head` and `event_tail`. -/
structure Keyboard where
  chars : Ring (BitVec 8) kbBufferSize
  events : Ring KeyEvent kbEventBuf

/-- The static initial state. -/
def Keyboard.empty : Keyboard where
  chars := ⟨fun _ => 0, 0, 0, by decide, by decide⟩
  events := ⟨fun _ => {}, 0, 0, by decide, by decide⟩

/-- `scancode_table`, as ASCII codes; the entries behind the listed ones are 0. -/
def scancodeTable : List (BitVec 8) :=
  [0, 0, 49, 50, 51, 52, 53, 54, 55, 56, 57, 48, 45, 61, 8,
    9, 113, 119, 101, 114, 116, 121, 117, 105, 111, 112, 91, 93, 10,
    0, 97, 115, 100, 102, 103, 104, 106, 107, 108, 59, 39, 96,
    0, 92, 122, 120, 99, 118, 98, 110, 109, 44, 46, 47, 0,
    42, 0, 32]

/-- `keyboard_handler`. The port is read twice, and the second read need not give the byte of the
    first. The flag tells whether `scheduler_wake_key_waiter` is called. -/
def keyboardHandler (kb : Keyboard) (sc scancode : BitVec 8) : Keyboard × Bool :=
  let kb := { kb with
    events := kb.events.push { pressed := sc &&& 0x80 = 0, scancode := sc &&& 0x7F } }
  if sc &&& 0x80 ≠ 0 then (kb, false)
  else if scancode.toNat < 128 then
    let c := scancodeTable.getD scancode.toNat 0
    -- a full buffer drops the character, and the waiter is woken all the same
    if c ≠ 0 then ({ kb with chars := kb.chars.push c }, true)
    else (kb, false)
  else (kb, false)

/-- The controller behind port 0x60: the bytes that have come from the keyboard and have not been read,
    and the last one read. -/
structure KeyPort where
  pending : List (BitVec 8) := []
  last : BitVec 8 := 0
deriving DecidableEq, Repr

/-- `inb(0x60)`: the oldest pending byte, or the last one again. -/
def KeyPort.inb (port : KeyPort) : BitVec 8 × KeyPort :=
  match port.pending with
  | [] => (port.last, port)
  | byte :: rest => (byte, { pending := rest, last := byte })

/-- `keyboard_handler` with its reads of the port. The bytes `meanwhile` arrive behind the first read,
    and a release is not read a second time. -/
def keyboardInterrupt (kb : Keyboard) (port : KeyPort) (meanwhile : List (BitVec 8)) :
    Keyboard × KeyPort :=
  let (sc, port) := port.inb
  let port := { port with pending := port.pending ++ meanwhile }
  if sc &&& 0x80 ≠ 0 then ((keyboardHandler kb sc sc).1, port)
  else
    let (scancode, port) := port.inb
    ((keyboardHandler kb sc scancode).1, port)

/-- `keyboard_has_char`. -/
def keyboardHasChar (kb : Keyboard) : Prop := kb.chars.HasItem

instance (kb : Keyboard) : Decidable (keyboardHasChar kb) :=
  inferInstanceAs (Decidable kb.chars.HasItem)

/-- `keyboard_getchar`. -/
def keyboardGetchar (kb : Keyboard) : BitVec 8 × Keyboard :=
  if kb.chars.HasItem then (kb.chars.front, { kb with chars := kb.chars.drop }) else (0, kb)

/-- `keyboard_get_event`. -/
def keyboardGetEvent (kb : Keyboard) : Option KeyEvent × Keyboard :=
  if kb.events.HasItem then (some kb.events.front, { kb with events := kb.events.drop })
  else (none, kb)

/-! ### System calls -/

/-- `sys_getkey`. -/
def sysGetkey (kb : Keyboard) : BitVec 8 × Keyboard :=
  if keyboardHasChar kb then keyboardGetchar kb else (0, kb)

/-- The locals of a `sys_read` under way. -/
structure ReadCall where
  buf : Word
  len : Word
  i : Word := 0
deriving DecidableEq, Repr

/-- Where `sys_read` comes to rest. -/
inductive ReadOutcome where
  | returned (value : Word)
  /-- At its call of `scheduler_tick`, with these locals. -/
  | waiting (call : ReadCall)
deriving DecidableEq, Repr

/-- The loop of `sys_read` from the test of the inner loop on, `while(!keyboard_has_char())`, which is
    also where the call of `scheduler_tick` returns to. It goes up to the return of `sys_read` or to
    its next wait. Every round takes a character from the buffer, so as many rounds as the buffer has
    slots are enough; the budget runs out behind them. `mem` is the memory of the caller. -/
def sysReadLoop : (budget : Nat) → Keyboard → ByteMem → ReadCall →
    Option (Keyboard × ByteMem × ReadOutcome)
  | 0, _, _, _ => none
  | budget + 1, kb, mem, call =>
      if keyboardHasChar kb then
        let (c, kb) := keyboardGetchar kb
        let mem := Function.update mem (call.buf + call.i).toNat c
        -- a line feed ends the line: `return i + 1`
        if c = 10 then some (kb, mem, .returned (call.i + 1))
        else if call.i + 1 < call.len then
          sysReadLoop budget kb mem { call with i := call.i + 1 }
        else some (kb, mem, .returned call.len)
      else some (kb, mem, .waiting call)

/-- `sys_read` from its first round, or from its return from `scheduler_tick`, up to its return or its
    next wait. -/
def sysReadRun (kb : Keyboard) (mem : ByteMem) (call : ReadCall) :
    Option (Keyboard × ByteMem × ReadOutcome) :=
  sysReadLoop (kbBufferSize + 1) kb mem call

/-- The checks at the head of `sys_read`, which let it into its first round, as `len` is not 0 there:
    the call to run, or `none` where -1 is returned. -/
def sysReadEnter (buf len : Word) : Option ReadCall :=
  if buf = 0 ∨ len = 0 then none else some { buf := buf, len := len }

end CustomKernel
