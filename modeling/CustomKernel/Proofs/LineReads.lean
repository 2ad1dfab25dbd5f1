/-
Module: CustomKernel.Proofs.LineReads
Layer: Proofs
Purpose: What `sys_read` delivers to a sole reader. The call may be asleep any number of times on its
  way; as long as it finds its return address and its locals again, the characters it has and those
  in the buffer are, in order, what was buffered when it was called and what the keyboard has
  accepted since. `context_switch` keeps the locals for no process, and a call that finds others
  returns something else.
Imports: CustomKernel.Proofs.KeyWakeup
Trusted boundary: as in KeyWakeup; nothing but the call itself writes to its buffer
Main exports: acceptedKey, lineLength, ReadCall.Holds, sysReadLoop_line, LineStep, LineInv,
  line_read, line_read_loses_place
-/
import CustomKernel.Proofs.KeyWakeup

namespace CustomKernel

open RingBuffer ByteMemory StepSystem Scheduler

/-! ### Accepted characters -/

/-- The character that a keyboard interrupt puts into the buffer: that of a pressed key, if it has one
    and there is room. -/
def acceptedKey (kb : Keyboard) (sc scancode : BitVec 8) : List (BitVec 8) :=
  if sc &&& 0x80 = 0 ∧ scancode.toNat < 128 ∧ scancodeTable.getD scancode.toNat 0 ≠ 0 ∧
      kb.chars.contents.length < 63 then
    [scancodeTable.getD scancode.toNat 0]
  else []

/-- The interrupt appends it to the buffer. -/
theorem keyboardHandler_contents (kb : Keyboard) (sc scancode : BitVec 8) :
    (keyboardHandler kb sc scancode).1.chars.contents =
      kb.chars.contents ++ acceptedKey kb sc scancode := by
  unfold keyboardHandler acceptedKey
  dsimp only
  by_cases hpress : sc &&& 0x80 = 0
  · rw [if_neg (not_not.2 hpress)]
    by_cases hlt : scancode.toNat < 128
    · rw [if_pos hlt]
      by_cases hchar : scancodeTable.getD scancode.toNat 0 = 0
      · rw [if_neg (not_not.2 hchar), if_neg (fun h => h.2.2.1 hchar), List.append_nil]
      · rw [if_pos hchar]
        show (kb.chars.push _).contents = _
        rw [Ring.contents_push, offer, show kbBufferSize - 1 = 63 from rfl]
        by_cases hroom : kb.chars.contents.length < 63
        · rw [if_pos hroom, if_pos ⟨hpress, hlt, hchar, hroom⟩]
        · rw [if_neg hroom, if_neg (fun h => hroom h.2.2.2), List.append_nil]
    · rw [if_neg hlt, if_neg (fun h => hlt h.2.1), List.append_nil]
  · rw [if_pos hpress, if_neg (fun h => hpress h.1), List.append_nil]

/-- What an action adds to the buffer. -/
def KeySystem.accepted (k : KeySystem) : KeyAction → List (BitVec 8)
  | .key sc scancode => acceptedKey k.kb sc scancode
  | .sched _ | .read _ _ | .runRead | .leave | .getkey | .getRawKey => []

/-! ### The loop of `sys_read` -/

/-- The `n` bytes from an address on. -/
def bytesAt (mem : ByteMem) (buf : Word) (n : Nat) : List (BitVec 8) :=
  (List.range n).map fun j => mem (buf + BitVec.ofNat 64 j).toNat

/-- How much of what comes in a read of `len` characters takes: up to the first line feed, that
    included, but no more than `len`. -/
def lineLength (len : Nat) (stream : List (BitVec 8)) : Nat :=
  min len (stream.findIdx (· = 10) + 1)

/-- A call before its next character: it has stored the beginning of the stream, without a line feed
    and short of the length, and the rest is in the keyboard buffer. -/
structure ReadCall.Holds (call : ReadCall) (buf len : Word) (mem : ByteMem)
    (stream buffer : List (BitVec 8)) : Prop where
  buf_eq : call.buf = buf
  len_eq : call.len = len
  short : call.i.toNat < len.toNat
  noLine : 10 ∉ bytesAt mem buf call.i.toNat
  split : bytesAt mem buf call.i.toNat ++ buffer = stream

/-- What the loop comes to from there. -/
def LineEnds (buf len : Word) (mem : ByteMem) (stream buffer : List (BitVec 8)) :
    ReadOutcome → Prop
  | .returned value => value.toNat = lineLength len.toNat stream ∧
      bytesAt mem buf value.toNat = stream.take value.toNat ∧ buffer = stream.drop value.toNat ∧
      value.toNat ≤ stream.length
  | .waiting call => call.Holds buf len mem stream buffer

section Loop

variable {buf len : Word} {stream : List (BitVec 8)}

theorem bytesAt_length (mem : ByteMem) (buf : Word) (n : Nat) : (bytesAt mem buf n).length = n := by
  rw [bytesAt, List.length_map, List.length_range]

/-- Storing the next byte puts it behind those in place. -/
theorem bytesAt_stored (mem : ByteMem) (buf i : Word) (c : BitVec 8) :
    bytesAt (Function.update mem (buf + i).toNat c) buf (i.toNat + 1) =
      bytesAt mem buf i.toNat ++ [c] := by
  have hlast : buf + BitVec.ofNat 64 i.toNat = buf + i := by rw [BitVec.ofNat_toNat, BitVec.setWidth_eq]
  have hbefore : ∀ j ∈ List.range i.toNat,
      Function.update mem (buf + i).toNat c (buf + BitVec.ofNat 64 j).toNat =
        mem (buf + BitVec.ofNat 64 j).toNat := by
    intro j hj
    have hlt := List.mem_range.1 hj
    refine Function.update_of_ne (fun h => ?_) ..
    bv_omega
  rw [bytesAt, List.range_succ, List.map_append, List.map_singleton, hlast, Function.update_self,
    List.map_congr_left hbefore, bytesAt]

theorem findIdx_noLine {data : List (BitVec 8)} (hline : 10 ∉ data) :
    data.findIdx (· = 10) = data.length := by
  refine List.findIdx_eq_length.2 fun c hc => decide_eq_false ?_
  rintro rfl
  exact hline hc

/-- The characters without the line feed have been taken in full length. -/
theorem lineLength_full {data buffer : List (BitVec 8)} (hlen : data.length = len.toNat)
    (hline : 10 ∉ data) : lineLength len.toNat (data ++ buffer) = len.toNat := by
  have hidx := findIdx_noLine hline
  rw [lineLength, List.findIdx_append, if_neg (by omega)]
  omega

/-- The line feed has been found. -/
theorem lineLength_line {data buffer : List (BitVec 8)} (hlen : data.length < len.toNat)
    (hline : 10 ∉ data) : lineLength len.toNat (data ++ 10 :: buffer) = data.length + 1 := by
  have hidx := findIdx_noLine hline
  have hhead : (10 :: buffer : List (BitVec 8)).findIdx (· = 10) = 0 := by
    rw [List.findIdx_cons]
    rfl
  rw [lineLength, List.findIdx_append, if_neg (by omega), hhead]
  omega

/-- The call returns with what it has stored. -/
theorem lineEnds_returned {mem : ByteMem} {buffer : List (BitVec 8)} {value : Word}
    (hvalue : value.toNat = lineLength len.toNat stream)
    (hstream : bytesAt mem buf value.toNat ++ buffer = stream) :
    LineEnds buf len mem stream buffer (.returned value) := by
  have hlength := bytesAt_length mem buf value.toNat
  refine ⟨hvalue, ?_, ?_, ?_⟩
  · rw [← hstream, List.take_left' hlength]
  · rw [← hstream, List.drop_left' hlength]
  · rw [← hstream, List.length_append, hlength]
    exact Nat.le_add_right _ _

/-- The loop returns with a line, or waits with the beginning of one. -/
theorem sysReadLoop_line : ∀ (budget : Nat) (kb kb' : Keyboard) (mem mem' : ByteMem) (call : ReadCall)
    (outcome : ReadOutcome), call.Holds buf len mem stream kb.chars.contents →
    sysReadLoop budget kb mem call = some (kb', mem', outcome) →
      LineEnds buf len mem' stream kb'.chars.contents outcome
  | 0, _, _, _, _, _, _, _, hloop => by cases hloop
  | budget + 1, kb, kb', mem, mem', call, outcome, hholds, hloop => by
      obtain ⟨hbuf, hlen, hshort, hline, hsplit⟩ := hholds
      rw [sysReadLoop, hbuf, hlen] at hloop
      by_cases hchar : keyboardHasChar kb
      · have hitem : kb.chars.HasItem := hchar
        rw [if_pos hchar, keyboardGetchar, if_pos hitem] at hloop
        rw [Ring.contents_eq_cons hitem] at hsplit
        dsimp only at hloop
        have hnext : (call.i + 1).toNat = call.i.toNat + 1 := by bv_omega
        have hstored := bytesAt_stored mem buf call.i kb.chars.front
        have htaken : bytesAt (Function.update mem (buf + call.i).toNat kb.chars.front) buf
            (call.i.toNat + 1) ++ kb.chars.drop.contents = stream := by
          rw [hstored, List.append_assoc, List.singleton_append, hsplit]
        have hcount := bytesAt_length mem buf call.i.toNat
        by_cases hten : kb.chars.front = 10
        · -- the line ends here
          rw [if_pos hten] at hloop
          cases hloop
          refine lineEnds_returned ?_ (by rw [hnext]; exact htaken)
          rw [hnext, ← hsplit, hten, lineLength_line (hcount.symm ▸ hshort) hline, hcount]
        · have hnone : 10 ∉ bytesAt (Function.update mem (buf + call.i).toNat kb.chars.front) buf
              (call.i.toNat + 1) := by
            rw [hstored]
            intro hmem
            rcases List.mem_append.1 hmem with hold | hnew
            · exact hline hold
            · exact hten (List.mem_singleton.1 hnew).symm
          rw [if_neg hten] at hloop
          by_cases hmore : call.i + 1 < len
          · rw [if_pos hmore] at hloop
            refine sysReadLoop_line budget { kb with chars := kb.chars.drop } kb' _ mem' _ outcome ?_
              hloop
            have hless : call.i.toNat + 1 < len.toNat := hnext ▸ hmore
            exact ⟨rfl, rfl, by rw [hnext]; exact hless, by rw [hnext]; exact hnone,
              by rw [hnext]; exact htaken⟩
          · -- the buffer of the caller is full
            rw [if_neg hmore] at hloop
            cases hloop
            have hfull : call.i.toNat + 1 = len.toNat := by
              have hge : ¬ (call.i + 1).toNat < len.toNat := hmore
              omega
            rw [hfull] at htaken hnone
            refine lineEnds_returned ?_ htaken
            rw [← htaken, lineLength_full (bytesAt_length _ _ _) hnone]
      · rw [if_neg hchar] at hloop
        cases hloop
        exact ⟨hbuf, hlen, hshort, hline, hsplit⟩

end Loop

/-! ### Runs with one reader -/

/-- Whoever is resumed inside a system call finds its return address, and one inside `sys_read` its
    registers too. -/
def KeySystem.CallKept (code : ReadCode) (k : KeySystem) (a : KeyAction) : Prop :=
  k.ReturnKept code a ∧
    (a = .runRead → ∀ regs, k.reading k.sched.current = some (.waiting regs) → k.regs = regs)

/-- It goes on where it was then. -/
theorem KeySystem.resumed_of_callKept {code : ReadCode} {k : KeySystem}
    (kept : k.CallKept code .runRead) {reader : Reading}
    (hreader : k.reading k.sched.current = some reader) :
    k.resumed code reader = some (reader.call code) := by
  cases reader with
  | entered call => rfl
  | waiting regs =>
      rw [resumed, if_pos (kept.1 regs hreader), kept.2 rfl regs hreader, Reading.call]

/-- An action of a system with a reader under way, where nobody else takes characters: no other
    `sys_read` and no `sys_getkey`. The list collects what the keyboard accepts. -/
def LineStep (code : ReadCode) (now : KeySystem × List (BitVec 8)) (a : KeyAction)
    (next : KeySystem × List (BitVec 8)) : Prop :=
  (∀ buf len, a ≠ .read buf len) ∧ a ≠ .getkey ∧ now.1.Step code a next.1 ∧
    next.2 = now.2 ++ now.1.accepted a

/-- Nobody but `p` is inside `sys_read`, and what it has stored and what is buffered is the stream:
    what was buffered at its call, and what has been accepted since. -/
def LineInv (code : ReadCode) (p : Nat) (buf len : Word) (buffered : List (BitVec 8))
    (now : KeySystem × List (BitVec 8)) : Prop :=
  ∀ q reader, now.1.reading q = some reader → q = p ∧
    (reader.call code).Holds buf len (now.1.memory q) (buffered ++ now.2) now.1.kb.chars.contents

section Runs

variable {code : ReadCode} {p : Nat} {buf len : Word} {buffered : List (BitVec 8)}
  {now next : KeySystem × List (BitVec 8)}

/-- Actions that leave the calls alone: what is accepted goes into the buffer. -/
theorem LineInv.accept (inv : LineInv code p buf len buffered now)
    (hreading : next.1.reading = now.1.reading)
    (hcurrent : now.1.reading now.1.sched.current = none) (hothers : now.1.OthersKept next.1)
    {more : List (BitVec 8)} (hmore : next.2 = now.2 ++ more)
    (hchars : next.1.kb.chars.contents = now.1.kb.chars.contents ++ more) :
    LineInv code p buf len buffered next := by
  intro q reader hreader
  rw [hreading] at hreader
  obtain ⟨hq, hbuf, hlen, hshort, hline, hsplit⟩ := inv q reader hreader
  have hmemory : next.1.memory q = now.1.memory q := by
    refine hothers q fun h => ?_
    rw [h, hcurrent] at hreader
    cases hreader
  rw [hmemory]
  refine ⟨hq, hbuf, hlen, hshort, hline, ?_⟩
  rw [hchars, hmore, ← List.append_assoc, hsplit, List.append_assoc]

/-- The reader runs. -/
theorem LineInv.runRead (inv : LineInv code p buf len buffered now)
    (kept : now.1.CallKept code .runRead) (hstep : now.1.Step code .runRead next.1)
    (hsame : next.2 = now.2) : LineInv code p buf len buffered next := by
  obtain ⟨reader, hreader, hcontinues, -⟩ := hstep
  rw [KeySystem.resumed_of_callKept kept hreader] at hcontinues
  obtain ⟨outcome, hrests, hrun⟩ := hcontinues
  obtain ⟨hp, hholds⟩ := inv _ reader hreader
  have hends := sysReadLoop_line _ _ _ _ _ _ _ hholds hrun
  intro q reader' hreader'
  cases outcome with
  | returned value =>
      obtain ⟨-, hreading⟩ := hrests
      rw [hreading, hp] at hreader'
      by_cases hq : q = p
      · rw [hq, Function.update_self] at hreader'
        cases hreader'
      · rw [Function.update_of_ne hq] at hreader'
        exact absurd (inv q reader' hreader').1 hq
  | waiting call =>
      obtain ⟨-, -, regs, hregs, hreading⟩ := hrests
      rw [hreading, hp] at hreader'
      by_cases hq : q = p
      · rw [hq, Function.update_self] at hreader'
        cases hreader'
        rw [hsame, Reading.call, hregs, hq, ← hp]
        exact ⟨rfl, hends⟩
      · rw [Function.update_of_ne hq] at hreader'
        exact absurd (inv q reader' hreader').1 hq

/-- Every action keeps the invariant. -/
theorem LineInv.step (inv : LineInv code p buf len buffered now) {a : KeyAction}
    (kept : now.1.CallKept code a) (step : LineStep code now a next) :
    LineInv code p buf len buffered next := by
  obtain ⟨hread, hgetkey, hstep, haccepted⟩ := step
  cases a with
  | sched event =>
      obtain ⟨settled, -, -, -, hkb, hreading, -, hothers, -⟩ := hstep
      exact inv.accept hreading settled.1 hothers haccepted
        (by rw [hkb, KeySystem.accepted, List.append_nil])
  | key sc scancode =>
      obtain ⟨settled, hkb, -, hreading, -, hothers, -⟩ := hstep
      exact inv.accept hreading settled.1 hothers haccepted
        (by rw [hkb, keyboardHandler_contents]; rfl)
  | read buf len => exact absurd rfl (hread buf len)
  | getkey => exact absurd rfl hgetkey
  | getRawKey =>
      obtain ⟨settled, -, -, hkb, hreading, -, hothers, -⟩ := hstep
      exact inv.accept hreading settled.1 hothers haccepted
        (by rw [hkb, keyboardGetEvent_chars, KeySystem.accepted, List.append_nil])
  | leave =>
      obtain ⟨hcurrent, -, -, hkb, hreading, -, hothers, -⟩ := hstep
      exact inv.accept hreading hcurrent hothers haccepted
        (by rw [hkb, KeySystem.accepted, List.append_nil])
  | runRead =>
      exact inv.runRead kept hstep (by rw [haccepted, KeySystem.accepted, List.append_nil])

end Runs

/-- A process calls `sys_read` for `len` characters while nobody else reads. Whatever interrupts, ticks
    and calls of other processes come before it returns, if whoever is resumed inside a system call
    finds its return address there, and the reader its registers: it returns a line, or `len`
    characters if there is none so early, off the front of what was buffered and what has been
    accepted since, and the rest of that is what is left in the buffer. -/
theorem line_read (code : ReadCode) (k k' : KeySystem) (buf len : Word) (actions : List KeyAction)
    (now : KeySystem × List (BitVec 8)) (reader : Reading) (call : ReadCall) (kb : Keyboard)
    (mem : ByteMem) (value : Word) (hbuf : buf ≠ 0) (hlen : len ≠ 0)
    (hsole : ∀ q, k.reading q = none) (hcall : k.Step code (.read buf len) k')
    (run : Run (Guarded (fun now => now.1.CallKept code) (LineStep code)) (k', []) actions now)
    (hreads : now.1.reading now.1.sched.current = some reader)
    (hkept : now.1.CallKept code .runRead) (hresumed : now.1.resumed code reader = some call)
    (hreturns : sysReadRun now.1.kb (now.1.memory now.1.sched.current) call =
      some (kb, mem, .returned value)) :
    now.1.sched.current = k.sched.current ∧
      value.toNat = lineLength len.toNat (k.kb.chars.contents ++ now.2) ∧
      value.toNat ≤ (k.kb.chars.contents ++ now.2).length ∧
      bytesAt mem buf value.toNat = (k.kb.chars.contents ++ now.2).take value.toNat ∧
      kb.chars.contents = (k.kb.chars.contents ++ now.2).drop value.toNat := by
  obtain ⟨-, -, -, hkb, -, -, -, hreading⟩ := hcall
  have hpos : 0 < len.toNat := Nat.pos_of_ne_zero fun h => hlen (BitVec.eq_of_toNat_eq h)
  have hstart : LineInv code k.sched.current buf len k.kb.chars.contents (k', []) := by
    intro q reader hq
    dsimp only at hq ⊢
    rw [hreading, sysReadEnter, if_neg (fun h => h.elim hbuf hlen)] at hq
    by_cases hcurrent : q = k.sched.current
    · rw [hcurrent, Function.update_self] at hq
      cases hq
      refine ⟨hcurrent, rfl, rfl, hpos, List.not_mem_nil, ?_⟩
      rw [hkb, List.append_nil]
      rfl
    · rw [Function.update_of_ne hcurrent, hsole q] at hq
      cases hq
  have inv := run.invariant (LineInv code k.sched.current buf len k.kb.chars.contents)
    (fun _ _ _ inv step => inv.step step.1 step.2) hstart
  obtain ⟨hcurrent, hholds⟩ := inv _ reader hreads
  rw [KeySystem.resumed_of_callKept hkept hreads] at hresumed
  cases hresumed
  obtain ⟨hvalue, hdata, hrest, hle⟩ := sysReadLoop_line _ _ _ _ _ _ _ hholds hreturns
  exact ⟨hcurrent, hvalue, hle, hdata, hrest⟩

/-! ### A line in two keys -/

/-- Process 2 has called `sys_read` for five characters. -/
def asksForLine : KeySystem :=
  { KeySystem.start twoAdded Keyboard.empty zeroRegs (fun _ => 0) (fun _ _ => 0) with
    reading := Function.update (fun _ => none) 2
      (some (.entered { buf := 0x8000200000, len := 5 })) }

/-- The scheduler after it has gone to sleep, after two keys, and after two ticks. -/
def readerAsleep : Scheduler := twoAdded.schedulerStart.sysReadBlock.getD blankBoot

def lineWoken : Scheduler := readerAsleep.schedulerWakeKeyWaiter.getD blankBoot

def lineTyped : Scheduler := lineWoken.schedulerWakeKeyWaiter.getD blankBoot

def lineIdle : Scheduler := lineTyped.timerHandler.getD blankBoot

def lineCurrent : Scheduler := lineIdle.timerHandler.getD blankBoot

/-- It sleeps. What runs next will leave `regs` in the registers. -/
def lineAsleep (regs : CalleeSaved) : KeySystem :=
  { asksForLine with
    sched := readerAsleep
    regs := regs
    stack := stackWith compiledRead.resume
    reading := Function.update (fun _ => none) 2 (some (.waiting (askedFor 5))) }

/-- The keys A and Enter are pressed, the timer ticks twice, and it is current again. -/
def lineReady (regs : CalleeSaved) : KeySystem :=
  ((((lineAsleep regs).typed 0x1E lineWoken).typed 0x1C lineTyped).ticked lineIdle).ticked lineCurrent

theorem line_sched :
    twoAdded.schedulerStart.EventStep .read readerAsleep ∧ readerAsleep.EventStep .key lineWoken ∧
      lineWoken.EventStep .key lineTyped ∧ lineTyped.EventStep .timer lineIdle ∧
      lineIdle.EventStep .timer lineCurrent :=
  ⟨⟨by decide +kernel, eq_some_getD (by decide +kernel) _⟩,
    eq_some_getD (by decide +kernel) _, eq_some_getD (by decide +kernel) _,
    eq_some_getD (by decide +kernel) _, eq_some_getD (by decide +kernel) _⟩

theorem line_currents :
    twoAdded.schedulerStart.current = 2 ∧ readerAsleep.current = 3 ∧ lineWoken.current = 3 ∧
      lineTyped.current = 3 ∧ lineIdle.current = 1 ∧ lineCurrent.current = 2 := by
  decide +kernel

-- the runs below only use what has been said of these
attribute [irreducible] readerAsleep lineWoken lineTyped lineIdle lineCurrent

theorem asksForLine_step :
    (KeySystem.start twoAdded Keyboard.empty zeroRegs (fun _ => 0) (fun _ _ => 0)).Step compiledRead
      (.read 0x8000200000 5) asksForLine :=
  ⟨⟨rfl, rfl⟩, by decide +kernel, rfl, rfl, rfl, rfl, rfl, rfl⟩

theorem lineAsleep_step (regs : CalleeSaved) :
    asksForLine.Step compiledRead .runRead (lineAsleep regs) := by
  have hcurrent : asksForLine.sched.current = 2 := line_currents.1
  refine ⟨.entered { buf := 0x8000200000, len := 5 }, by rw [hcurrent]; rfl,
    ⟨.waiting { buf := 0x8000200000, len := 5 }, ⟨line_sched.1, ?_, askedFor 5, rfl, ?_⟩, rfl⟩,
    fun _ _ => rfl, rfl, rfl⟩
  · exact loadWord_storeWord_self _ _ _
  · rw [hcurrent]
    exact (Function.update_idem ..).symm

/-- Whoever has the processor while process 2 sleeps is outside of system calls. -/
theorem line_settled {k : KeySystem} (regs : CalleeSaved)
    (hreading : k.reading = (lineAsleep regs).reading) (hpaused : k.paused = fun _ => none)
    (hcurrent : k.sched.current = 3 ∨ k.sched.current = 1) : k.Settled := by
  rw [KeySystem.Settled, hreading, hpaused]
  rcases hcurrent with h | h <;> rw [h] <;> exact ⟨rfl, rfl⟩

/-- The run up to the return of `sys_read`. Nothing touches the system call stack. -/
theorem lineReady_run (regs : CalleeSaved) :
    Run (Guarded (fun now => now.1.CallKept compiledRead) (LineStep compiledRead)) (asksForLine, [])
      [.runRead, .key 0x1E 0x1E, .key 0x1C 0x1C, .sched .timer, .sched .timer]
      (lineReady regs, [97, 10]) := by
  obtain ⟨-, hfirst, hsecond, htick, hback⟩ := line_sched
  obtain ⟨htwo, hthree, hwoken, htyped, hidle, -⟩ := line_currents
  have hentered : asksForLine.CallKept compiledRead .runRead := by
    have hreading : ∀ waiting, asksForLine.reading asksForLine.sched.current ≠
        some (.waiting waiting) := by
      intro waiting
      rw [show asksForLine.sched.current = 2 from htwo]
      exact fun h => by cases h
    exact ⟨fun waiting h => absurd h (hreading waiting), fun _ waiting h => absurd h (hreading waiting)⟩
  have hcalls : (keyboardHandler Keyboard.empty 0x1E 0x1E).2 = true ∧
      (keyboardHandler (keyboardHandler Keyboard.empty 0x1E 0x1E).1 0x1C 0x1C).2 = true := by
    decide +kernel
  have haccepted : acceptedKey Keyboard.empty 0x1E 0x1E = [97] ∧
      acceptedKey (keyboardHandler Keyboard.empty 0x1E 0x1E).1 0x1C 0x1C = [10] := by
    decide +kernel
  have hkeys := KeySystem.typed_step (k := lineAsleep regs) compiledRead 0x1E
    (line_settled regs rfl rfl (.inl hthree)) hcalls.1 hfirst
  have henter := KeySystem.typed_step (k := (lineAsleep regs).typed 0x1E lineWoken) compiledRead 0x1C
    (line_settled regs rfl rfl (.inl hwoken)) hcalls.2 hsecond
  have hticked := KeySystem.ticked_step
    (k := ((lineAsleep regs).typed 0x1E lineWoken).typed 0x1C lineTyped) compiledRead
    (line_settled regs rfl rfl (.inl htyped)) htick
  have hresumed := KeySystem.ticked_step
    (k := (((lineAsleep regs).typed 0x1E lineWoken).typed 0x1C lineTyped).ticked lineIdle)
    compiledRead (line_settled regs rfl rfl (.inr hidle)) hback
  have htwoKeys : [97, 10] = [97] ++ ((lineAsleep regs).typed 0x1E lineWoken).accepted
      (.key 0x1C 0x1C) := congrArg ([97] ++ ·) haccepted.2.symm
  exact .cons (t := (lineAsleep regs, [])) ⟨hentered, by simp, by simp, lineAsleep_step regs, rfl⟩
    (.cons (t := ((lineAsleep regs).typed 0x1E lineWoken, [97]))
      ⟨⟨trivial, by simp⟩, by simp, by simp, hkeys, haccepted.1.symm⟩
      (.cons (t := (((lineAsleep regs).typed 0x1E lineWoken).typed 0x1C lineTyped, [97, 10]))
        ⟨⟨trivial, by simp⟩, by simp, by simp, henter, htwoKeys⟩
        (.cons (t := ((((lineAsleep regs).typed 0x1E lineWoken).typed 0x1C lineTyped).ticked lineIdle,
            [97, 10])) ⟨⟨trivial, by simp⟩, by simp, by simp, hticked, rfl⟩
          (.single ⟨⟨trivial, by simp⟩, by simp, by simp, hresumed, rfl⟩))))

/-- The process inside `sys_read` finds its return address. -/
theorem lineReady_resumed (regs : CalleeSaved) :
    (lineReady regs).reading (lineReady regs).sched.current = some (.waiting (askedFor 5)) ∧
      loadWord (lineReady regs).stack compiledRead.slot = compiledRead.resume ∧
      (lineReady regs).resumed compiledRead (.waiting (askedFor 5)) =
        some (compiledRead.locals regs) := by
  have hcurrent : (lineReady regs).sched.current = 2 := line_currents.2.2.2.2.2
  have hslot : loadWord (lineReady regs).stack compiledRead.slot = compiledRead.resume :=
    loadWord_storeWord_self _ _ _
  refine ⟨by rw [hcurrent]; rfl, hslot, ?_⟩
  rw [KeySystem.resumed, if_pos hslot]
  rfl

/-- With its own registers it returns the two characters. -/
theorem line_read_two_keys : ∃ kb mem value,
    sysReadRun (lineReady (askedFor 5)).kb ((lineReady (askedFor 5)).memory 2)
      (compiledRead.locals (askedFor 5)) = some (kb, mem, .returned value) ∧ value = 2 ∧
      bytesAt mem 0x8000200000 2 = [97, 10] ∧ kb.chars.contents = [] := by
  obtain ⟨hreads, hslot, hresumed⟩ := lineReady_resumed (askedFor 5)
  have hcurrent : (lineReady (askedFor 5)).sched.current = 2 := line_currents.2.2.2.2.2
  have hkept : (lineReady (askedFor 5)).CallKept compiledRead .runRead := by
    refine ⟨fun _ _ => hslot, fun _ regs hregs => ?_⟩
    rw [hreads] at hregs
    cases hregs
    rfl
  obtain ⟨kb, mem, value, hreturns, hvalue⟩ : ∃ kb mem value,
      sysReadRun (lineReady (askedFor 5)).kb ((lineReady (askedFor 5)).memory 2)
        (compiledRead.locals (askedFor 5)) = some (kb, mem, .returned value) ∧ value = 2 :=
    ⟨_, _, _, rfl, rfl⟩
  have h := line_read compiledRead _ asksForLine 0x8000200000 5 _
    (lineReady (askedFor 5), [97, 10]) _ _ kb mem value (by decide) (by decide) (fun _ => rfl)
    asksForLine_step (lineReady_run (askedFor 5)) hreads hkept hresumed
    (by rw [hcurrent]; exact hreturns)
  obtain ⟨-, -, -, hdata, hrest⟩ := h
  rw [hvalue] at hdata hrest
  exact ⟨kb, mem, value, hreturns, hvalue, hdata, hrest⟩

/-- With the zeros that process 3 has left in the registers it stores the first character at address 0
    and returns 0, where it should return 2; the line feed stays in the buffer. -/
theorem line_read_loses_place : ∃ kb mem,
    (KeySystem.start twoAdded Keyboard.empty zeroRegs (fun _ => 0) (fun _ _ => 0)).Step compiledRead
      (.read 0x8000200000 5) asksForLine ∧
    Run (LineStep compiledRead) (asksForLine, [])
      [.runRead, .key 0x1E 0x1E, .key 0x1C 0x1C, .sched .timer, .sched .timer]
      (lineReady zeroRegs, [97, 10]) ∧
    (lineReady zeroRegs).resumed compiledRead (.waiting (askedFor 5)) = some ⟨0, 0, 0⟩ ∧
    sysReadRun (lineReady zeroRegs).kb ((lineReady zeroRegs).memory 2) ⟨0, 0, 0⟩ =
      some (kb, mem, .returned 0) ∧
    (0 : Word).toNat ≠ lineLength 5 (Keyboard.empty.chars.contents ++ [97, 10]) ∧
    kb.chars.contents = [10] :=
  ⟨_, _, asksForLine_step, (lineReady_run zeroRegs).of_guarded, (lineReady_resumed zeroRegs).2.2,
    rfl, by decide +kernel, by decide +kernel⟩

end CustomKernel
