/-
Module: CustomKernel.Proofs.KeyQueues
Layer: Proofs
Purpose: The keyboard driver as two bounded queues. The ring buffers of the driver hold the items of
  a FIFO queue each, of at most 63 characters and 31 events; every call of the driver does to its
  buffers what the call of the specification does to the queues and returns the same. So over every
  sequence of calls what comes out is what was accepted, in order, up to what is still pending.
Imports: CustomKernel.Drivers.Keyboard
Trusted boundary: none (fully proved)
Main exports: KeyboardCall, Keyboard.run, KeyQueues, KeyQueues.run, Keyboard.call_refines,
  keyboard_refines_queues
-/
import CustomKernel.Drivers.Keyboard

namespace CustomKernel

open RingBuffer

/-! ### Calls of the driver -/

/-- An interrupt, where both reads of the port give the same byte, or a call of the driver. -/
inductive KeyboardCall where
  | interrupt (byte : BitVec 8)
  | getchar
  | hasChar
  | getEvent
deriving DecidableEq, Repr

/-- What a call gives back. -/
inductive KeyboardResult where
  | done
  | char (c : BitVec 8)
  | has (answer : Bool)
  | event (found : Option KeyEvent)
deriving DecidableEq, Repr

/-- One call. -/
def Keyboard.call (kb : Keyboard) : KeyboardCall → Keyboard × KeyboardResult
  | .interrupt byte => ((keyboardHandler kb byte byte).1, .done)
  | .getchar => ((keyboardGetchar kb).2, .char (keyboardGetchar kb).1)
  | .hasChar => (kb, .has (decide (keyboardHasChar kb)))
  | .getEvent => ((keyboardGetEvent kb).2, .event (keyboardGetEvent kb).1)

/-- A sequence of calls, with their results. -/
def Keyboard.run (kb : Keyboard) : List KeyboardCall → Keyboard × List KeyboardResult
  | [] => (kb, [])
  | call :: calls =>
      let (kb, result) := kb.call call
      let (kb, results) := kb.run calls
      (kb, result :: results)

/-- The characters a program got out of the driver; `keyboard_getchar` gives 0 for none. -/
def dequeuedChars (results : List KeyboardResult) : List (BitVec 8) :=
  results.filterMap fun
    | .char c => if c = 0 then none else some c
    | _ => none

/-- The events a program got out of the driver. -/
def dequeuedEvents (results : List KeyboardResult) : List KeyEvent :=
  results.filterMap fun
    | .event found => found
    | _ => none

/-! ### The specification -/

/-- The event a byte from the keyboard stands for: the high bit marks a release. -/
def eventOf (byte : BitVec 8) : KeyEvent where
  pressed := byte &&& 0x80 = 0
  scancode := byte &&& 0x7F

/-- The character a byte from the keyboard stands for: that of a pressed key, if it has one. -/
def charOf (byte : BitVec 8) : Option (BitVec 8) :=
  if byte &&& 0x80 = 0 ∧ scancodeTable.getD byte.toNat 0 ≠ 0 then
    some (scancodeTable.getD byte.toNat 0)
  else none

/-- The pending characters and events. -/
structure KeyQueues where
  chars : List (BitVec 8) := []
  events : List KeyEvent := []
deriving DecidableEq, Repr

/-- The character that a call adds to the queue. -/
def KeyQueues.acceptedChar (q : KeyQueues) : KeyboardCall → List (BitVec 8)
  | .interrupt byte => if q.chars.length < 63 then (charOf byte).toList else []
  | _ => []

/-- The event that a call adds to the queue. -/
def KeyQueues.acceptedEvent (q : KeyQueues) : KeyboardCall → List KeyEvent
  | .interrupt byte => if q.events.length < 31 then [eventOf byte] else []
  | _ => []

/-- One call on the queues: an interrupt appends what is accepted, the others take from the front. -/
def KeyQueues.call (q : KeyQueues) : KeyboardCall → KeyQueues × KeyboardResult
  | .interrupt byte =>
      ({ chars := q.chars ++ q.acceptedChar (.interrupt byte)
         events := q.events ++ q.acceptedEvent (.interrupt byte) }, .done)
  | .getchar => ({ q with chars := q.chars.tail }, .char (q.chars.headD 0))
  | .hasChar => (q, .has !q.chars.isEmpty)
  | .getEvent => ({ q with events := q.events.tail }, .event q.events.head?)

/-- A sequence of calls on the queues. -/
def KeyQueues.run (q : KeyQueues) : List KeyboardCall → KeyQueues × List KeyboardResult
  | [] => (q, [])
  | call :: calls =>
      let (q, result) := q.call call
      let (q, results) := q.run calls
      (q, result :: results)

/-- All characters accepted in a sequence of calls. -/
def KeyQueues.acceptedChars (q : KeyQueues) : List KeyboardCall → List (BitVec 8)
  | [] => []
  | call :: calls => q.acceptedChar call ++ (q.call call).1.acceptedChars calls

/-- All events accepted in a sequence of calls. -/
def KeyQueues.acceptedEvents (q : KeyQueues) : List KeyboardCall → List KeyEvent
  | [] => []
  | call :: calls => q.acceptedEvent call ++ (q.call call).1.acceptedEvents calls

/-! ### The driver refines the specification -/

/-- The queues that the buffers hold. -/
def Keyboard.queues (kb : Keyboard) : KeyQueues := ⟨kb.chars.contents, kb.events.contents⟩

theorem charOf_release {byte : BitVec 8} (h : byte &&& 0x80 ≠ 0) : charOf byte = none := by
  rw [charOf, if_neg (fun hpressed => h hpressed.1)]

/-- A byte with the high bit clear is an index of the table. -/
theorem press_lt : ∀ byte : BitVec 8, byte &&& 0x80 = 0 → byte.toNat < 128 := by decide

theorem offer_eq_append {α : Type*} (capacity : Nat) (queue : List α) (x : α) :
    offer capacity queue x = queue ++ if queue.length < capacity then [x] else [] := by
  unfold offer
  split
  · rfl
  · rw [List.append_nil]

/-- An interrupt writes the event, and the character if the byte stands for one. -/
theorem keyboardHandler_eq (kb : Keyboard) (byte : BitVec 8) :
    (keyboardHandler kb byte byte).1.events = kb.events.push (eventOf byte) ∧
      (keyboardHandler kb byte byte).1.chars = (match charOf byte with
        | none => kb.chars
        | some c => kb.chars.push c) := by
  unfold keyboardHandler charOf
  dsimp only
  by_cases hpress : byte &&& 0x80 = 0
  · rw [if_neg (not_not.2 hpress), if_pos (press_lt byte hpress)]
    by_cases hchar : scancodeTable.getD byte.toNat 0 = 0
    · rw [if_neg (not_not.2 hchar), if_neg (fun h => h.2 hchar)]
      exact ⟨rfl, rfl⟩
    · rw [if_pos hchar, if_pos ⟨hpress, hchar⟩]
      exact ⟨rfl, rfl⟩
  · rw [if_pos hpress, if_neg (fun h => hpress h.1)]
    exact ⟨rfl, rfl⟩

theorem Keyboard.interrupt_refines (kb : Keyboard) (byte : BitVec 8) :
    (keyboardHandler kb byte byte).1.queues = (kb.queues.call (.interrupt byte)).1 := by
  obtain ⟨hevents, hchars⟩ := keyboardHandler_eq kb byte
  have hcontents : (keyboardHandler kb byte byte).1.chars.contents =
      kb.chars.contents ++ kb.queues.acceptedChar (.interrupt byte) := by
    rw [hchars, KeyQueues.acceptedChar]
    cases charOf byte with
    | none => simp
    | some c =>
        dsimp only
        rw [Ring.contents_push, offer_eq_append]
        rfl
  rw [Keyboard.queues, hcontents, hevents, Ring.contents_push, offer_eq_append]
  rfl

/-- Every call does to the buffers what it does to the queues, and returns the same. -/
theorem Keyboard.call_refines (kb : Keyboard) (call : KeyboardCall) :
    (kb.call call).1.queues = (kb.queues.call call).1 ∧ (kb.call call).2 = (kb.queues.call call).2 := by
  cases call with
  | interrupt byte => exact ⟨kb.interrupt_refines byte, rfl⟩
  | getchar =>
      by_cases hitem : kb.chars.HasItem
      · simp [Keyboard.call, keyboardGetchar, hitem, Keyboard.queues, KeyQueues.call,
          Ring.contents_eq_cons hitem]
      · simp [Keyboard.call, keyboardGetchar, hitem, Keyboard.queues, KeyQueues.call,
          Ring.contents_eq_nil hitem]
  | hasChar =>
      by_cases hitem : kb.chars.HasItem
      · simp [Keyboard.call, keyboardHasChar, hitem, Keyboard.queues, KeyQueues.call,
          Ring.contents_eq_cons hitem]
      · simp [Keyboard.call, keyboardHasChar, hitem, Keyboard.queues, KeyQueues.call,
          Ring.contents_eq_nil hitem]
  | getEvent =>
      by_cases hitem : kb.events.HasItem
      · simp [Keyboard.call, keyboardGetEvent, hitem, Keyboard.queues, KeyQueues.call,
          Ring.contents_eq_cons hitem]
      · simp [Keyboard.call, keyboardGetEvent, hitem, Keyboard.queues, KeyQueues.call,
          Ring.contents_eq_nil hitem]

/-- So does every sequence of calls. -/
theorem Keyboard.run_refines : ∀ (calls : List KeyboardCall) (kb : Keyboard),
    (kb.run calls).1.queues = (kb.queues.run calls).1 ∧
      (kb.run calls).2 = (kb.queues.run calls).2
  | [], _ => ⟨rfl, rfl⟩
  | call :: calls, kb => by
      obtain ⟨hqueues, hresult⟩ := kb.call_refines call
      obtain ⟨hqueues', hresults⟩ := Keyboard.run_refines calls (kb.call call).1
      rw [hqueues] at hqueues' hresults
      refine ⟨hqueues', ?_⟩
      show (kb.call call).2 :: ((kb.call call).1.run calls).2 =
        (kb.queues.call call).2 :: ((kb.queues.call call).1.run calls).2
      rw [hresult, hresults]

/-! ### What comes out of the queues -/

/-- Every pending character is a real one. -/
def KeyQueues.Proper (q : KeyQueues) : Prop := ∀ c ∈ q.chars, c ≠ 0

theorem charOf_ne_zero {byte c : BitVec 8} (h : charOf byte = some c) : c ≠ 0 := by
  unfold charOf at h
  split at h
  · rename_i hpressed
    cases h
    exact hpressed.2
  · cases h

theorem KeyQueues.Proper.call {q : KeyQueues} (h : q.Proper) (call : KeyboardCall) :
    (q.call call).1.Proper := by
  cases call with
  | interrupt byte =>
      intro c hc
      rcases List.mem_append.1 hc with hold | hnew
      · exact h c hold
      · rw [KeyQueues.acceptedChar] at hnew
        by_cases hroom : q.chars.length < 63
        · rw [if_pos hroom] at hnew
          exact charOf_ne_zero (Option.mem_toList.1 hnew)
        · rw [if_neg hroom] at hnew
          cases hnew
  | getchar => exact fun c hc => h c (List.mem_of_mem_tail hc)
  | hasChar => exact h
  | getEvent => exact h

/-- One call: what it hands out was at the front, what it accepts goes to the back. -/
theorem KeyQueues.call_conserves {q : KeyQueues} (h : q.Proper) (call : KeyboardCall) :
    dequeuedChars [(q.call call).2] ++ (q.call call).1.chars = q.chars ++ q.acceptedChar call ∧
      dequeuedEvents [(q.call call).2] ++ (q.call call).1.events =
        q.events ++ q.acceptedEvent call := by
  cases call with
  | interrupt byte => exact ⟨rfl, rfl⟩
  | hasChar => simp [KeyQueues.call, KeyQueues.acceptedChar, KeyQueues.acceptedEvent, dequeuedChars,
      dequeuedEvents]
  | getchar =>
      obtain ⟨chars, events⟩ := q
      cases chars with
      | nil => simp [KeyQueues.call, KeyQueues.acceptedChar, KeyQueues.acceptedEvent, dequeuedChars,
          dequeuedEvents]
      | cons c rest =>
          have hc : c ≠ 0#8 := h c List.mem_cons_self
          simp [KeyQueues.call, KeyQueues.acceptedChar, KeyQueues.acceptedEvent, dequeuedChars,
            dequeuedEvents, hc]
  | getEvent =>
      obtain ⟨chars, events⟩ := q
      cases events with
      | nil => simp [KeyQueues.call, KeyQueues.acceptedChar, KeyQueues.acceptedEvent, dequeuedChars,
          dequeuedEvents]
      | cons e rest => simp [KeyQueues.call, KeyQueues.acceptedChar, KeyQueues.acceptedEvent,
          dequeuedChars, dequeuedEvents]

theorem dequeuedChars_cons (result : KeyboardResult) (results : List KeyboardResult) :
    dequeuedChars (result :: results) = dequeuedChars [result] ++ dequeuedChars results :=
  List.filterMap_append (l := [result])

theorem dequeuedEvents_cons (result : KeyboardResult) (results : List KeyboardResult) :
    dequeuedEvents (result :: results) = dequeuedEvents [result] ++ dequeuedEvents results :=
  List.filterMap_append (l := [result])

/-- A sequence of calls: what was handed out and what is left is what was there and what was
    accepted, in order. -/
theorem KeyQueues.run_conserves : ∀ (calls : List KeyboardCall) (q : KeyQueues), q.Proper →
    dequeuedChars (q.run calls).2 ++ (q.run calls).1.chars = q.chars ++ q.acceptedChars calls ∧
      dequeuedEvents (q.run calls).2 ++ (q.run calls).1.events =
        q.events ++ q.acceptedEvents calls
  | [], q, _ => ⟨(List.append_nil _).symm, (List.append_nil _).symm⟩
  | call :: calls, q, h => by
      obtain ⟨hchars, hevents⟩ := KeyQueues.call_conserves h call
      obtain ⟨hchars', hevents'⟩ := KeyQueues.run_conserves calls (q.call call).1 (h.call call)
      constructor
      · show dequeuedChars ((q.call call).2 :: ((q.call call).1.run calls).2) ++
          ((q.call call).1.run calls).1.chars = q.chars ++ (q.acceptedChar call ++ _)
        rw [dequeuedChars_cons, List.append_assoc, hchars', ← List.append_assoc, hchars,
          List.append_assoc]
      · show dequeuedEvents ((q.call call).2 :: ((q.call call).1.run calls).2) ++
          ((q.call call).1.run calls).1.events = q.events ++ (q.acceptedEvent call ++ _)
        rw [dequeuedEvents_cons, List.append_assoc, hevents', ← List.append_assoc, hevents,
          List.append_assoc]

/-! ### The main result -/

/-- What an interrupt does to the queues: an event is dropped exactly if 31 are pending and a
    character exactly if 63 are, and a release adds no character. -/
def InterruptAccepts (before after : KeyQueues) (byte : BitVec 8) : Prop :=
  after.events =
      (if before.events.length = 31 then before.events else before.events ++ [eventOf byte]) ∧
    after.chars = (match charOf byte with
      | none => before.chars
      | some c => if before.chars.length = 63 then before.chars else before.chars ++ [c]) ∧
    (byte &&& 0x80 ≠ 0 → (eventOf byte).pressed = false ∧ charOf byte = none)

theorem Keyboard.interrupt_accepts (kb : Keyboard) (byte : BitVec 8) :
    InterruptAccepts kb.queues (keyboardHandler kb byte byte).1.queues byte := by
  have hchars : kb.queues.chars.length < 64 := by
    rw [Keyboard.queues, Ring.length_contents]
    exact kb.chars.buffered_lt
  have hevents : kb.queues.events.length < 32 := by
    rw [Keyboard.queues, Ring.length_contents]
    exact kb.events.buffered_lt
  rw [kb.interrupt_refines byte]
  refine ⟨?_, ?_, fun hrelease => ⟨?_, charOf_release hrelease⟩⟩
  · show kb.queues.events ++ kb.queues.acceptedEvent (.interrupt byte) = _
    rw [KeyQueues.acceptedEvent]
    by_cases hfull : kb.queues.events.length = 31
    · rw [if_neg (by omega), if_pos hfull, List.append_nil]
    · rw [if_pos (by omega), if_neg hfull]
  · show kb.queues.chars ++ kb.queues.acceptedChar (.interrupt byte) = _
    rw [KeyQueues.acceptedChar]
    cases charOf byte with
    | none => simp
    | some c =>
        dsimp only
        by_cases hfull : kb.queues.chars.length = 63
        · rw [if_neg (by omega), if_pos hfull, List.append_nil]
        · rw [if_pos (by omega), if_neg hfull]
          rfl
  · exact decide_eq_false hrelease

/-- Over every sequence of interrupts and calls the driver behaves as two bounded FIFO queues: same
    results and same pending items, what was taken out and what is pending is exactly what was
    accepted in order, an interrupt drops a character or an event exactly if the queue is full, a
    release adds an event and no character, and the positions stay inside the arrays. -/
theorem keyboard_refines_queues (calls : List KeyboardCall) :
    (Keyboard.empty.run calls).2 = (KeyQueues.run {} calls).2 ∧
      (Keyboard.empty.run calls).1.queues = (KeyQueues.run {} calls).1 ∧
      dequeuedChars (Keyboard.empty.run calls).2 ++ (Keyboard.empty.run calls).1.chars.contents =
        KeyQueues.acceptedChars {} calls ∧
      dequeuedEvents (Keyboard.empty.run calls).2 ++ (Keyboard.empty.run calls).1.events.contents =
        KeyQueues.acceptedEvents {} calls ∧
      (∀ byte, InterruptAccepts (Keyboard.empty.run calls).1.queues
        (keyboardHandler (Keyboard.empty.run calls).1 byte byte).1.queues byte) ∧
      (Keyboard.empty.run calls).1.chars.readPos < 64 ∧
      (Keyboard.empty.run calls).1.chars.writePos < 64 ∧
      (Keyboard.empty.run calls).1.events.readPos < 32 ∧
      (Keyboard.empty.run calls).1.events.writePos < 32 := by
  have hempty : Keyboard.empty.queues = {} := rfl
  obtain ⟨hqueues, hresults⟩ := Keyboard.run_refines calls .empty
  rw [hempty] at hqueues hresults
  obtain ⟨hchars, hevents⟩ := KeyQueues.run_conserves calls {} (fun c hc => by cases hc)
  rw [← hresults, ← hqueues] at hchars hevents
  exact ⟨hresults, hqueues, hchars, hevents, fun byte => Keyboard.interrupt_accepts _ byte,
    Ring.readPos_lt _, Ring.writePos_lt _, Ring.readPos_lt _, Ring.writePos_lt _⟩

-- 'a' pressed and released, then read: one character, two events.
example :
    (Keyboard.empty.run [.interrupt 0x1E, .interrupt 0x9E, .getchar, .getchar, .getEvent]).2 =
    [.done, .done, .char 97, .char 0, .event (some ⟨0x1E, true⟩)] := by decide

end CustomKernel
