/-
Module: CustomKernel.Proofs.ScancodeBytes
Layer: Proofs
Purpose: From the bytes of the keyboard to `key_events`. The handler reads the port a second time for
  every key that is pressed. With another byte pending the second read takes that one, and no event is
  made of it; without, it repeats the first. So a run has an event for every byte taken exactly if
  every press is handled alone.
Imports: CustomKernel.Proofs.KeyQueues, CustomKernel.Library.Runs
Trusted boundary: none (fully proved)
Main exports: PortSystem, PortStep, Alone, Recorded, interrupt_cases, bytes_recorded
-/
import CustomKernel.Proofs.KeyQueues
import CustomKernel.Library.Runs

namespace CustomKernel

open RingBuffer StepSystem

/-- The driver and the controller, with the bytes taken from the port so far and the events handed out
    by `keyboard_get_event`. -/
structure PortSystem where
  kb : Keyboard
  port : KeyPort
  taken : List (BitVec 8)
  delivered : List KeyEvent

/-- What can happen. -/
inductive PortAction where
  /-- A byte comes from the keyboard. -/
  | arrive (byte : BitVec 8)
  /-- The handler runs; the bytes given come between its two reads of the port. -/
  | interrupt (meanwhile : List (BitVec 8))
  | getEvent
deriving DecidableEq, Repr

/-- The bytes that are gone from the front of the queue. -/
def removedBytes (before : List (BitVec 8)) (after : KeyPort) : List (BitVec 8) :=
  before.take (before.length - after.pending.length)

/-- One action. There is an interrupt only for a pending byte, and there is room for its event. -/
def PortStep (s : PortSystem) : PortAction → PortSystem → Prop
  | .arrive byte, s' => s' = { s with port.pending := s.port.pending ++ [byte] }
  | .interrupt meanwhile, s' =>
      s.port.pending ≠ [] ∧ s.kb.events.contents.length < 31 ∧
        s' = { s with
          kb := (keyboardInterrupt s.kb s.port meanwhile).1
          port := (keyboardInterrupt s.kb s.port meanwhile).2
          taken := s.taken ++ removedBytes (s.port.pending ++ meanwhile)
            (keyboardInterrupt s.kb s.port meanwhile).2 }
  | .getEvent, s' => s' = { s with
      kb := (keyboardGetEvent s.kb).2
      delivered := s.delivered ++ (keyboardGetEvent s.kb).1.toList }

/-- A press is handled alone: the port has no other byte by the time of the second read. -/
def Alone (s : PortSystem) : PortAction → Prop
  | .interrupt meanwhile => ∀ sc rest, s.port.pending = sc :: rest → sc &&& 0x80 = 0 →
      rest = [] ∧ meanwhile = []
  | .arrive _ | .getEvent => True

/-- The events recorded so far. -/
def PortSystem.recorded (s : PortSystem) : List KeyEvent := s.delivered ++ s.kb.events.contents

/-- Behind the events that were there before, one for every byte taken, in order. -/
def Recorded (before : List KeyEvent) (s : PortSystem) : Prop :=
  s.recorded = before ++ s.taken.map eventOf

section Steps

variable {s s' : PortSystem}

/-- The event is that of the first byte read, whatever the second read gives. -/
theorem keyboardHandler_events (kb : Keyboard) (sc scancode : BitVec 8)
    (hroom : kb.events.contents.length < 31) :
    (keyboardHandler kb sc scancode).1.events.contents = kb.events.contents ++ [eventOf sc] := by
  have hpush : (keyboardHandler kb sc scancode).1.events = kb.events.push (eventOf sc) := by
    unfold keyboardHandler
    dsimp only
    split
    · rfl
    · split
      · split
        · rfl
        · rfl
      · rfl
  rw [hpush, Ring.contents_push, offer, show kbEventBuf - 1 = 31 from rfl, if_pos hroom]

/-- An interrupt records the byte it is for. It takes this byte alone, or the next one with it. -/
theorem interrupt_cases {meanwhile : List (BitVec 8)} (step : PortStep s (.interrupt meanwhile) s') :
    ∃ sc, s'.recorded = s.recorded ++ [eventOf sc] ∧
      ((Alone s (.interrupt meanwhile) ∧ s'.taken = s.taken ++ [sc]) ∨
        (¬ Alone s (.interrupt meanwhile) ∧ ∃ lost, s'.taken = s.taken ++ [sc, lost])) := by
  obtain ⟨hpending, hroom, rfl⟩ := step
  obtain ⟨sc, rest, hport⟩ := List.exists_cons_of_ne_nil hpending
  refine ⟨sc, ?_, ?_⟩
  · have hkb : ∃ scancode, (keyboardInterrupt s.kb s.port meanwhile).1 =
        (keyboardHandler s.kb sc scancode).1 := by
      unfold keyboardInterrupt
      rw [KeyPort.inb, hport]
      dsimp only
      split
      · exact ⟨_, rfl⟩
      · exact ⟨_, rfl⟩
    obtain ⟨scancode, hkb⟩ := hkb
    show s.delivered ++ (keyboardInterrupt s.kb s.port meanwhile).1.events.contents = _
    rw [hkb, keyboardHandler_events s.kb sc scancode hroom, PortSystem.recorded, List.append_assoc]
  · show (_ ∧ s.taken ++ removedBytes (s.port.pending ++ meanwhile)
        (keyboardInterrupt s.kb s.port meanwhile).2 = _) ∨
      (_ ∧ ∃ lost, s.taken ++ removedBytes (s.port.pending ++ meanwhile)
        (keyboardInterrupt s.kb s.port meanwhile).2 = _)
    unfold keyboardInterrupt
    rw [KeyPort.inb, hport]
    dsimp only
    by_cases hrelease : sc &&& 0x80 ≠ 0
    · -- a release is read once
      refine .inl ⟨fun sc' rest' hport' hpress => ?_, ?_⟩
      · rw [hport] at hport'
        cases hport'
        exact absurd hpress hrelease
      · rw [if_pos hrelease, removedBytes, List.cons_append, List.length_cons,
          Nat.add_sub_cancel_left]
        rfl
    · rw [if_neg hrelease]
      cases hnext : rest ++ meanwhile with
      | nil =>
          -- the second read repeats the first
          obtain ⟨rfl, rfl⟩ := List.append_eq_nil_iff.1 hnext
          refine .inl ⟨fun sc' rest' hport' _ => ?_, ?_⟩
          · rw [hport] at hport'
            cases hport'
            exact ⟨rfl, rfl⟩
          · rfl
      | cons lost more =>
          refine .inr ⟨fun halone => ?_, lost, ?_⟩
          · obtain ⟨rfl, rfl⟩ := halone sc rest hport (not_not.1 hrelease)
            cases hnext
          · rw [List.cons_append, hnext]
            have hlength : (sc :: lost :: more).length - more.length = 2 := by
              rw [List.length_cons, List.length_cons]
              omega
            show s.taken ++ (sc :: lost :: more).take ((sc :: lost :: more).length - more.length) = _
            rw [hlength]
            rfl

/-- The other actions neither record nor take. -/
theorem other_step {a : PortAction} (hother : ∀ meanwhile, a ≠ .interrupt meanwhile)
    (step : PortStep s a s') : s'.recorded = s.recorded ∧ s'.taken = s.taken := by
  cases a with
  | arrive byte =>
      obtain rfl := step
      exact ⟨rfl, rfl⟩
  | interrupt meanwhile => exact absurd rfl (hother meanwhile)
  | getEvent =>
      obtain rfl := step
      refine ⟨?_, rfl⟩
      show (s.delivered ++ (keyboardGetEvent s.kb).1.toList) ++
        (keyboardGetEvent s.kb).2.events.contents = s.delivered ++ s.kb.events.contents
      rw [List.append_assoc]
      congr 1
      unfold keyboardGetEvent
      by_cases hitem : s.kb.events.HasItem
      · rw [if_pos hitem, Ring.contents_eq_cons hitem]
        rfl
      · rw [if_neg hitem]
        rfl

theorem alone_of_other {a : PortAction} (hother : ∀ meanwhile, a ≠ .interrupt meanwhile) :
    Alone s a := by
  cases a with
  | arrive byte => trivial
  | interrupt meanwhile => exact absurd rfl (hother meanwhile)
  | getEvent => trivial

/-- One action in numbers: a press that is not alone is an event short. -/
theorem step_counts {a : PortAction} (step : PortStep s a s') :
    s'.recorded.length + s.taken.length ≤ s.recorded.length + s'.taken.length ∧
      (s'.recorded.length + s.taken.length = s.recorded.length + s'.taken.length → Alone s a) := by
  by_cases hinterrupt : ∃ meanwhile, a = .interrupt meanwhile
  · obtain ⟨meanwhile, rfl⟩ := hinterrupt
    obtain ⟨sc, hrecorded, halone | ⟨-, lost, htaken⟩⟩ := interrupt_cases step
    · obtain ⟨halone, htaken⟩ := halone
      rw [hrecorded, htaken, List.length_append, List.length_append]
      exact ⟨by simp only [List.length_singleton]; omega, fun _ => halone⟩
    · rw [hrecorded, htaken, List.length_append, List.length_append]
      simp only [List.length_cons, List.length_nil]
      omega
  · have hother : ∀ meanwhile, a ≠ .interrupt meanwhile := fun m h => hinterrupt ⟨m, h⟩
    obtain ⟨hrecorded, htaken⟩ := other_step hother step
    rw [hrecorded, htaken]
    exact ⟨Nat.le_refl _, fun _ => alone_of_other hother⟩

/-- A press handled alone keeps the record complete. -/
theorem Recorded.step {before : List KeyEvent} (h : Recorded before s) {a : PortAction}
    (step : Guarded Alone PortStep s a s') : Recorded before s' := by
  obtain ⟨halone, step⟩ := step
  by_cases hinterrupt : ∃ meanwhile, a = .interrupt meanwhile
  · obtain ⟨meanwhile, rfl⟩ := hinterrupt
    obtain ⟨sc, hrecorded, ⟨-, htaken⟩ | ⟨hnot, -⟩⟩ := interrupt_cases step
    · rw [Recorded, hrecorded, htaken, h, List.map_append, List.append_assoc]
      rfl
    · exact absurd halone hnot
  · obtain ⟨hrecorded, htaken⟩ := other_step (fun m h => hinterrupt ⟨m, h⟩) step
    rw [Recorded, hrecorded, htaken]
    exact h

/-- A run never makes up for a missing event: as many events as bytes means that every press was
    handled alone. -/
theorem run_counts {actions : List PortAction} (run : Run PortStep s actions s') :
    s'.recorded.length + s.taken.length ≤ s.recorded.length + s'.taken.length ∧
      (s'.recorded.length + s.taken.length = s.recorded.length + s'.taken.length →
        Run (Guarded Alone PortStep) s actions s') := by
  induction run with
  | nil s => exact ⟨Nat.le_refl _, fun _ => .nil s⟩
  | cons head _ ih =>
      obtain ⟨hle, halone⟩ := step_counts head
      obtain ⟨hle', hrest⟩ := ih
      exact ⟨by omega, fun heq => .cons ⟨halone (by omega), head⟩ (hrest (by omega))⟩

end Steps

/-- The start of a run: nothing taken or handed out yet. -/
def PortSystem.start (kb : Keyboard) (port : KeyPort) : PortSystem := ⟨kb, port, [], []⟩

/-- For every driver state, all pending bytes, and every order of arriving bytes, interrupts and calls
    of `keyboard_get_event`, with room for the events: every byte taken from the port has been recorded
    once, in order, exactly if every press was handled alone. -/
theorem bytes_recorded (kb : Keyboard) (port : KeyPort) (actions : List PortAction) (s : PortSystem)
    (run : Run PortStep (.start kb port) actions s) :
    Recorded kb.events.contents s ↔ Run (Guarded Alone PortStep) (.start kb port) actions s := by
  have hstart : Recorded kb.events.contents (.start kb port) := (List.append_nil _).symm
  constructor
  · intro hrecorded
    refine (run_counts run).2 ?_
    rw [hrecorded, hstart, List.length_append, List.length_append, List.length_map, List.length_map]
    omega
  · intro halone
    exact halone.invariant (Recorded kb.events.contents) (fun _ _ _ h step => h.step step) hstart

/-! ### Pressed and released -/

/-- The A key is pressed, and the interrupt comes before the key is released. -/
def slowKey : PortSystem where
  kb := (keyboardHandler (keyboardHandler Keyboard.empty 0x1E 0x1E).1 0x9E 0x9E).1
  port := { pending := [], last := 0x9E }
  taken := [0x1E, 0x9E]
  delivered := []

theorem slowKey_run : Run (Guarded Alone PortStep) (.start Keyboard.empty {})
    [.arrive 0x1E, .interrupt [], .arrive 0x9E, .interrupt []] slowKey := by
  have hpress : Alone ⟨Keyboard.empty, ⟨[0x1E], 0⟩, [], []⟩ (.interrupt []) := by
    intro sc rest hport _
    cases hport
    exact ⟨rfl, rfl⟩
  have hrelease : Alone ⟨(keyboardHandler Keyboard.empty 0x1E 0x1E).1, ⟨[0x9E], 0x1E⟩, [0x1E], []⟩
      (.interrupt []) := by
    intro sc rest hport hpress
    cases hport
    exact absurd hpress (by decide)
  exact .cons ⟨trivial, rfl⟩ (.cons ⟨hpress, by decide, by decide, rfl⟩
    (.cons ⟨trivial, rfl⟩ (.single ⟨hrelease, by decide, by decide, rfl⟩)))

/-- Both bytes are recorded. -/
theorem bytes_recorded_slow_key : slowKey.kb.events.contents = [eventOf 0x1E, eventOf 0x9E] :=
  (bytes_recorded Keyboard.empty {} _ slowKey slowKey_run.of_guarded).2 slowKey_run

/-- The key is released before the interrupt. -/
def quickKey : PortSystem where
  kb := (keyboardHandler Keyboard.empty 0x1E 0x9E).1
  port := { pending := [], last := 0x9E }
  taken := [0x1E, 0x9E]
  delivered := []

/-- The release is taken from the port and not recorded. -/
theorem release_lost : Run PortStep (.start Keyboard.empty {})
      [.arrive 0x1E, .arrive 0x9E, .interrupt []] quickKey ∧
    quickKey.taken = [0x1E, 0x9E] ∧ quickKey.recorded = [eventOf 0x1E] ∧
    ¬ Recorded Keyboard.empty.events.contents quickKey := by
  have hrun : Run PortStep (.start Keyboard.empty {}) [.arrive 0x1E, .arrive 0x9E, .interrupt []]
      quickKey :=
    .cons rfl (.cons rfl (.single ⟨by decide, by decide, rfl⟩))
  refine ⟨hrun, rfl, by decide, ?_⟩
  rw [Recorded]
  decide

end CustomKernel
