/-
Module: CustomKernel.Proofs.KeyWakeup
Layer: Proofs
Purpose: Readers and the keyboard. A reader goes to sleep when the buffer is empty, every character
  wakes one sleeper, and a woken reader takes at least one character or finds the buffer empty, if it
  is resumed inside `sys_read` at all: its return address lies on the one system call stack. In every
  run in which it is still there whenever a process is switched back to, there are never more
  characters than readers on their way to them while somebody sleeps.
Imports: CustomKernel.Drivers.Keyboard, CustomKernel.Proofs.Scheduler,
  CustomKernel.Proofs.ContextSwitch
Trusted boundary: the keyboard and the scheduler are values beside the memory of the processes, so
  no `buf` lies over them; the code a process runs behind a wrong return address is not followed
Main exports: ReadCode, KeySystem, KeySystem.Step, KeySystem.ReturnKept, sysReadRun_spec, WakeupInv,
  no_lost_key_wakeup, key_wakeup_lost
-/
import CustomKernel.Drivers.Keyboard
import CustomKernel.Proofs.Scheduler
import CustomKernel.Proofs.ContextSwitch

namespace CustomKernel

open RingBuffer ByteMemory StepSystem Scheduler

/-! ### The system -/

/-- What the compiler has made of `sys_read`. -/
structure ReadCode where
  /-- Where the call of `scheduler_tick` puts its return address. Every system call starts at the top
      of the same stack, so this is one place for all processes. -/
  slot : Word
  /-- That return address. -/
  resume : Word
  /-- The callee-saved registers in which `buf`, `len` and `i` live across the call. -/
  locals : CalleeSaved → ReadCall

/-- A process inside `sys_read`. -/
inductive Reading where
  /-- It has called and not waited yet. -/
  | entered (call : ReadCall)
  /-- It has been switched out, with these registers at its call of `scheduler_tick`. -/
  | waiting (regs : CalleeSaved)

/-- The call as the process left it. -/
def Reading.call (code : ReadCode) : Reading → ReadCall
  | .entered call => call
  | .waiting regs => code.locals regs

/-- A process switched out inside `sys_yield` or `sys_sleep`: its saved stack pointer, and the return
    address it has pushed there. -/
structure Pause where
  sp : Word
  back : Word

/-- The scheduler, the keyboard, and the processes with what `context_switch` does not keep for them:
    one set of registers and one system call stack. -/
structure KeySystem where
  sched : Scheduler
  kb : Keyboard
  regs : CalleeSaved
  stack : ByteMem
  /-- What each process has at its addresses. -/
  memory : Nat → ByteMem
  reading : Nat → Option Reading
  paused : Nat → Option Pause
  /-- Those a key has made ready and that have not run since. -/
  woken : Finset Nat

/-- What can happen. -/
inductive KeyAction where
  /-- The timer, `sys_yield`, `sys_sleep`, `sys_exit`, or a new process. -/
  | sched (event : Scheduler.Event)
  /-- A keyboard interrupt, with the two bytes read from the port. -/
  | key (sc scancode : BitVec 8)
  /-- A call of `sys_read`. -/
  | read (buf len : Word)
  /-- The process inside `sys_read` that has the processor runs to its return or its next wait. -/
  | runRead
  /-- The process that was switched out inside `sys_yield` or `sys_sleep` and has the processor again
      returns from the call. -/
  | leave
  | getkey
  | getRawKey
deriving DecidableEq, Repr

/-- The processes that waited for a key and have been made ready. -/
def madeReady (s s' : Scheduler) : Finset Nat :=
  (s.members.filter fun p => WaitsForKey (s.procs p) ∧ (s'.procs p).state = .ready).toFinset

namespace KeySystem

/-- The current process is not inside a system call. Interrupts are off inside, and a call gives the
    processor up only where it waits, so everything else happens in such states. -/
def Settled (k : KeySystem) : Prop :=
  k.reading k.sched.current = none ∧ k.paused k.sched.current = none

/-- The other processes keep their memory. The registers and the system call stack are nobody's own. -/
def OthersKept (k k' : KeySystem) : Prop := ∀ p, p ≠ k.sched.current → k'.memory p = k.memory p

/-- The call a process goes on with. A call that has waited goes on only if `ret` finds its return
    address, and with what the registers hold then: `context_switch` loads the stack pointer alone. -/
def resumed (code : ReadCode) (k : KeySystem) : Reading → Option ReadCall
  | .entered call => some call
  | .waiting _ => if loadWord k.stack code.slot = code.resume then some (code.locals k.regs) else none

/-- The call comes to rest: it returns, or it blocks and gives the processor up, with its locals in the
    registers and its return address on the stack. -/
def Rests (code : ReadCode) (k k' : KeySystem) : ReadOutcome → Prop
  | .returned _ => k'.sched = k.sched ∧
      k'.reading = Function.update k.reading k.sched.current none
  | .waiting call => k.sched.EventStep .read k'.sched ∧ loadWord k'.stack code.slot = code.resume ∧
      ∃ regs, code.locals regs = call ∧
        k'.reading = Function.update k.reading k.sched.current (some (.waiting regs))

/-- What the resumed process does. Behind another return address it is not in `sys_read` any more, and
    takes nothing. -/
def Continues (code : ReadCode) (k k' : KeySystem) : Option ReadCall → Prop
  | some call => ∃ outcome, k.Rests code k' outcome ∧
      sysReadRun k.kb (k.memory k.sched.current) call =
        some (k'.kb, k'.memory k.sched.current, outcome)
  | none => k'.sched = k.sched ∧ k'.kb = k.kb ∧
      k'.reading = Function.update k.reading k.sched.current none

/-- A process that yields or sleeps leaves its return address on the system call stack. -/
def Pauses (k k' : KeySystem) : Scheduler.Event → Prop
  | .yield | .sleep _ => ∃ pause : Pause, loadWord k'.stack pause.sp = pause.back ∧
      k'.paused = Function.update k.paused k.sched.current (some pause)
  | _ => k'.paused = k.paused

/-- One action. Whatever else runs may leave anything in the registers, and a system call anything on
    the system call stack; interrupts run on other stacks. -/
def Step (code : ReadCode) (k : KeySystem) : KeyAction → KeySystem → Prop
  | .sched event, k' => k.Settled ∧ event ≠ .key ∧ event ≠ .read ∧
      k.sched.EventStep event k'.sched ∧ k'.kb = k.kb ∧ k'.reading = k.reading ∧
      k'.woken = k.woken ∧ k.OthersKept k' ∧ k.Pauses k' event ∧
      (event = .timer → k'.stack = k.stack)
  | .key sc scancode, k' => k.Settled ∧ k'.kb = (keyboardHandler k.kb sc scancode).1 ∧
      (if (keyboardHandler k.kb sc scancode).2 = true then k.sched.EventStep .key k'.sched
        else k'.sched = k.sched) ∧
      k'.reading = k.reading ∧ k'.woken = k.woken ∪ madeReady k.sched k'.sched ∧
      k.OthersKept k' ∧ k'.paused = k.paused ∧ k'.stack = k.stack
  | .read buf len, k' => k.Settled ∧ k.sched.current ≠ k.sched.idle ∧ k'.sched = k.sched ∧
      k'.kb = k.kb ∧ k'.woken = k.woken ∧ k'.paused = k.paused ∧ k'.memory = k.memory ∧
      k'.reading =
        Function.update k.reading k.sched.current ((sysReadEnter buf len).map .entered)
  | .runRead, k' => ∃ reader, k.reading k.sched.current = some reader ∧
      k.Continues code k' (k.resumed code reader) ∧ k.OthersKept k' ∧ k'.paused = k.paused ∧
      k'.woken = k.woken.erase k.sched.current
  | .leave, k' => k.reading k.sched.current = none ∧ k.paused k.sched.current ≠ none ∧
      k'.sched = k.sched ∧ k'.kb = k.kb ∧ k'.reading = k.reading ∧ k'.woken = k.woken ∧
      k.OthersKept k' ∧ k'.paused = Function.update k.paused k.sched.current none
  | .getkey, k' => k.Settled ∧ k.sched.current ≠ k.sched.idle ∧ k'.sched = k.sched ∧
      k'.kb = (sysGetkey k.kb).2 ∧ k'.reading = k.reading ∧ k'.woken = k.woken ∧
      k.OthersKept k' ∧ k'.paused = k.paused
  | .getRawKey, k' => k.Settled ∧ k.sched.current ≠ k.sched.idle ∧ k'.sched = k.sched ∧
      k'.kb = (keyboardGetEvent k.kb).2 ∧ k'.reading = k.reading ∧ k'.woken = k.woken ∧
      k.OthersKept k' ∧ k'.paused = k.paused

/-- A process that is resumed inside a system call finds its own return address. -/
def ReturnKept (code : ReadCode) (k : KeySystem) : KeyAction → Prop
  | .runRead => ∀ regs, k.reading k.sched.current = some (.waiting regs) →
      loadWord k.stack code.slot = code.resume
  | .leave => ∀ pause, k.paused k.sched.current = some pause →
      loadWord k.stack pause.sp = pause.back
  | _ => True

/-- `scheduler_start` has been called; keys may have been typed before. -/
def start (s : Scheduler) (kb : Keyboard) (regs : CalleeSaved) (stack : ByteMem)
    (memory : Nat → ByteMem) : KeySystem where
  sched := s.schedulerStart
  kb := kb
  regs := regs
  stack := stack
  memory := memory
  reading := fun _ => none
  paused := fun _ => none
  woken := ∅

end KeySystem

/-- It goes on in `sys_read` then. -/
theorem KeySystem.resumed_of_kept {code : ReadCode} {k : KeySystem}
    (kept : k.ReturnKept code .runRead) {reader : Reading}
    (hreader : k.reading k.sched.current = some reader) : ∃ call, k.resumed code reader = some call := by
  cases reader with
  | entered call => exact ⟨call, rfl⟩
  | waiting regs => exact ⟨code.locals k.regs, if_pos (kept regs hreader)⟩

/-! ### One run of `sys_read` -/

theorem keyboardGetchar_buffered {kb : Keyboard} (h : keyboardHasChar kb) :
    (keyboardGetchar kb).2.chars.buffered + 1 = kb.chars.buffered := by
  have hitem : kb.chars.HasItem := h
  rw [keyboardGetchar, if_pos hitem]
  exact Ring.buffered_drop hitem

/-- How a run of `sys_read` leaves the buffer: it waits at an empty buffer only, and does not return
    without having taken a character, whatever its locals are. -/
def ReadEnds (kb kb' : Keyboard) : ReadOutcome → Prop
  | .returned _ => kb'.chars.buffered + 1 ≤ kb.chars.buffered
  | .waiting _ => kb'.chars.buffered = 0

/-- With a budget above the number of buffered characters the loop comes to rest. -/
theorem sysReadLoop_spec : ∀ (budget : Nat) (kb : Keyboard) (mem : ByteMem) (call : ReadCall),
    kb.chars.buffered < budget →
      ∃ kb' mem' outcome, sysReadLoop budget kb mem call = some (kb', mem', outcome) ∧
        ReadEnds kb kb' outcome
  | 0, _, _, _, h => absurd h (Nat.not_lt_zero _)
  | budget + 1, kb, mem, call, h => by
      rw [sysReadLoop]
      by_cases hchar : keyboardHasChar kb
      · rw [if_pos hchar]
        have hless := keyboardGetchar_buffered hchar
        generalize keyboardGetchar kb = taken at hless
        obtain ⟨c, kb₁⟩ := taken
        dsimp only at hless ⊢
        split
        · exact ⟨kb₁, _, _, rfl, Nat.le_of_eq hless⟩
        · split
          · obtain ⟨kb', mem', outcome, hloop, hends⟩ := sysReadLoop_spec budget kb₁
              (Function.update mem (call.buf + call.i).toNat c) { call with i := call.i + 1 }
              (by omega)
            refine ⟨kb', mem', outcome, hloop, ?_⟩
            cases outcome with
            | returned value =>
                rw [ReadEnds] at hends ⊢
                omega
            | waiting call' =>
                exact hends
          · exact ⟨kb₁, _, _, rfl, Nat.le_of_eq hless⟩
      · rw [if_neg hchar]
        have hempty : kb.chars.buffered = 0 :=
          Nat.eq_zero_of_not_pos fun hpos => hchar (kb.chars.hasItem_iff.2 hpos)
        exact ⟨kb, mem, _, rfl, hempty⟩

/-- `sys_read` always comes to rest, and leaves the buffer as said above. -/
theorem sysReadRun_spec (kb : Keyboard) (mem : ByteMem) (call : ReadCall) :
    ∃ kb' mem' outcome, sysReadRun kb mem call = some (kb', mem', outcome) ∧
      ReadEnds kb kb' outcome :=
  sysReadLoop_spec _ kb mem call (Nat.lt_succ_of_lt kb.chars.buffered_lt)

/-- An interrupt that calls nobody adds no character; one that does adds one at most. -/
theorem keyboardHandler_buffered (kb : Keyboard) (sc scancode : BitVec 8) :
    (keyboardHandler kb sc scancode).1.chars.buffered ≤ kb.chars.buffered +
      if (keyboardHandler kb sc scancode).2 = true then 1 else 0 := by
  unfold keyboardHandler
  dsimp only
  split
  · exact Nat.le_refl _
  · split
    · split
      · exact kb.chars.buffered_push_le _
      · exact Nat.le_refl _
    · exact Nat.le_refl _

theorem sysGetkey_buffered (kb : Keyboard) :
    (sysGetkey kb).2.chars.buffered ≤ kb.chars.buffered := by
  unfold sysGetkey
  split
  · rename_i h
    have := keyboardGetchar_buffered h
    omega
  · exact Nat.le_refl _

theorem keyboardGetEvent_chars (kb : Keyboard) : (keyboardGetEvent kb).2.chars = kb.chars := by
  unfold keyboardGetEvent
  split <;> rfl

/-! ### What scheduler events do to sleepers and ready processes -/

section Events

variable {s s' : Scheduler}

/-- A ready process stays ready until it becomes current. -/
theorem ready_of_event (inv : SchedulerInv s) {e : Event} (step : s.EventStep e s') {p : Nat}
    (hp : p ∈ s.members) (hne : p ≠ s.current) (hr : (s.procs p).state = .ready) :
    (s'.procs p).state = .ready ∨ p = s'.current := by
  rcases eventStep_cases inv step with ⟨t, -, -, -, hcur, hsame, -, rfl⟩ | ⟨-, rfl⟩ |
    ⟨address, created, -, hnull, hfresh, hadd⟩
  · have hready : (t.procs p).state = .ready := by rw [hsame p hne]; exact hr
    have hwoken : t.woken p = t.procs p := woken_state_of_ne_blocked (by rw [hready]; decide)
    rcases ticked_procs_cases t p with ⟨hchosen, -, -⟩ | ⟨hcurrent, -, -, -⟩ | ⟨h, -, -⟩
    · exact .inr (by rw [ticked_current, hchosen])
    · exact absurd (hcurrent.trans hcur) hne
    · exact .inl (by rw [h, hwoken, hready])
  · rcases keyWoken_procs_cases s p with h | ⟨hb, -⟩
    · exact .inl (by rw [h, hr])
    · rw [hr] at hb
      cases hb
  · have hold := (schedulerAdd_spec inv.ring hnull hfresh hadd).2.2.2.2.2.2
    exact .inl (by rw [hold p hp, hr])

/-- Only `sys_read` puts a process to sleep on the keyboard, and that process is the current one. -/
theorem waits_of_event (inv : SchedulerInv s) {e : Event} (step : s.EventStep e s') {p : Nat}
    (hread : e = .read → p ≠ s.current) (hp : p ∈ s'.members) (hw : WaitsForKey (s'.procs p)) :
    p ∈ s.members ∧ WaitsForKey (s.procs p) := by
  rcases eventStep_cases inv step with ⟨t, ht, pre, hmem, -, hsame, -, rfl⟩ | ⟨-, rfl⟩ |
    ⟨address, created, -, hnull, hfresh, hadd⟩
  · rw [ticked_members, hmem] at hp
    rw [(ticked_blocked pre (hmem ▸ hp) hw.1).1] at hw
    refine ⟨hp, ?_⟩
    by_cases hpc : p = s.current
    · -- the calls leave the current process running, dead or asleep until a tick
      have hself : ∀ f : Process → Process, (s.updateCurrent f).procs p = f (s.procs p) := by
        intro f
        rw [hpc]
        simp [updateCurrent]
      cases e with
      | timer =>
          obtain rfl := Option.some.inj ht
          exact hw
      | yield =>
          obtain rfl := Option.some.inj ht
          exact hw
      | sleep ticks =>
          obtain rfl := Option.some.inj ht
          rw [hself] at hw
          exact absurd hw.2 (by simp)
      | read =>
          exact absurd hpc (hread rfl)
      | exit =>
          obtain rfl := Option.some.inj ht
          rw [hself] at hw
          exact absurd hw.1 (by simp)
      | key => cases ht
      | add address created => cases ht
    · rwa [hsame p hpc] at hw
  · rw [(keyWoken_rest s).2.2.2] at hp
    rcases keyWoken_procs_cases s p with h | ⟨-, h⟩
    · rw [h] at hw
      exact ⟨hp, hw⟩
    · rw [h] at hw
      exact absurd hw.1 (by simp)
  · obtain ⟨-, hmem, -, -, -, hready, hold⟩ := schedulerAdd_spec inv.ring hnull hfresh hadd
    rw [hmem] at hp
    rcases List.mem_append.1 hp with hp | hp
    · rw [hold p hp] at hw
      exact ⟨hp, hw⟩
    · rw [List.mem_singleton.1 hp] at hw
      rw [WaitsForKey, hready] at hw
      exact absurd hw.1 (by decide)

/-- A process asleep on the keyboard is not idle, so a key finds one to wake. -/
theorem madeReady_nonempty (inv : SchedulerInv s) {p : Nat} (hp : p ∈ s.members)
    (hw : WaitsForKey (s.procs p)) :
    ∃ q, q ∈ madeReady s s.keyWoken ∧ WaitsForKey (s.procs q) := by
  have hidle : p ≠ s.idle := by
    rintro rfl
    rcases inv.safe.idle_state with h | h <;> rw [WaitsForKey, h] at hw <;> exact absurd hw.1 (by decide)
  have htail : p ∈ s.members.tail := (inv.ring.mem_iff.1 hp).resolve_left hidle
  cases hq : s.keyWaiter with
  | none =>
      exact absurd hw (by simpa using List.find?_eq_none.1 hq p htail)
  | some q =>
      have hwait : WaitsForKey (s.procs q) := by simpa using List.find?_some hq
      have hmem : q ∈ s.members := List.mem_of_mem_tail (List.mem_of_find?_eq_some hq)
      refine ⟨q, ?_, hwait⟩
      rw [madeReady, List.mem_toFinset, List.mem_filter]
      refine ⟨hmem, ?_⟩
      simp [keyWoken, hq, hwait]

theorem mem_madeReady {p : Nat} :
    p ∈ madeReady s s' ↔ p ∈ s.members ∧ WaitsForKey (s.procs p) ∧ (s'.procs p).state = .ready := by
  rw [madeReady, List.mem_toFinset, List.mem_filter]
  simp

end Events

/-! ### The counting invariant -/

/-- While somebody sleeps on the keyboard, every buffered character has a woken reader. -/
structure WakeupInv (k : KeySystem) : Prop where
  sched : SchedulerInv k.sched
  sleepers_read : ∀ p ∈ k.sched.members, WaitsForKey (k.sched.procs p) → k.reading p ≠ none
  woken_ready : ∀ p ∈ k.woken, p ∈ k.sched.members ∧ k.reading p ≠ none ∧
    ((k.sched.procs p).state = .ready ∨ p = k.sched.current)
  enough : ∀ p ∈ k.sched.members, WaitsForKey (k.sched.procs p) →
    k.kb.chars.buffered ≤ k.woken.card

namespace WakeupInv

variable {code : ReadCode} {k k' : KeySystem}

/-- In a settled state the current process is not among the woken. -/
theorem woken_ne_current (inv : WakeupInv k) (settled : k.Settled) {p : Nat} (hp : p ∈ k.woken) :
    p ≠ k.sched.current ∧ (k.sched.procs p).state = .ready := by
  obtain ⟨-, hreading, hstate⟩ := inv.woken_ready p hp
  have hne : p ≠ k.sched.current := by
    rintro rfl
    exact hreading settled.1
  exact ⟨hne, hstate.resolve_right hne⟩

/-- The current process is running, so it does not sleep. -/
theorem sleeper_ne_current (inv : WakeupInv k) {p : Nat} (hw : WaitsForKey (k.sched.procs p)) :
    p ≠ k.sched.current := by
  rintro rfl
  rw [WaitsForKey, inv.sched.safe.current_running] at hw
  exact absurd hw.1 (by decide)

/-- A woken reader that has not become current stays one through an event. -/
theorem woken_event (inv : WakeupInv k) {e : Event} (hevent : k.sched.EventStep e k'.sched) {p : Nat}
    (hp : p ∈ k.woken) (hne : p ≠ k.sched.current) :
    p ∈ k'.sched.members ∧ k.reading p ≠ none ∧
      ((k'.sched.procs p).state = .ready ∨ p = k'.sched.current) := by
  obtain ⟨hmem, hreads, hstate⟩ := inv.woken_ready p hp
  exact ⟨mem_of_event inv.sched hevent hmem, hreads,
    ready_of_event inv.sched hevent hmem hne (hstate.resolve_right hne)⟩

theorem start {s : Scheduler} (prepared : Prepared s) (kb : Keyboard) (regs : CalleeSaved)
    (stack : ByteMem) (memory : Nat → ByteMem) :
    WakeupInv (KeySystem.start s kb regs stack memory) := by
  have hsched := schedulerStart_inv prepared.inv
  -- before the first event nobody is blocked
  have hnone : ∀ p ∈ s.schedulerStart.members, ¬ WaitsForKey (s.schedulerStart.procs p) := by
    intro p hp hw
    have hinv := prepared.inv
    have hmem : p ∈ s.members := by
      unfold schedulerStart at hp
      split at hp
      · exact hp
      · simpa using hp
    have hcases : (s.schedulerStart.procs p).state = .running ∨
        s.schedulerStart.procs p = s.procs p := by
      unfold schedulerStart
      split
      · exact .inr rfl
      · rw [loadProcess_procs]
        by_cases hp' : p = (s.procs s.current).next
        · exact .inl (by rw [hp']; simp)
        · exact .inr (by simp [hp'])
    rcases hcases with h | h
    · rw [WaitsForKey, h] at hw
      exact absurd hw.1 (by decide)
    · rw [h] at hw
      by_cases hidle : p = s.idle
      · rw [WaitsForKey, hidle, hinv.idle_running] at hw
        exact absurd hw.1 (by decide)
      · rw [WaitsForKey, hinv.others_ready p hmem hidle] at hw
        exact absurd hw.1 (by decide)
  exact ⟨hsched, fun p hp hw => absurd hw (hnone p hp),
    fun _ h => absurd h (Finset.notMem_empty _), fun p hp hw => absurd hw (hnone p hp)⟩

/-- Events that touch neither the buffer nor the readers. -/
theorem event (inv : WakeupInv k) {e : Event} (step : k.Step code (.sched e) k') :
    WakeupInv k' := by
  obtain ⟨settled, -, hread, hevent, hkb, hreading, hwoken, -⟩ := step
  have hback : ∀ p ∈ k'.sched.members, WaitsForKey (k'.sched.procs p) →
      p ∈ k.sched.members ∧ WaitsForKey (k.sched.procs p) :=
    fun p hp hw => waits_of_event inv.sched hevent (fun h => absurd h hread) hp hw
  refine ⟨inv.sched.of_event hevent, ?_, ?_, ?_⟩
  · intro p hp hw
    obtain ⟨hp₀, hw₀⟩ := hback p hp hw
    rw [hreading]
    exact inv.sleepers_read p hp₀ hw₀
  · intro p hp
    rw [hwoken] at hp
    rw [hreading]
    exact inv.woken_event hevent hp (inv.woken_ne_current settled hp).1
  · intro p hp hw
    obtain ⟨hp₀, hw₀⟩ := hback p hp hw
    rw [hkb, hwoken]
    exact inv.enough p hp₀ hw₀

/-- A character wakes a sleeper if there is one, also when there is no room for it. -/
theorem key (inv : WakeupInv k) {sc scancode : BitVec 8}
    (step : k.Step code (.key sc scancode) k') : WakeupInv k' := by
  obtain ⟨settled, hkb, hsched, hreading, hwoken, -⟩ := step
  have hbuffered := keyboardHandler_buffered k.kb sc scancode
  rw [← hkb] at hbuffered
  by_cases hcalls : (keyboardHandler k.kb sc scancode).2 = true
  · rw [if_pos hcalls] at hsched hbuffered
    have hkeyWoken : k'.sched = k.sched.keyWoken := by
      have h : k.sched.schedulerWakeKeyWaiter = some k'.sched := hsched
      rw [schedulerWakeKeyWaiter_eq inv.sched.ring] at h
      exact (Option.some.inj h).symm
    have hback : ∀ p ∈ k'.sched.members, WaitsForKey (k'.sched.procs p) →
        p ∈ k.sched.members ∧ WaitsForKey (k.sched.procs p) :=
      fun p hp hw => waits_of_event inv.sched hsched (fun h => (by cases h)) hp hw
    refine ⟨inv.sched.of_event hsched, ?_, ?_, ?_⟩
    · intro p hp hw
      obtain ⟨hp₀, hw₀⟩ := hback p hp hw
      rw [hreading]
      exact inv.sleepers_read p hp₀ hw₀
    · intro p hp
      rw [hreading]
      rw [hwoken, Finset.mem_union] at hp
      rcases hp with hp | hp
      · exact inv.woken_event hsched hp (inv.woken_ne_current settled hp).1
      · obtain ⟨hmem, hw, hready⟩ := mem_madeReady.1 hp
        exact ⟨mem_of_event inv.sched hsched hmem, inv.sleepers_read p hmem hw, .inl hready⟩
    · intro p hp hw
      obtain ⟨hp₀, hw₀⟩ := hback p hp hw
      have hbefore := inv.enough p hp₀ hw₀
      obtain ⟨q, hq, hqw⟩ := madeReady_nonempty inv.sched hp₀ hw₀
      have hnew : q ∉ k.woken := by
        intro hq'
        have hready := (inv.woken_ne_current settled hq').2
        rw [WaitsForKey, hready] at hqw
        exact absurd hqw.1 (by decide)
      have hcard : (insert q k.woken).card ≤ k'.woken.card := by
        rw [hwoken, hkeyWoken]
        exact Finset.card_le_card (Finset.insert_subset (Finset.mem_union_right _ hq)
          Finset.subset_union_left)
      rw [Finset.card_insert_of_notMem hnew] at hcard
      omega
  · rw [if_neg hcalls] at hsched hbuffered
    have hnobody : madeReady k.sched k'.sched = ∅ := by
      ext p
      rw [mem_madeReady, hsched]
      refine ⟨fun h => ?_, fun h => absurd h (Finset.notMem_empty _)⟩
      rw [WaitsForKey, h.2.2] at h
      exact absurd h.2.1.1 (by decide)
    rw [hnobody, Finset.union_empty] at hwoken
    refine ⟨hsched ▸ inv.sched, ?_, ?_, ?_⟩
    · rw [hsched, hreading]
      exact inv.sleepers_read
    · rw [hsched, hreading, hwoken]
      exact inv.woken_ready
    · intro p hp hw
      rw [hsched] at hp hw
      have hbefore := inv.enough p hp hw
      rw [hwoken]
      omega

/-- The buffer may shrink. -/
theorem shrink (inv : WakeupInv k) (hsched : k'.sched = k.sched)
    (hchars : k'.kb.chars.buffered ≤ k.kb.chars.buffered) (hreading : k'.reading = k.reading)
    (hwoken : k'.woken = k.woken) : WakeupInv k' := by
  refine ⟨hsched ▸ inv.sched, ?_, ?_, fun p hp hw => ?_⟩
  · rw [hsched, hreading]
    exact inv.sleepers_read
  · rw [hsched, hreading, hwoken]
    exact inv.woken_ready
  · rw [hsched] at hp hw
    rw [hwoken]
    exact hchars.trans (inv.enough p hp hw)

/-- Only what the current process reads has changed, and it is not among the woken. -/
theorem updated (inv : WakeupInv k) (hsched : k'.sched = k.sched) {reader : Option Reading}
    (hreading : k'.reading = Function.update k.reading k.sched.current reader)
    (hwoken : ∀ p ∈ k'.woken, p ∈ k.woken ∧ p ≠ k.sched.current)
    (henough : k.kb.chars.buffered ≤ k.woken.card → k'.kb.chars.buffered ≤ k'.woken.card) :
    WakeupInv k' := by
  have hother : ∀ p, p ≠ k.sched.current → k'.reading p = k.reading p := by
    intro p hp
    rw [hreading, Function.update_of_ne hp]
  refine ⟨hsched ▸ inv.sched, fun p hp hw => ?_, fun p hp => ?_, fun p hp hw => ?_⟩
  · rw [hsched] at hp hw
    rw [hother p (inv.sleeper_ne_current hw)]
    exact inv.sleepers_read p hp hw
  · obtain ⟨hp, hne⟩ := hwoken p hp
    rw [hother p hne, hsched]
    exact inv.woken_ready p hp
  · rw [hsched] at hp hw
    exact henough (inv.enough p hp hw)

/-- A call of `sys_read` by a process outside of it. -/
theorem read (inv : WakeupInv k) {buf len : Word} (step : k.Step code (.read buf len) k') :
    WakeupInv k' := by
  obtain ⟨settled, -, hsched, hkb, hwoken, -, -, hreading⟩ := step
  refine inv.updated hsched hreading (fun p hp => ?_) fun henough => by rwa [hkb, hwoken]
  rw [hwoken] at hp
  exact ⟨hp, (inv.woken_ne_current settled hp).1⟩

/-- The process that is run is not among the woken any more. If it has taken a character, those that
    are left are still enough. -/
theorem returned (inv : WakeupInv k) (hsched : k'.sched = k.sched)
    (hreading : k'.reading = Function.update k.reading k.sched.current none)
    (hwoken : k'.woken = k.woken.erase k.sched.current)
    (htaken : k'.kb.chars.buffered + 1 ≤ k.kb.chars.buffered) : WakeupInv k' := by
  refine inv.updated hsched hreading (fun p hp => ?_) fun henough => ?_
  · rw [hwoken] at hp
    exact (Finset.mem_erase.1 hp).symm
  · have hcard := Finset.pred_card_le_card_erase (s := k.woken) (a := k.sched.current)
    rw [hwoken]
    omega

/-- If it has emptied the buffer and sleeps, none is needed. -/
theorem slept (inv : WakeupInv k) (hevent : k.sched.EventStep .read k'.sched) {regs : CalleeSaved}
    (hreading : k'.reading = Function.update k.reading k.sched.current (some (.waiting regs)))
    (hwoken : k'.woken = k.woken.erase k.sched.current) (hempty : k'.kb.chars.buffered = 0) :
    WakeupInv k' := by
  have hother : ∀ p, p ≠ k.sched.current → k'.reading p = k.reading p := by
    intro p hp
    rw [hreading, Function.update_of_ne hp]
  refine ⟨inv.sched.of_event hevent, fun p hp hw => ?_, fun p hp => ?_,
    fun _ _ _ => hempty ▸ Nat.zero_le _⟩
  · by_cases hpc : p = k.sched.current
    · rw [hreading, hpc, Function.update_self]
      simp
    · obtain ⟨hp₀, hw₀⟩ := waits_of_event inv.sched hevent (fun _ => hpc) hp hw
      rw [hother p hpc]
      exact inv.sleepers_read p hp₀ hw₀
  · rw [hwoken] at hp
    obtain ⟨hne, hp⟩ := Finset.mem_erase.1 hp
    rw [hother p hne]
    exact inv.woken_event hevent hp hne

/-- A run inside `sys_read` of a process that finds its return address. -/
theorem runRead (inv : WakeupInv k) (kept : k.ReturnKept code .runRead)
    (step : k.Step code .runRead k') : WakeupInv k' := by
  obtain ⟨reader, hreader, hcontinues, -, -, hwoken⟩ := step
  obtain ⟨call, hcall⟩ := k.resumed_of_kept kept hreader
  rw [hcall] at hcontinues
  obtain ⟨outcome, hrests, hrun⟩ := hcontinues
  obtain ⟨kb', mem', outcome', hrun', hends⟩ :=
    sysReadRun_spec k.kb (k.memory k.sched.current) call
  rw [hrun'] at hrun
  obtain ⟨rfl, -, rfl⟩ : kb' = k'.kb ∧ mem' = k'.memory k.sched.current ∧ outcome' = outcome := by
    simpa using hrun
  cases outcome' with
  | returned value =>
      exact inv.returned hrests.1 hrests.2 hwoken hends
  | waiting call' =>
      obtain ⟨hevent, -, regs, -, hreading⟩ := hrests
      exact inv.slept hevent hreading hwoken hends

/-- Every action keeps the invariant. -/
theorem step (inv : WakeupInv k) {a : KeyAction} (kept : k.ReturnKept code a)
    (step : k.Step code a k') : WakeupInv k' := by
  cases a with
  | sched e => exact inv.event step
  | key sc scancode => exact inv.key step
  | read buf len => exact inv.read step
  | runRead => exact inv.runRead kept step
  | leave =>
      obtain ⟨-, -, hsched, hkb, hreading, hwoken, -⟩ := step
      exact inv.shrink hsched (by rw [hkb]) hreading hwoken
  | getkey =>
      obtain ⟨-, -, hsched, hkb, hreading, hwoken, -⟩ := step
      exact inv.shrink hsched (hkb ▸ sysGetkey_buffered k.kb) hreading hwoken
  | getRawKey =>
      obtain ⟨-, -, hsched, hkb, hreading, hwoken, -⟩ := step
      exact inv.shrink hsched (by rw [hkb, keyboardGetEvent_chars]) hreading hwoken

end WakeupInv

/-- No wake-up is lost as long as whoever is resumed inside a system call finds its return address: in
    every state of every such run in which a process sleeps on the keyboard, there are at most as many
    characters in the buffer as readers that were woken and have not run since. If there is a
    character and no reader is just being run, one of these is ready. -/
theorem no_lost_key_wakeup (code : ReadCode) (s : Scheduler) (kb : Keyboard) (regs : CalleeSaved)
    (stack : ByteMem) (memory : Nat → ByteMem) (prepared : Prepared s)
    (actions : List KeyAction) (k : KeySystem)
    (run : Run (Guarded (KeySystem.ReturnKept code) (KeySystem.Step code))
      (KeySystem.start s kb regs stack memory) actions k)
    (p : Nat) (hp : p ∈ k.sched.members) (hw : WaitsForKey (k.sched.procs p)) :
    k.kb.chars.buffered ≤ k.woken.card ∧
      (∀ q ∈ k.woken, k.reading q ≠ none ∧
        ((k.sched.procs q).state = .ready ∨ q = k.sched.current)) ∧
      (0 < k.kb.chars.buffered → k.Settled →
        ∃ q ∈ k.woken, (k.sched.procs q).state = .ready ∧ k.reading q ≠ none) := by
  have inv : WakeupInv k :=
    run.invariant WakeupInv (fun _ _ _ inv step => inv.step step.1 step.2)
      (WakeupInv.start prepared kb regs stack memory)
  have henough := inv.enough p hp hw
  refine ⟨henough, fun q hq => (inv.woken_ready q hq).2, fun hchar settled => ?_⟩
  obtain ⟨q, hq⟩ := Finset.card_pos.1 (Nat.lt_of_lt_of_le hchar henough)
  exact ⟨q, hq, (inv.woken_ne_current settled hq).2, (inv.woken_ready q hq).2.1⟩

/-! ### Two readers -/

/-- Idle at address 1, processes at 2, 3 and 4. -/
def threeAdded : Scheduler := addBlank twoAdded 4

theorem threeAdded_prepared : Prepared threeAdded := by
  obtain ⟨boot, idle, added, hidle, run⟩ := twoAdded_prepared
  exact ⟨boot, idle, added ++ [(4, {})], hidle,
    run.append (.single ⟨by decide, by decide, rfl⟩)⟩

/-- `sys_read` as part of a dispatcher that saves six registers and makes room for three words more,
    with `buf`, `len` and `i` in `rbx`, `r12` and `rbp`; the stack ends at `0x120000`. -/
def compiledRead : ReadCode where
  slot := 0x11FF60
  resume := 0x100300
  locals := fun regs => ⟨regs.rbx, regs.r12, regs.rbp⟩

def zeroRegs : CalleeSaved := ⟨0, 0, 0, 0, 0, 0⟩

/-- The registers of a process that waits in `sys_read(0x8000200000, len)` for its first character. -/
def askedFor (len : Word) : CalleeSaved := { zeroRegs with rbx := 0x8000200000, r12 := len }

/-- The system call stack with a return address in the place that of `sys_read` has. -/
def stackWith (back : Word) : ByteMem := storeWord (fun _ => 0) compiledRead.slot back

/-- The scheduler after process 2, then process 3 has gone to sleep on the keyboard, after a key, and
    after two ticks more. -/
def oneAsleep : Scheduler := threeAdded.schedulerStart.sysReadBlock.getD blankBoot

def bothAsleep : Scheduler := oneAsleep.sysReadBlock.getD blankBoot

def oneWoken : Scheduler := bothAsleep.schedulerWakeKeyWaiter.getD blankBoot

def idleAgain : Scheduler := oneWoken.timerHandler.getD blankBoot

def wokenCurrent : Scheduler := idleAgain.timerHandler.getD blankBoot

/-- Processes 2 and 3 have called `sys_read` for one character and sleep. -/
def readersAsleep : KeySystem where
  sched := bothAsleep
  kb := Keyboard.empty
  regs := zeroRegs
  stack := stackWith compiledRead.resume
  memory := fun _ _ => 0
  reading := Function.update (Function.update (fun _ => none) 2 (some (.waiting (askedFor 1)))) 3
    (some (.waiting (askedFor 1)))
  paused := fun _ => none
  woken := ∅

/-- A key is pressed that has a character, and the scheduler comes to `s`. -/
def KeySystem.typed (k : KeySystem) (byte : BitVec 8) (s : Scheduler) : KeySystem :=
  { k with
    sched := s
    kb := (keyboardHandler k.kb byte byte).1
    woken := k.woken ∪ madeReady k.sched s }

/-- The timer ticks, and the scheduler comes to `s`. -/
def KeySystem.ticked (k : KeySystem) (s : Scheduler) : KeySystem := { k with sched := s }

theorem KeySystem.typed_step {k : KeySystem} {s : Scheduler} (code : ReadCode) (byte : BitVec 8)
    (settled : k.Settled) (hcalls : (keyboardHandler k.kb byte byte).2 = true)
    (hevent : k.sched.EventStep .key s) : k.Step code (.key byte byte) (k.typed byte s) := by
  refine ⟨settled, rfl, ?_, rfl, rfl, fun _ _ => rfl, rfl, rfl⟩
  rw [if_pos hcalls]
  exact hevent

theorem KeySystem.ticked_step {k : KeySystem} {s : Scheduler} (code : ReadCode)
    (settled : k.Settled) (hevent : k.sched.EventStep .timer s) :
    k.Step code (.sched .timer) (k.ticked s) :=
  ⟨settled, by decide, by decide, hevent, rfl, rfl, rfl, fun _ _ => rfl, rfl, fun _ => rfl⟩

/-- A process asks for characters and goes to sleep, the buffer being empty. -/
theorem asks_and_sleeps {s s' : Scheduler} {regs : CalleeSaved} {stack : ByteMem}
    {memory : Nat → ByteMem} {reading : Nat → Option Reading} {len : Word}
    (settled : reading s.current = none) (hidle : s.current ≠ s.idle) (hlen : len ≠ 0)
    (hevent : s.EventStep .read s') :
    Run (Guarded (KeySystem.ReturnKept compiledRead) (KeySystem.Step compiledRead))
      ⟨s, Keyboard.empty, regs, stack, memory, reading, fun _ => none, ∅⟩
      [.read 0x8000200000 len, .runRead]
      ⟨s', Keyboard.empty, zeroRegs, stackWith compiledRead.resume, memory,
        Function.update reading s.current (some (.waiting (askedFor len))), fun _ => none, ∅⟩ := by
  have henter : sysReadEnter 0x8000200000 len = some { buf := 0x8000200000, len := len } := by
    rw [sysReadEnter, if_neg (by simpa using hlen)]
  refine .cons (t := ⟨s, Keyboard.empty, regs, stack, memory, Function.update reading s.current
      (some (.entered { buf := 0x8000200000, len := len })), fun _ => none, ∅⟩)
    ⟨trivial, ⟨settled, rfl⟩, hidle, rfl, rfl, rfl, rfl, rfl, by rw [henter]; rfl⟩
    (.single ⟨fun regs hregs => ?_, .entered { buf := 0x8000200000, len := len }, ?_,
      ⟨.waiting { buf := 0x8000200000, len := len }, ⟨hevent, ?_, askedFor len, rfl, ?_⟩, rfl⟩,
      fun _ _ => rfl, rfl, rfl⟩)
  · have hentered : Function.update reading s.current
        (some (Reading.entered { buf := 0x8000200000, len := len })) s.current =
        some (.waiting regs) := hregs
    rw [Function.update_self] at hentered
    cases hentered
  · exact Function.update_self ..
  · exact loadWord_storeWord_self _ _ _
  · exact (Function.update_idem ..).symm

/-- What the scheduler does in the runs below. -/
theorem readers_sched :
    threeAdded.schedulerStart.EventStep .read oneAsleep ∧ oneAsleep.EventStep .read bothAsleep ∧
      bothAsleep.EventStep .key oneWoken ∧ oneWoken.EventStep .timer idleAgain ∧
      idleAgain.EventStep .timer wokenCurrent :=
  ⟨⟨by decide +kernel, eq_some_getD (by decide +kernel) _⟩,
    ⟨by decide +kernel, eq_some_getD (by decide +kernel) _⟩,
    eq_some_getD (by decide +kernel) _, eq_some_getD (by decide +kernel) _,
    eq_some_getD (by decide +kernel) _⟩

theorem readers_currents :
    threeAdded.schedulerStart.current = 2 ∧ oneAsleep.current = 3 ∧ bothAsleep.current = 4 ∧
      oneWoken.current = 4 ∧ idleAgain.current = 1 ∧ wokenCurrent.current = 2 := by
  decide +kernel

-- the runs below only use what has been said of these
attribute [irreducible] oneAsleep bothAsleep oneWoken idleAgain wokenCurrent

/-- The start of both runs: nobody has called anything yet. -/
def readersStart : KeySystem :=
  KeySystem.start threeAdded Keyboard.empty zeroRegs (fun _ => 0) (fun _ _ => 0)

theorem readersAsleep_run :
    Run (Guarded (KeySystem.ReturnKept compiledRead) (KeySystem.Step compiledRead)) readersStart
      [.read 0x8000200000 1, .runRead, .read 0x8000200000 1, .runRead] readersAsleep := by
  obtain ⟨hfirst, hsecond, -⟩ := readers_sched
  obtain ⟨htwo, hthree, -⟩ := readers_currents
  have first := @asks_and_sleeps _ _ zeroRegs (fun _ => 0) (fun _ _ => 0) (fun _ => none) 1 rfl
    hfirst.1 (by decide) hfirst
  rw [htwo] at first
  have second := @asks_and_sleeps _ _ zeroRegs (stackWith compiledRead.resume) (fun _ _ => 0)
    (Function.update (fun _ => none) 2 (some (.waiting (askedFor 1)))) 1 (by rw [hthree]; rfl)
    hsecond.1 (by decide) hsecond
  rw [hthree] at second
  exact first.append second

/-- Process 4 has the processor then. -/
theorem settled_of_current {k : KeySystem} (hreading : k.reading = readersAsleep.reading)
    (hpaused : k.paused = fun _ => none) (hcurrent : k.sched.current = 4 ∨ k.sched.current = 1) :
    k.Settled := by
  rw [KeySystem.Settled, hreading, hpaused]
  rcases hcurrent with h | h <;> rw [h] <;> exact ⟨rfl, rfl⟩

/-- The key A is pressed. -/
def readerWoken : KeySystem := readersAsleep.typed 0x1E oneWoken

/-- One of two readers is woken by a key and ready, the other one sleeps. -/
theorem no_lost_key_wakeup_two_readers :
    WaitsForKey (readerWoken.sched.procs 3) ∧ readerWoken.kb.chars.buffered = 1 ∧
      ∃ q ∈ readerWoken.woken, (readerWoken.sched.procs q).state = .ready ∧
        readerWoken.reading q ≠ none := by
  obtain ⟨-, -, hkey, -⟩ := readers_sched
  obtain ⟨-, -, hfour, hfour', -⟩ := readers_currents
  have hw : WaitsForKey (readerWoken.sched.procs 3) := by decide +kernel
  have hmem : 3 ∈ readerWoken.sched.members := by decide +kernel
  have hbuffered : readerWoken.kb.chars.buffered = 1 := by decide +kernel
  have step : Guarded (KeySystem.ReturnKept compiledRead) (KeySystem.Step compiledRead)
      readersAsleep (.key 0x1E 0x1E) readerWoken :=
    ⟨trivial, KeySystem.typed_step compiledRead 0x1E (settled_of_current rfl rfl (.inl hfour))
      (by decide +kernel) hkey⟩
  have run := readersAsleep_run.append (.single step)
  have h := no_lost_key_wakeup compiledRead threeAdded Keyboard.empty zeroRegs (fun _ => 0)
    (fun _ _ => 0) threeAdded_prepared _ readerWoken run 3 hmem hw
  exact ⟨hw, hbuffered,
    h.2.2 (by rw [hbuffered]; decide) (settled_of_current rfl rfl (.inl hfour'))⟩

/-! ### A reader that does not come back -/

/-- Process 4 has called `sys_read` with length 0, which returns at once. The dispatcher's first call,
    `scheduler_current()`, has left its return address where that of the readers was. -/
def slotTaken : KeySystem := { readersAsleep with stack := stackWith 0x100400 }

/-- The key A is pressed, and after two ticks the woken process is current. -/
def readerResumed : KeySystem := ((slotTaken.typed 0x1E oneWoken).ticked idleAgain).ticked wokenCurrent

/-- It has gone on behind the call of `scheduler_current()`. -/
def readerLost : KeySystem :=
  { readerResumed with
    reading := Function.update readersAsleep.reading 2 none
    woken := readerResumed.woken.erase 2 }

theorem readerResumed_run : Run (KeySystem.Step compiledRead) readersAsleep
    [.read 0x8000200000 0, .key 0x1E 0x1E, .sched .timer, .sched .timer] readerResumed := by
  obtain ⟨-, -, hkey, htick, hback⟩ := readers_sched
  obtain ⟨-, -, hfour, hfour', hone, -⟩ := readers_currents
  have hcurrent : readersAsleep.sched.current = 4 := hfour
  have hreturns : readersAsleep.Step compiledRead (.read 0x8000200000 0) slotTaken := by
    refine ⟨settled_of_current rfl rfl (.inl hfour), by decide +kernel, rfl, rfl, rfl, rfl, rfl, ?_⟩
    rw [hcurrent]
    exact (Function.update_eq_self 4 _).symm
  have hwoken := KeySystem.typed_step (k := slotTaken) compiledRead 0x1E
    (settled_of_current rfl rfl (.inl hfour)) (by decide +kernel) hkey
  have hidle := KeySystem.ticked_step (k := slotTaken.typed 0x1E oneWoken) compiledRead
    (settled_of_current rfl rfl (.inl hfour')) htick
  have hresumed := KeySystem.ticked_step (k := (slotTaken.typed 0x1E oneWoken).ticked idleAgain)
    compiledRead (settled_of_current rfl rfl (.inr hone)) hback
  exact .cons hreturns (.cons hwoken (.cons hidle (.single hresumed)))

/-- The word at the saved stack pointer is not the return address any more. -/
theorem readerResumed_lost : readerResumed.Step compiledRead .runRead readerLost := by
  have hslot : loadWord readerResumed.stack compiledRead.slot = 0x100400 :=
    loadWord_storeWord_self _ _ _
  have hcurrent : readerResumed.sched.current = 2 := readers_currents.2.2.2.2.2
  have hreading : readerResumed.reading = readersAsleep.reading := rfl
  refine ⟨.waiting (askedFor 1), by rw [hcurrent]; rfl, ?_, fun _ _ => rfl, rfl,
    by rw [hcurrent, readerLost]⟩
  rw [KeySystem.resumed, if_neg (by rw [hslot]; decide)]
  refine ⟨rfl, rfl, ?_⟩
  rw [hcurrent, hreading, readerLost]

/-- Two readers sleep, and the one that is woken does not come back into `sys_read`: a character is
    in the buffer, the other reader sleeps, and no reader is on its way. -/
theorem key_wakeup_lost :
    Run (KeySystem.Step compiledRead) readersStart
      [.read 0x8000200000 1, .runRead, .read 0x8000200000 1, .runRead, .read 0x8000200000 0,
        .key 0x1E 0x1E, .sched .timer, .sched .timer, .runRead] readerLost ∧
    3 ∈ readerLost.sched.members ∧ WaitsForKey (readerLost.sched.procs 3) ∧
    ¬ readerLost.kb.chars.buffered ≤ readerLost.woken.card ∧ readerLost.Settled ∧
    ∀ q, (readerLost.sched.procs q).state = .ready → readerLost.reading q = none := by
  have run := (readersAsleep_run.of_guarded.append readerResumed_run).append
    (.single readerResumed_lost)
  have hcurrent : readerLost.sched.current = 2 := readers_currents.2.2.2.2.2
  have hasleep : (readerLost.sched.procs 3).state = .blocked := by decide +kernel
  have hreading : readerLost.reading = Function.update readersAsleep.reading 2 none := rfl
  refine ⟨run, by decide +kernel, by decide +kernel, by decide +kernel, ?_, fun q hready => ?_⟩
  · rw [KeySystem.Settled, hcurrent]
    exact ⟨rfl, rfl⟩
  · have hthree : q ≠ 3 := by
      rintro rfl
      rw [hasleep] at hready
      cases hready
    rw [hreading]
    by_cases htwo : q = 2
    · rw [htwo, Function.update_self]
    · have hasked : readersAsleep.reading = Function.update (Function.update (fun _ => none) 2
          (some (.waiting (askedFor 1)))) 3 (some (.waiting (askedFor 1))) := by rw [readersAsleep]
      rw [Function.update_of_ne htwo, hasked, Function.update_of_ne hthree,
        Function.update_of_ne htwo]

end CustomKernel
