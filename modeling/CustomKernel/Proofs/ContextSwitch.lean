/-
Module: CustomKernel.Proofs.ContextSwitch
Layer: Proofs
Purpose: What a suspended C function finds when it is resumed. `context_switch` keeps the stack
  pointer of the process it leaves and nothing else of its register file, so the call returns where
  it was made, with the stack it was made with, and with the registers of whoever switched back.
Imports: CustomKernel.Process.Cpu, CustomKernel.Library.Runs
Trusted boundary: none (fully proved)
Main exports: CalleeSaved, SysVReturn, callContextSwitch, Between, Resumed, context_switch_resumes
-/
import CustomKernel.Process.Cpu
import CustomKernel.Library.Runs

namespace CustomKernel

open ByteMemory StepSystem

/-! ### Calls of `context_switch` -/

/-- The registers a C function expects back from a call, `rsp` apart. -/
structure CalleeSaved where
  rbx : Word
  rbp : Word
  r12 : Word
  r13 : Word
  r14 : Word
  r15 : Word
deriving DecidableEq, Repr

/-- The callee-saved registers of a register file. -/
def Cpu.calleeSaved (c : Cpu) : CalleeSaved where
  rbx := c.rbx
  rbp := c.rbp
  r12 := c.r12
  r13 := c.r13
  r14 := c.r14
  r15 := c.r15

/-- What a C function may do by the SysV convention, called in `m`, with its return address on the
    stack, and returning in `m'`: it gives `rsp` and the callee-saved registers back and leaves the
    stack of its caller alone, up to `top`. The other registers and the flags are its own. -/
structure SysVReturn (top : Word) (m m' : Machine) : Prop where
  rsp : m'.cpu.rsp = m.cpu.rsp + 8
  calleeSaved : m'.cpu.calleeSaved = m.cpu.calleeSaved
  stack : ∀ a, m.cpu.rsp.toNat + 8 ≤ a → a < top.toNat → m'.mem a = m.mem a

namespace Machine

/-- The call `context_switch(curr, next)` of C code, whose return address is `after`. -/
def callContextSwitch (m : Machine) (curr next after : Word) : Machine :=
  contextSwitch
    (Machine.call { m with cpu := { m.cpu with rdi := curr, rsi := next } } after)

/-- Where `process_t` keeps the stack pointer of a suspended process. -/
def savedRsp (p : Word) : Word := p + processContextRsp

/-- Where a call pushes its return address. -/
def returnSlot (m : Machine) : Word := m.cpu.rsp - 8

/-- Memory after a call of `context_switch`: the return address and the saved stack pointer. -/
theorem callContextSwitch_mem (m : Machine) (curr next after : Word) :
    (m.callContextSwitch curr next after).mem =
      storeWord (storeWord m.mem m.returnSlot after) (savedRsp curr) m.returnSlot :=
  rfl

/-- The stack pointer is the one saved for `next`, above the return address it points to. -/
theorem callContextSwitch_rsp (m : Machine) (curr next after : Word) :
    (m.callContextSwitch curr next after).cpu.rsp =
      loadWord (m.callContextSwitch curr next after).mem (savedRsp next) + 8 :=
  rfl

/-- Execution goes on at the return address on the stack of `next`. -/
theorem callContextSwitch_rip (m : Machine) (curr next after : Word) :
    (m.callContextSwitch curr next after).cpu.rip =
      loadWord (m.callContextSwitch curr next after).mem
        (loadWord (m.callContextSwitch curr next after).mem (savedRsp next)) :=
  rfl

/-- No callee-saved register is written. -/
theorem callContextSwitch_calleeSaved (m : Machine) (curr next after : Word) :
    (m.callContextSwitch curr next after).cpu.calleeSaved = m.cpu.calleeSaved := by
  dsimp only [Cpu.calleeSaved, callContextSwitch, contextSwitch, Machine.ret, Machine.pop,
    Machine.call, Machine.push]

/-! ### While a process is suspended -/

/-- The words at `slot` and `frame` are the same in both states. -/
def WordsKept (slot frame : Word) (m m' : Machine) : Prop :=
  loadWord m'.mem slot = loadWord m.mem slot ∧ loadWord m'.mem frame = loadWord m.mem frame

/-- A call of `context_switch` by `curr` writes neither of the words at `slot` and `frame`. -/
def Spares (slot frame : Word) (m : Machine) (curr : Word) : Prop :=
  (WordsApart slot m.returnSlot ∧ WordsApart frame m.returnSlot) ∧
    WordsApart slot (savedRsp curr) ∧ WordsApart frame (savedRsp curr)

instance (slot frame : Word) (m : Machine) (curr : Word) : Decidable (Spares slot frame m curr) :=
  inferInstanceAs (Decidable ((_ ∧ _) ∧ _ ∧ _))

/-- What runs while a process is suspended. -/
inductive Activity where
  /-- Any code, of the kernel or of a process. -/
  | code
  | switch (curr next after : Word)
deriving DecidableEq, Repr

/-- Code may leave anything in the registers and in memory, other processes may switch among
    themselves, but nothing writes the two words that are the suspended process's own: its saved
    stack pointer at `slot` and the return address at `frame`. -/
def Between (slot frame : Word) (m : Machine) : Activity → Machine → Prop
  | .code, m' => WordsKept slot frame m m'
  | .switch curr next after, m' =>
      Spares slot frame m curr ∧ m' = m.callContextSwitch curr next after

variable {slot frame : Word} {m m' : Machine} {activities : List Activity}

/-- A call by another process leaves the two words alone. -/
theorem Spares.words {curr : Word} (h : Spares slot frame m curr) (next after : Word) :
    WordsKept slot frame m (m.callContextSwitch curr next after) := by
  obtain ⟨⟨hslotReturn, hframeReturn⟩, hslotSaved, hframeSaved⟩ := h
  rw [WordsKept, callContextSwitch_mem]
  constructor
  · rw [loadWord_storeWord_apart hslotSaved, loadWord_storeWord_apart hslotReturn]
  · rw [loadWord_storeWord_apart hframeSaved, loadWord_storeWord_apart hframeReturn]

/-- One activity keeps the two words. -/
theorem Between.words {activity : Activity} (h : Between slot frame m activity m') :
    WordsKept slot frame m m' := by
  cases activity with
  | code =>
      exact h
  | switch curr next after =>
      obtain ⟨hspares, rfl⟩ := h
      exact hspares.words next after

/-- Any number of activities keeps the two words. -/
theorem between_words (run : Run (Between slot frame) m activities m') :
    WordsKept slot frame m m' := by
  refine run.invariant (WordsKept slot frame m) ?_ ⟨rfl, rfl⟩
  intro t activity t' ht hstep
  have hwords := hstep.words
  exact ⟨hwords.1.trans ht.1, hwords.2.trans ht.2⟩

/-! ### Resuming it -/

/-- The call made in the state `m`, with return address `after`, has returned in the state `m'` the
    way a C caller expects it to. -/
structure Resumed (m : Machine) (after : Word) (m' : Machine) : Prop where
  rip : m'.cpu.rip = after
  rsp : m'.cpu.rsp = m.cpu.rsp
  calleeSaved : m'.cpu.calleeSaved = m.cpu.calleeSaved

/-- After its own call the two words of a process are its return address and its stack pointer. -/
theorem callContextSwitch_words {a after : Word} (h : WordsApart m.returnSlot (savedRsp a))
    (b : Word) :
    loadWord (m.callContextSwitch a b after).mem (savedRsp a) = m.returnSlot ∧
      loadWord (m.callContextSwitch a b after).mem m.returnSlot = after := by
  rw [callContextSwitch_mem]
  constructor
  · exact loadWord_storeWord_self _ _ _
  · rw [loadWord_storeWord_apart h, loadWord_storeWord_self]

/-- Whatever ran in between, the switch back to `a` returns from its call, on its stack. -/
theorem resumed_rip_rsp {a b x after after' : Word} {m₂ : Machine}
    (hlayout : WordsApart m.returnSlot (savedRsp a))
    (between : Run (Between (savedRsp a) m.returnSlot) (m.callContextSwitch a b after)
      activities m₂)
    (hx : Spares (savedRsp a) m.returnSlot m₂ x) :
    (m₂.callContextSwitch x a after').cpu.rip = after ∧
      (m₂.callContextSwitch x a after').cpu.rsp = m.cpu.rsp := by
  obtain ⟨hslot, hframe⟩ := callContextSwitch_words hlayout b
  obtain ⟨hslotRun, hframeRun⟩ := between_words between
  obtain ⟨hslotBack, hframeBack⟩ := hx.words a after'
  have hsaved : loadWord (m₂.callContextSwitch x a after').mem (savedRsp a) = m.returnSlot := by
    rw [hslotBack, hslotRun, hslot]
  constructor
  · rw [callContextSwitch_rip, hsaved, hframeBack, hframeRun, hframe]
  · rw [callContextSwitch_rsp, hsaved, returnSlot, BitVec.sub_add_cancel]

/-- The call of a suspended process returns on its stack in every case, and with its callee-saved
    registers exactly if these registers happen to hold its values when it is switched back to. -/
theorem context_switch_resumes (a b x after after' : Word) (m m₂ : Machine)
    (activities : List Activity)
    (hlayout : WordsApart m.returnSlot (savedRsp a))
    (between : Run (Between (savedRsp a) m.returnSlot) (m.callContextSwitch a b after)
      activities m₂)
    (hx : Spares (savedRsp a) m.returnSlot m₂ x) :
    ((m₂.callContextSwitch x a after').cpu.rip = after ∧
      (m₂.callContextSwitch x a after').cpu.rsp = m.cpu.rsp) ∧
    (Resumed m after (m₂.callContextSwitch x a after') ↔
      m₂.cpu.calleeSaved = m.cpu.calleeSaved) := by
  obtain ⟨hrip, hrsp⟩ := resumed_rip_rsp hlayout between hx
  refine ⟨⟨hrip, hrsp⟩, fun h => ?_, fun h => ?_⟩
  · rw [← callContextSwitch_calleeSaved m₂ x a after']
    exact h.calleeSaved
  · refine ⟨hrip, hrsp, ?_⟩
    rw [callContextSwitch_calleeSaved, h]

/-- A process with descriptor `0x1000` about to give way to one with descriptor `0x2000`, whose
    kernel stack holds the return address `0x100200`. A C function keeps 7 in `rbx`. -/
def givingWay : Machine where
  cpu := { rsp := 0x9000, rbx := 7 }
  mem := storeWord (storeWord (fun _ => 0) (savedRsp 0x2000) 0xA000) 0xA000 0x100200
  kernelStackTop := 0x8000
  userRspTmp := 0

/-- The second process has called `scheduler_tick` in turn, with some value of its own in `rbx`. -/
def givenBack (rbx : Word) : Machine :=
  let m := givingWay.callContextSwitch 0x1000 0x2000 0x100100
  { m with cpu := { m.cpu with rsp := 0xA100, rbx := rbx } }

theorem givenBack_between (rbx : Word) :
    Run (Between (savedRsp 0x1000) givingWay.returnSlot)
      (givingWay.callContextSwitch 0x1000 0x2000 0x100100) [.code] (givenBack rbx) :=
  Run.single ⟨rfl, rfl⟩

theorem givenBack_spares (rbx : Word) :
    Spares (savedRsp 0x1000) givingWay.returnSlot (givenBack rbx) 0x2000 := by
  have hreturn : (givenBack rbx).returnSlot = 0xA100 - 8 := rfl
  rw [Spares, hreturn]
  decide

/-- If the second process happens to have 7 in `rbx` too, the call returns as it should. -/
theorem context_switch_resumes_same_rbx :
    Resumed givingWay 0x100100 ((givenBack 7).callContextSwitch 0x2000 0x1000 0x100300) :=
  ((context_switch_resumes 0x1000 0x2000 0x2000 0x100100 0x100300 givingWay (givenBack 7) [.code]
    (by decide) (givenBack_between 7) (givenBack_spares 7)).2).2 rfl

/-- With 1 there, the first process goes on with 1 in the place of its 7. -/
theorem context_switch_loses_rbx :
    Run (Between (savedRsp 0x1000) givingWay.returnSlot)
      (givingWay.callContextSwitch 0x1000 0x2000 0x100100) [.code] (givenBack 1) ∧
    Spares (savedRsp 0x1000) givingWay.returnSlot (givenBack 1) 0x2000 ∧
    ((givenBack 1).callContextSwitch 0x2000 0x1000 0x100300).cpu.rbx = 1 ∧
    ¬ Resumed givingWay 0x100100 ((givenBack 1).callContextSwitch 0x2000 0x1000 0x100300) := by
  have hrbx : ((givenBack 1).callContextSwitch 0x2000 0x1000 0x100300).cpu.rbx = 1 := by
    have hsaved := callContextSwitch_calleeSaved (givenBack 1) 0x2000 0x1000 0x100300
    exact congrArg CalleeSaved.rbx hsaved
  refine ⟨givenBack_between 1, givenBack_spares 1, hrbx, fun h => ?_⟩
  have hkept : ((givenBack 1).callContextSwitch 0x2000 0x1000 0x100300).cpu.rbx = 7 :=
    congrArg CalleeSaved.rbx h.calleeSaved
  rw [hrbx] at hkept
  exact absurd hkept (by decide)

end Machine

end CustomKernel
