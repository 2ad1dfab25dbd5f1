/-
Module: CustomKernel.Proofs.InterruptFrame
Layer: Proofs
Purpose: An interrupt is invisible to what it interrupts. The processor and a stub together push 22
  words, the same ones in the same order for every vector that has its error code where the stub
  expects it; these words are the `registers_t` the handlers get, and the stubs and the `iretq` load
  them back.
Imports: CustomKernel.Cpu.Isr, CustomKernel.Proofs.ContextSwitch, CustomKernel.Proofs.SyscallFrame,
  CustomKernel.Library.Bits
Trusted boundary: the C handler is any function that keeps to the SysV convention
Main exports: Context.registers, Registers.context, Context.trapStack, enter, HoldsRegisters,
  enter_mem, enter_holds, return_context, interrupt_round_trip
-/
import CustomKernel.Cpu.Isr
import CustomKernel.Proofs.ContextSwitch
import CustomKernel.Proofs.SyscallFrame
import CustomKernel.Library.Bits

namespace CustomKernel

open ByteMemory

/-! ### Contexts and frames -/

/-- The `registers_t` of a context interrupted by vector `n`. -/
def Context.registers (c : Context) (n : Nat) (err : Word) : Registers where
  r15 := c.cpu.r15
  r14 := c.cpu.r14
  r13 := c.cpu.r13
  r12 := c.cpu.r12
  r11 := c.cpu.r11
  r10 := c.cpu.r10
  r9 := c.cpu.r9
  r8 := c.cpu.r8
  rbp := c.cpu.rbp
  rdi := c.cpu.rdi
  rsi := c.cpu.rsi
  rdx := c.cpu.rdx
  rcx := c.cpu.rcx
  rbx := c.cpu.rbx
  rax := c.cpu.rax
  intNo := BitVec.ofNat 64 n
  errCode := err
  rip := c.cpu.rip
  cs := c.cs
  rflags := c.cpu.rflags
  rsp := c.cpu.rsp
  ss := c.ss

/-- The context a `registers_t` stands for, in the address space that is loaded. -/
def Registers.context (r : Registers) (cr3 : Word) : Context where
  cpu := { r15 := r.r15, r14 := r.r14, r13 := r.r13, r12 := r.r12, r11 := r.r11, r10 := r.r10,
           r9 := r.r9, r8 := r.r8, rbp := r.rbp, rdi := r.rdi, rsi := r.rsi, rdx := r.rdx,
           rcx := r.rcx, rbx := r.rbx, rax := r.rax, rip := r.rip, rflags := r.rflags,
           rsp := r.rsp, cr3 := cr3 }
  cs := r.cs
  ss := r.ss

/-- A context with another address space loaded. -/
def Context.withCr3 (c : Context) (cr3 : Word) : Context := { c with cpu := { c.cpu with cr3 := cr3 } }

/-- Nothing of the context is lost in its `registers_t`. -/
theorem Context.registers_context (c : Context) (n : Nat) (err cr3 : Word) :
    (c.registers n err).context cr3 = c.withCr3 cr3 := rfl

/-- Where the frame of an interrupt starts. -/
def Context.trapStack (c : Context) (rsp0 : Word) : Word :=
  (if c.User then rsp0 else c.cpu.rsp) &&& ~~~15

/-- The address of the `registers_t` of an interrupt. -/
def Context.trapFrame (c : Context) (rsp0 : Word) : Word := c.trapStack rsp0 - 176

/-- Memory holds a `registers_t` at an address. -/
def HoldsRegisters (mem : ByteMem) (regs : Word) (r : Registers) : Prop :=
  ∀ k w, r.words[k]? = some w → loadWord mem (regs + BitVec.ofNat 64 (8 * k)) = w

/-- A `registers_t` stays where it is as long as its 176 bytes do. -/
theorem HoldsRegisters.congr {mem mem' : ByteMem} {regs : Word} {r : Registers}
    (h : HoldsRegisters mem regs r) (hroom : regs.toNat + 176 ≤ 2 ^ 64)
    (hsame : ∀ a, regs.toNat ≤ a → a < regs.toNat + 176 → mem' a = mem a) :
    HoldsRegisters mem' regs r := by
  intro k w hw
  have hk : k < 22 := (List.getElem?_eq_some_iff.1 hw).1
  have haddr : (regs + BitVec.ofNat 64 (8 * k)).toNat = regs.toNat + 8 * k := by
    rw [BitVec.toNat_add, BitVec.toNat_ofNat]
    omega
  rw [loadWord_congr fun a hlo hhi => hsame a (by omega) (by omega)]
  exact h k w hw

namespace Machine

variable {m m' : Machine} {c : Context} {r : Registers} {regs : Word}

/-- The pointer a handler gets leads to the `registers_t` that memory holds. -/
theorem registers_of_holds (h : HoldsRegisters m.mem regs r) : m.registers regs = r := by
  simp only [registers]
  rw [h 0 r.r15 rfl, h 1 r.r14 rfl, h 2 r.r13 rfl, h 3 r.r12 rfl, h 4 r.r11 rfl, h 5 r.r10 rfl,
    h 6 r.r9 rfl, h 7 r.r8 rfl, h 8 r.rbp rfl, h 9 r.rdi rfl, h 10 r.rsi rfl, h 11 r.rdx rfl,
    h 12 r.rcx rfl, h 13 r.rbx rfl, h 14 r.rax rfl, h 15 r.intNo rfl, h 16 r.errCode rfl,
    h 17 r.rip rfl, h 18 r.cs rfl, h 19 r.rflags rfl, h 20 r.rsp rfl, h 21 r.ss rfl]

/-! ### The way in -/

theorem pushAll_append : ∀ (first second : List Word) (m : Machine),
    m.pushAll (first ++ second) = (m.pushAll first).pushAll second
  | [], _, _ => rfl
  | w :: first, second, m => pushAll_append first second (m.push w)

/-- An interrupt of vector `n`, up to the first instruction of the dispatcher. -/
def enter (m : Machine) (c : Context) (rsp0 : Word) (err : Option Word) (target : Word) (n : Nat)
    (next : Word) : Machine :=
  ((m.interrupt c rsp0 err target).isrStub n).isrCommonStub next

/-- The registers of the handler: only `rsp`, `rip` and the flags have changed. -/
def handlerCpu (c : Context) (stack target : Word) : Cpu :=
  { c.cpu with rsp := stack, rip := target, rflags := c.cpu.rflags &&& ~~~gateFlags }

theorem pushWords_append : ∀ (first second : List Word) (mem : ByteMem) (sp : Word),
    pushWords mem sp (first ++ second) =
      pushWords (pushWords mem sp first) (sp - BitVec.ofNat 64 (8 * first.length)) second
  | [], _, _, sp => by simp [pushWords]
  | w :: first, second, mem, sp => by
      have hsp : sp - 8 - BitVec.ofNat 64 (8 * first.length) =
          sp - BitVec.ofNat 64 (8 * (first.length + 1)) := by bv_omega
      rw [List.cons_append, pushWords, pushWords_append first second, hsp, pushWords,
        List.length_cons]

/-- The words of the processor. -/
def contextWords (c : Context) : List Word := [c.ss, c.cpu.rsp, c.cpu.rflags, c.cs, c.cpu.rip]

theorem interrupt_pushes (m : Machine) (c : Context) (rsp0 target : Word) (err : Option Word) :
    (m.interrupt c rsp0 err target).mem =
        pushWords m.mem (c.trapStack rsp0) (contextWords c ++ err.toList) ∧
      (m.interrupt c rsp0 err target).cpu =
        handlerCpu c
          (c.trapStack rsp0 - BitVec.ofNat 64 (8 * (contextWords c ++ err.toList).length)) target := by
  simp only [interrupt, pushAll_mem, pushAll_cpu]
  exact ⟨rfl, rfl⟩

/-- The words of a stub. -/
def stubWords (n : Nat) : List Word := (if isrErr n then [] else [0]) ++ [BitVec.ofNat 64 n]

theorem isrStub_pushes (m : Machine) (n : Nat) : m.isrStub n = m.pushAll (stubWords n) := by
  unfold isrStub stubWords
  split
  · rfl
  · rfl

/-- With the error code where the stub expects it, seven words stand on the stack behind it. -/
theorem entry_words (c : Context) {err : Option Word} {n : Nat} (herr : err.isSome = isrErr n) :
    (contextWords c ++ err.toList) ++ stubWords n =
      contextWords c ++ [err.getD 0, BitVec.ofNat 64 n] := by
  unfold stubWords
  cases err with
  | none =>
      rw [if_neg (by rw [← herr]; decide)]
      rfl
  | some e =>
      have hisr : isrErr n = true := herr.symm
      rw [if_pos hisr]
      rfl

theorem sub_ofNat_sub (w : Word) (a b : Nat) :
    w - BitVec.ofNat 64 a - BitVec.ofNat 64 b = w - BitVec.ofNat 64 (a + b) := by
  bv_omega

/-- Once the stub has pushed its number, the rows of pushes for all vectors look alike. -/
theorem stub_pushes (m : Machine) (c : Context) {rsp0 target : Word} {err : Option Word} {n : Nat}
    (herr : err.isSome = isrErr n) :
    ((m.interrupt c rsp0 err target).isrStub n).mem =
        pushWords m.mem (c.trapStack rsp0)
          (contextWords c ++ [err.getD 0, BitVec.ofNat 64 n]) ∧
      ((m.interrupt c rsp0 err target).isrStub n).cpu =
        handlerCpu c (c.trapStack rsp0 - 56) target := by
  obtain ⟨hmem, hcpu⟩ := interrupt_pushes m c rsp0 target err
  rw [isrStub_pushes, pushAll_mem, pushAll_cpu, hmem, hcpu]
  constructor
  · rw [← entry_words c herr, pushWords_append _ (stubWords n)]
    rfl
  · have hlength := congrArg List.length (entry_words c herr)
    rw [List.length_append] at hlength
    have hrsp : (handlerCpu c (c.trapStack rsp0 -
        BitVec.ofNat 64 (8 * (contextWords c ++ err.toList).length)) target).rsp -
          BitVec.ofNat 64 (8 * (stubWords n).length) = c.trapStack rsp0 - 56 := by
      show c.trapStack rsp0 - BitVec.ofNat 64 (8 * (contextWords c ++ err.toList).length) -
        BitVec.ofNat 64 (8 * (stubWords n).length) = _
      rw [sub_ofNat_sub, ← Nat.mul_add, hlength]
      rfl
    rw [hrsp]
    rfl

/-- The words of the common stub. -/
def generalWords (c : Cpu) : List Word :=
  [c.rax, c.rbx, c.rcx, c.rdx, c.rsi, c.rdi, c.rbp, c.r8, c.r9, c.r10, c.r11, c.r12, c.r13, c.r14,
    c.r15]

theorem isrCommonStub_pushes (m : Machine) (next : Word) :
    (m.isrCommonStub next).mem =
        storeWord (pushWords m.mem m.cpu.rsp (generalWords m.cpu))
          (m.cpu.rsp - BitVec.ofNat 64 (8 * (generalWords m.cpu).length) - 8) next ∧
      (m.isrCommonStub next).cpu =
        { m.cpu with
          rdi := m.cpu.rsp - BitVec.ofNat 64 (8 * (generalWords m.cpu).length)
          rsp := m.cpu.rsp - BitVec.ofNat 64 (8 * (generalWords m.cpu).length) - 8 } := by
  simp only [isrCommonStub, Machine.call, Machine.push, pushAll_mem, pushAll_cpu]
  exact ⟨rfl, rfl⟩

/-- Below the seven words of the processor and the stub come the general registers. -/
theorem words_reverse (c : Context) (n : Nat) (err : Word) :
    (c.registers n err).words.reverse =
      (contextWords c ++ [err, BitVec.ofNat 64 n]) ++ generalWords c.cpu := rfl

/-- Pushing writes below the stack pointer, as far as the words reach. -/
theorem pushWords_outside : ∀ (ws : List Word) (mem : ByteMem) (sp : Word),
    8 * ws.length ≤ sp.toNat → ∀ a, a < sp.toNat - 8 * ws.length ∨ sp.toNat ≤ a →
      pushWords mem sp ws a = mem a
  | [], _, _, _, _, _ => rfl
  | w :: ws, mem, sp, hroom, a, ha => by
      rw [List.length_cons] at hroom ha
      have hsp := @toNat_sub_eight sp (by omega)
      rw [pushWords, pushWords_outside ws _ _ (by omega) a (by omega), storeWord,
        store_outside (by omega)]

/-- What an interrupt writes: the frame, and below it the return address of the dispatcher. -/
theorem enter_mem (m : Machine) (c : Context) {rsp0 target next : Word} {err : Option Word} {n : Nat}
    (herr : err.isSome = isrErr n) :
    (m.enter c rsp0 err target n next).mem =
      storeWord
        (pushWords m.mem (c.trapStack rsp0) (c.registers n (err.getD 0)).words.reverse)
        (c.trapFrame rsp0 - 8) next := by
  obtain ⟨hmem, hcpu⟩ := @stub_pushes m c rsp0 target err n herr
  rw [enter, (isrCommonStub_pushes _ _).1, hmem, hcpu, words_reverse,
    pushWords_append _ (generalWords c.cpu)]
  have hsp : (handlerCpu c (c.trapStack rsp0 - 56) target).rsp -
      BitVec.ofNat 64 (8 * (generalWords (handlerCpu c (c.trapStack rsp0 - 56) target)).length) - 8 =
        c.trapFrame rsp0 - 8 := by
    show c.trapStack rsp0 - BitVec.ofNat 64 56 - BitVec.ofNat 64 120 - 8 = _
    rw [sub_ofNat_sub]
    rfl
  rw [hsp]
  rfl

/-- The dispatcher is called with a pointer to the frame. -/
theorem enter_cpu (m : Machine) (c : Context) {rsp0 target next : Word} {err : Option Word} {n : Nat}
    (herr : err.isSome = isrErr n) :
    (m.enter c rsp0 err target n next).cpu =
      { handlerCpu c (c.trapFrame rsp0 - 8) target with rdi := c.trapFrame rsp0 } := by
  obtain ⟨-, hcpu⟩ := @stub_pushes m c rsp0 target err n herr
  rw [enter, (isrCommonStub_pushes _ _).2, hcpu]
  have hsp : (handlerCpu c (c.trapStack rsp0 - 56) target).rsp -
      BitVec.ofNat 64 (8 * (generalWords (handlerCpu c (c.trapStack rsp0 - 56) target)).length) =
        c.trapFrame rsp0 := by
    show c.trapStack rsp0 - BitVec.ofNat 64 56 - BitVec.ofNat 64 120 = _
    rw [sub_ofNat_sub]
    rfl
  rw [hsp]
  rfl

/-- There is room for the frame and the return address. -/
def RoomFor (c : Context) (rsp0 : Word) : Prop := 184 ≤ (c.trapStack rsp0).toNat

instance (c : Context) (rsp0 : Word) : Decidable (RoomFor c rsp0) :=
  inferInstanceAs (Decidable (_ ≤ _))

theorem RoomFor.frame {rsp0 : Word} (h : RoomFor c rsp0) :
    (c.trapFrame rsp0).toNat + 176 = (c.trapStack rsp0).toNat ∧ 8 ≤ (c.trapFrame rsp0).toNat := by
  unfold RoomFor at h
  unfold Context.trapFrame
  bv_omega

/-- The frame in memory is the `registers_t` of the interrupted context. -/
theorem enter_holds (m : Machine) {rsp0 target next : Word} {err : Option Word} {n : Nat}
    (herr : err.isSome = isrErr n) (hroom : RoomFor c rsp0) :
    HoldsRegisters (m.enter c rsp0 err target n next).mem (c.trapFrame rsp0)
      (c.registers n (err.getD 0)) := by
  obtain ⟨hframe, hlow⟩ := hroom.frame
  have hlt := (c.trapStack rsp0).isLt
  intro k w hw
  have hk : k < 22 := (List.getElem?_eq_some_iff.1 hw).1
  have haddr : (c.trapFrame rsp0 + BitVec.ofNat 64 (8 * k)).toNat =
      (c.trapFrame rsp0).toNat + 8 * k := by
    rw [BitVec.toNat_add, BitVec.toNat_ofNat]
    omega
  have hword : c.trapFrame rsp0 + BitVec.ofNat 64 (8 * k) = stackWord (c.trapStack rsp0) (21 - k) := by
    apply BitVec.eq_of_toNat_eq
    rw [haddr, stackWord, BitVec.toNat_sub_of_le, BitVec.toNat_ofNat]
    · omega
    · rw [BitVec.le_def, BitVec.toNat_ofNat]
      omega
  have hreturn : (c.trapFrame rsp0 - 8).toNat = (c.trapFrame rsp0).toNat - 8 := toNat_sub_eight hlow
  rw [enter_mem m c herr, loadWord_storeWord_apart (.inr (by rw [haddr, hreturn]; omega)), hword]
  refine pushWords_word _ _ _ ?_ (21 - k) w ?_
  · show 8 * 22 ≤ _
    omega
  · rw [List.getElem?_reverse (show 21 - k < 22 by omega)]
    show (c.registers n (err.getD 0)).words[22 - 1 - (21 - k)]? = some w
    rwa [show 22 - 1 - (21 - k) = k by omega]

/-- An interrupt writes to the 184 bytes below the stack it uses, and nowhere else. -/
theorem enter_outside (m : Machine) {rsp0 target next : Word} {err : Option Word} {n : Nat}
    (herr : err.isSome = isrErr n) (hroom : RoomFor c rsp0) {a : Nat}
    (ha : a < (c.trapFrame rsp0).toNat - 8 ∨ (c.trapStack rsp0).toNat ≤ a) :
    (m.enter c rsp0 err target n next).mem a = m.mem a := by
  obtain ⟨hframe, hlow⟩ := hroom.frame
  have hreturn : (c.trapFrame rsp0 - 8).toNat = (c.trapFrame rsp0).toNat - 8 := toNat_sub_eight hlow
  rw [enter_mem m c herr, storeWord, store_outside (by rw [hreturn]; omega)]
  exact pushWords_outside _ _ _ (by show 8 * 22 ≤ _; omega) a (by show a < _ - 8 * 22 ∨ _; omega)

/-! ### The way back -/

/-- The stubs and the `iretq` load whatever stands in the frame. -/
theorem return_context (m : Machine) : m.isrCommonReturn.iretq =
    (m.registers m.cpu.rsp).context m.cpu.cr3 := by
  have hpopped : ∀ i : Nat, m.isrCommonReturn.popped i =
      loadWord m.mem (m.cpu.rsp + BitVec.ofNat 64 (8 * (17 + i))) := by
    intro i
    have haddr : m.cpu.rsp + 120 + 16 + BitVec.ofNat 64 (8 * i) =
        m.cpu.rsp + BitVec.ofNat 64 (8 * (17 + i)) := by bv_omega
    rw [← haddr]
    rfl
  simp only [iretq, iretFrame, hpopped]
  rfl

/-! ### There and back -/

theorem stack_aligned (w : Word) : (w &&& ~~~15).toNat % 16 = 0 := by
  have hmask : (15 : Word) = BitVec.ofNat 64 (2 ^ 4 - 1) := rfl
  rw [hmask, Bits.toNat_and_not_lowMask w (by decide)]
  omega

/-- The stack pointer at the call of a dispatcher is aligned as the calling convention wants it. -/
theorem trapFrame_aligned {rsp0 : Word} (hroom : RoomFor c rsp0) :
    (c.trapFrame rsp0).toNat % 16 = 0 := by
  have haligned : (c.trapStack rsp0).toNat % 16 = 0 := stack_aligned _
  have hframe := hroom.frame.1
  omega

/-- The interrupt flag is clear in a handler. -/
theorem handlerCpu_flags (c : Context) (stack target : Word) :
    (handlerCpu c stack target).rflags &&& 0x200 = 0#64 := by
  show c.cpu.rflags &&& ~~~gateFlags &&& 0x200 = 0#64
  have hmask : ~~~gateFlags &&& 0x200 = 0#64 := by decide
  rw [BitVec.and_assoc, hmask, BitVec.and_zero]

/-- What a dispatcher returns to: the frame in memory is the one that was pushed. -/
theorem returned_holds {rsp0 target next top : Word} {err : Option Word} {n : Nat}
    {returned : Machine} (herr : err.isSome = isrErr n) (hroom : RoomFor c rsp0)
    (htop : (c.trapStack rsp0).toNat ≤ top.toNat)
    (hsysv : SysVReturn top (m.enter c rsp0 err target n next) returned) :
    returned.cpu.rsp = c.trapFrame rsp0 ∧
      HoldsRegisters returned.mem (c.trapFrame rsp0) (c.registers n (err.getD 0)) ∧
      ∀ a, (c.trapStack rsp0).toNat ≤ a → a < top.toNat → returned.mem a = m.mem a := by
  obtain ⟨hframe, hlow⟩ := hroom.frame
  have hstack := (c.trapStack rsp0).isLt
  have hrsp : (m.enter c rsp0 err target n next).cpu.rsp = c.trapFrame rsp0 - 8 := by
    rw [enter_cpu m c herr]
    rfl
  have hcalled : (c.trapFrame rsp0 - 8).toNat = (c.trapFrame rsp0).toNat - 8 := toNat_sub_eight hlow
  have hkept := hsysv.stack
  rw [hrsp, hcalled] at hkept
  refine ⟨?_, ?_, fun a hlo hhi => ?_⟩
  · rw [hsysv.rsp, hrsp, BitVec.sub_add_cancel]
  · exact (enter_holds m herr hroom).congr (by omega) fun a hlo hhi => hkept a (by omega) (by omega)
  · rw [hkept a (by omega) hhi]
    exact enter_outside m herr hroom (.inr hlo)

/-- An interrupt of any of the 48 vectors of the kernel, of any code in ring 0 or ring 3: the
    dispatcher finds the interrupted context behind its argument and picks the handler registered for
    the vector; it runs with interrupts off, on an aligned stack, and nothing but the frame has been
    written. Whatever it then does as a C function, the interrupted code goes on with all its
    registers, and with its own stack as it was. -/
theorem interrupt_round_trip (m : Machine) (c : Context) (rsp0 target next top : Word)
    (err : Option Word) (n : Nat) (handlers : IsrHandlers) (hn : n < 48)
    (herr : err.isSome = isrErr n) (hroom : RoomFor c rsp0)
    (htop : (c.trapStack rsp0).toNat ≤ top.toNat) :
    ((m.enter c rsp0 err target n next).registers (m.enter c rsp0 err target n next).cpu.rdi =
        c.registers n (err.getD 0) ∧
      isrHandler handlers (c.registers n (err.getD 0)) = some (handlers.cells n)) ∧
    ((m.enter c rsp0 err target n next).cpu.rdi.toNat % 16 = 0 ∧
      (m.enter c rsp0 err target n next).cpu.rflags &&& 0x200 = 0#64 ∧
      ∀ a, a < (c.trapFrame rsp0).toNat - 8 ∨ (c.trapStack rsp0).toNat ≤ a →
        (m.enter c rsp0 err target n next).mem a = m.mem a) ∧
    ∀ returned, SysVReturn top (m.enter c rsp0 err target n next) returned →
      returned.isrCommonReturn.iretq = c.withCr3 returned.cpu.cr3 ∧
        ∀ a, (c.trapStack rsp0).toNat ≤ a → a < top.toNat → returned.mem a = m.mem a := by
  have hcpu := @enter_cpu m c rsp0 target next err n herr
  refine ⟨⟨?_, ?_⟩, ⟨?_, ?_, fun a ha => enter_outside m herr hroom ha⟩, fun returned hsysv => ?_⟩
  · rw [hcpu]
    exact registers_of_holds (enter_holds m herr hroom)
  · have hno : (BitVec.ofNat 64 n).toNat = n := by
      rw [BitVec.toNat_ofNat]
      omega
    show (if (0 : Int) ≤ ((BitVec.ofNat 64 n).toNat : Int) ∧ ((BitVec.ofNat 64 n).toNat : Int) < 256
      then some (handlers.cells (BitVec.ofNat 64 n).toNat) else none) = _
    rw [hno, if_pos ⟨by omega, by omega⟩]
  · rw [hcpu]
    exact trapFrame_aligned hroom
  · rw [hcpu]
    exact handlerCpu_flags c (c.trapFrame rsp0 - 8) target
  · obtain ⟨hrsp, hholds, hstack⟩ := returned_holds herr hroom htop hsysv
    refine ⟨?_, hstack⟩
    rw [return_context, hrsp, registers_of_holds hholds, Context.registers_context]

/-- A user program interrupted by the timer, and by a page fault with error code 7. -/
def ticking : Context where
  cpu := { rax := 1, rbx := 2, rsp := 0x8000040000, rip := 0x8000200010, rflags := 0x202 }
  cs := 0x23
  ss := 0x1B

/-- A dispatcher that leaves 9 in `rax` and returns. -/
def leavingNine (m : Machine) : Machine :=
  { m with cpu := { m.cpu with rax := 9, rsp := m.cpu.rsp + 8 } }

theorem leavingNine_sysV (top : Word) (m : Machine) : SysVReturn top m m.leavingNine :=
  ⟨rfl, rfl, fun _ _ _ => rfl⟩

/-- A machine with cleared memory. -/
def cleared : Machine := ⟨{}, fun _ => 0, 0, 0⟩

theorem interrupt_round_trip_ticking :
    (cleared.enter ticking 0x110000 none 0x101000 32
        0x102000).leavingNine.isrCommonReturn.iretq.cpu.rax = 1 ∧
      (cleared.enter ticking 0x110000 (some 7) 0x101000 14
        0x102000).leavingNine.isrCommonReturn.iretq.cpu.rax = 1 := by
  constructor
  · rw [((interrupt_round_trip cleared ticking 0x110000 0x101000 0x102000 0x110000 none 32 noHandlers
      (by decide) (by decide) (by decide) (by decide)).2.2 _ (leavingNine_sysV _ _)).1]
    rfl
  · rw [((interrupt_round_trip cleared ticking 0x110000 0x101000 0x102000 0x110000 (some 7) 14 noHandlers
      (by decide) (by decide) (by decide) (by decide)).2.2 _ (leavingNine_sysV _ _)).1]
    rfl

end Machine

end CustomKernel
