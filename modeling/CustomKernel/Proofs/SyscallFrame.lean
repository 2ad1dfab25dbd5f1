/-
Module: CustomKernel.Proofs.SyscallFrame
Layer: Proofs
Purpose: The registers a system call gives back. `syscall_entry` saves the user registers at the top
  of the one system call stack all processes share, and a process that yields, sleeps or waits for a
  key inside a call leaves its frame there while others run. The frame is intact at the `sysretq`
  in every run in which nobody enters a system call while another process is still inside one, and
  is lost in the others.
Imports: CustomKernel.Process.Cpu, CustomKernel.Proofs.Scheduler
Trusted boundary: `SparesFrame`: nothing but the pushes of `syscall_entry` writes to the nine words
  at the top of the system call stack
Main exports: UserFrame, FrameAt, syscallEntry_frame, syscallReturn_frame, SyscallKernel,
  SyscallKernel.Step, SyscallKernel.EntersAlone, SyscallKernel.syscall_frame_kept,
  SyscallKernel.sysret_with_foreign_frame
-/
import CustomKernel.Process.Cpu
import CustomKernel.Proofs.Scheduler

namespace CustomKernel

open ByteMemory StepSystem

/-! ### The frame -/

/-- What `syscall_entry` saves and restores. -/
structure UserFrame where
  /-- The user's `rip`. -/
  rcx : Word
  /-- The user's `rflags`. -/
  r11 : Word
  rbp : Word
  rbx : Word
  r12 : Word
  r13 : Word
  r14 : Word
  r15 : Word
  rsp : Word
deriving DecidableEq, Repr

/-- That part of a register file. -/
def Cpu.userFrame (c : Cpu) : UserFrame where
  rcx := c.rcx
  r11 := c.r11
  rbp := c.rbp
  rbx := c.rbx
  r12 := c.r12
  r13 := c.r13
  r14 := c.r14
  r15 := c.r15
  rsp := c.rsp

/-- The words of a frame in the order they are pushed. -/
def UserFrame.words (f : UserFrame) : List Word :=
  [f.rcx, f.r11, f.rbp, f.rbx, f.r12, f.r13, f.r14, f.r15, f.rsp]

/-- The address of word `i` of a stack that starts at `top`. -/
def stackWord (top : Word) (i : Nat) : Word := top - BitVec.ofNat 64 (8 * (i + 1))

/-- A frame stands at the top of the stack. -/
def FrameAt (mem : ByteMem) (top : Word) (f : UserFrame) : Prop :=
  ∀ i w, f.words[i]? = some w → loadWord mem (stackWord top i) = w

/-- Memory after pushing some words, the first one first. -/
def pushWords (mem : ByteMem) (sp : Word) : List Word → ByteMem
  | [] => mem
  | w :: ws => pushWords (storeWord mem (sp - 8) w) (sp - 8) ws

theorem toNat_sub_eight {sp : Word} (h : 8 ≤ sp.toNat) : (sp - 8).toNat = sp.toNat - 8 := by
  bv_omega

/-- Pushing does not write at or above the stack pointer. -/
theorem pushWords_above : ∀ (ws : List Word) (mem : ByteMem) (sp : Word),
    8 * ws.length ≤ sp.toNat → ∀ a, sp.toNat ≤ a → pushWords mem sp ws a = mem a
  | [], _, _, _, _, _ => rfl
  | w :: ws, mem, sp, hroom, a, ha => by
      rw [List.length_cons] at hroom
      have hsp := @toNat_sub_eight sp (by omega)
      rw [pushWords, pushWords_above ws _ _ (by omega) a (by omega), storeWord,
        store_outside (by omega)]

/-- Word `i` of what was pushed is found at its place. -/
theorem pushWords_word : ∀ (ws : List Word) (mem : ByteMem) (sp : Word),
    8 * ws.length ≤ sp.toNat → ∀ i w, ws[i]? = some w →
      loadWord (pushWords mem sp ws) (stackWord sp i) = w
  | [], _, _, _, _, _, h => by simp at h
  | v :: ws, mem, sp, hroom, i, w, h => by
      rw [List.length_cons] at hroom
      have hsp := @toNat_sub_eight sp (by omega)
      cases i with
      | zero =>
          obtain rfl : v = w := by simpa using h
          have habove : loadWord (pushWords (storeWord mem (sp - 8) v) (sp - 8) ws) (sp - 8) =
              loadWord (storeWord mem (sp - 8) v) (sp - 8) :=
            loadWord_congr fun a hlo _ => pushWords_above ws _ _ (by omega) a hlo
          rw [pushWords, stackWord]
          show loadWord (pushWords (storeWord mem (sp - 8) v) (sp - 8) ws) (sp - 8) = v
          rw [habove, loadWord_storeWord_self]
      | succ i =>
          have hword : stackWord sp (i + 1) = stackWord (sp - 8) i := by
            unfold stackWord
            bv_omega
          rw [pushWords, hword]
          exact pushWords_word ws _ _ (by omega) i w (by simpa using h)

/-! ### Entry and return -/

namespace Machine

variable {m m' : Machine}

theorem pushAll_mem : ∀ (ws : List Word) (m : Machine),
    (m.pushAll ws).mem = pushWords m.mem m.cpu.rsp ws
  | [], _ => rfl
  | w :: ws, m => pushAll_mem ws (m.push w)

/-- Pushing moves the stack pointer and leaves the other registers alone. -/
theorem pushAll_cpu : ∀ (ws : List Word) (m : Machine),
    (m.pushAll ws).cpu = { m.cpu with rsp := m.cpu.rsp - BitVec.ofNat 64 (8 * ws.length) }
  | [], m => by simp [pushAll]
  | w :: ws, m => by
      have hrsp : m.cpu.rsp - 8 - BitVec.ofNat 64 (8 * ws.length) =
          m.cpu.rsp - BitVec.ofNat 64 (8 * (ws.length + 1)) := by bv_omega
      rw [pushAll, pushAll_cpu ws (m.push w), List.length_cons, ← hrsp]
      rfl

theorem pushAll_kernelStackTop : ∀ (ws : List Word) (m : Machine),
    (m.pushAll ws).kernelStackTop = m.kernelStackTop
  | [], _ => rfl
  | w :: ws, m => pushAll_kernelStackTop ws (m.push w)

@[simp] theorem syscallEntry_kernelStackTop (m : Machine) (next : Word) :
    (m.syscallEntry next).kernelStackTop = m.kernelStackTop := by
  simp only [syscallEntry, Machine.call, Machine.push, pushAll_kernelStackTop]

/-- The dispatcher is called with its return address right below the frame. -/
theorem syscallEntry_rsp (m : Machine) (next : Word) :
    (m.syscallEntry next).cpu.rsp = m.kernelStackTop - 80 := by
  simp only [syscallEntry, Machine.call, Machine.push, pushAll_cpu, List.length_cons,
    List.length_nil]
  bv_omega

/-- The number and the three arguments in the registers of the first four parameters. -/
theorem syscallEntry_arguments (m : Machine) (next : Word) :
    (m.syscallEntry next).cpu.rdi = m.cpu.rax ∧ (m.syscallEntry next).cpu.rsi = m.cpu.rdi ∧
      (m.syscallEntry next).cpu.rdx = m.cpu.rsi ∧ (m.syscallEntry next).cpu.rcx = m.cpu.rdx := by
  simp only [syscallEntry, Machine.call, Machine.push, pushAll_cpu, and_self]

/-- What `syscall_entry` writes: the frame, the three arguments below it, and over them the return
    address of the dispatcher. -/
theorem syscallEntry_mem (m : Machine) (next : Word) :
    (m.syscallEntry next).mem =
      storeWord
        (pushWords (pushWords m.mem m.kernelStackTop m.cpu.userFrame.words) (m.kernelStackTop - 72)
          [m.cpu.rdi, m.cpu.rsi, m.cpu.rdx])
        (m.kernelStackTop - 80) next := by
  have hrsp : m.kernelStackTop - 72 - 24 + 24 - 8 = m.kernelStackTop - 80 := by bv_omega
  simp only [syscallEntry, Machine.call, Machine.push, pushAll_cpu, pushAll_mem, List.length_cons,
    List.length_nil, UserFrame.words, Cpu.userFrame, ← hrsp]
  rfl

/-- After `syscall_entry` the frame of the caller stands at the top of the stack. -/
theorem syscallEntry_frame (hroom : 16384 ≤ m.kernelStackTop.toNat) (next : Word) :
    FrameAt (m.syscallEntry next).mem m.kernelStackTop m.cpu.userFrame := by
  intro i w hw
  have hi : i < 9 := (List.getElem?_eq_some_iff.1 hw).1
  have hbase : (m.kernelStackTop - 72).toNat = m.kernelStackTop.toNat - 72 := by bv_omega
  have hword : (stackWord m.kernelStackTop i).toNat = m.kernelStackTop.toNat - 8 * (i + 1) := by
    unfold stackWord
    bv_omega
  have hapart : WordsApart (stackWord m.kernelStackTop i) (m.kernelStackTop - 80) := by
    refine .inr ?_
    rw [hword]
    bv_omega
  -- the arguments are pushed below the frame
  have habove : loadWord (pushWords (pushWords m.mem m.kernelStackTop m.cpu.userFrame.words)
      (m.kernelStackTop - 72) [m.cpu.rdi, m.cpu.rsi, m.cpu.rdx]) (stackWord m.kernelStackTop i) =
      loadWord (pushWords m.mem m.kernelStackTop m.cpu.userFrame.words)
        (stackWord m.kernelStackTop i) :=
    loadWord_congr fun a hlo _ => pushWords_above _ _ _
      (by rw [hbase]; show 8 * 3 ≤ _; omega) a (by omega)
  rw [syscallEntry_mem, loadWord_storeWord_apart hapart, habove]
  exact pushWords_word _ _ _ (by show 8 * 9 ≤ _; omega) i w hw

/-- The frame at the top of the stack is what the caller gets back. -/
theorem syscallReturn_frame {f : UserFrame} (h : FrameAt m.mem m.kernelStackTop f)
    (hrsp : m.cpu.rsp = m.kernelStackTop - 72) : m.syscallReturn.cpu.userFrame = f := by
  have hword : ∀ i w, i ≤ 8 → f.words[8 - i]? = some w → m.popped i = w := by
    intro i w hi hw
    have haddr : m.cpu.rsp + BitVec.ofNat 64 (8 * i) = stackWord m.kernelStackTop (8 - i) := by
      rw [hrsp, stackWord]
      bv_omega
    rw [popped, haddr]
    exact h (8 - i) w hw
  simp only [syscallReturn, Cpu.userFrame]
  rw [hword 0 f.rsp (by decide) rfl, hword 1 f.r15 (by decide) rfl, hword 2 f.r14 (by decide) rfl,
    hword 3 f.r13 (by decide) rfl, hword 4 f.r12 (by decide) rfl, hword 5 f.rbx (by decide) rfl,
    hword 6 f.rbp (by decide) rfl, hword 7 f.r11 (by decide) rfl, hword 8 f.rcx (by decide) rfl]

/-- The return only reads memory. -/
theorem sysret_memory (m : Machine) :
    m.syscallReturn.sysretq.mem = m.mem ∧
      m.syscallReturn.sysretq.kernelStackTop = m.kernelStackTop := by
  simp only [sysretq, syscallReturn, and_self]

/-- `sysretq` jumps to `rcx` and leaves the registers of the frame alone. -/
theorem sysretq_userFrame (m : Machine) :
    m.sysretq.cpu.userFrame = m.cpu.userFrame ∧ m.sysretq.cpu.rip = m.cpu.userFrame.rcx := by
  simp only [sysretq, Cpu.userFrame, and_self]

/-- Nothing is written to the nine words at the top of the system call stack. -/
def SparesFrame (m m' : Machine) : Prop :=
  m'.kernelStackTop = m.kernelStackTop ∧
    ∀ a, m.kernelStackTop.toNat - 72 ≤ a → a < m.kernelStackTop.toNat → m'.mem a = m.mem a

theorem SparesFrame.frameAt (hspares : SparesFrame m m') (hroom : 16384 ≤ m.kernelStackTop.toNat)
    {f : UserFrame} (h : FrameAt m.mem m.kernelStackTop f) :
    FrameAt m'.mem m'.kernelStackTop f := by
  intro i w hw
  have hi : i < 9 := (List.getElem?_eq_some_iff.1 hw).1
  have hword : (stackWord m.kernelStackTop i).toNat = m.kernelStackTop.toNat - 8 * (i + 1) := by
    unfold stackWord
    bv_omega
  rw [hspares.1, loadWord_congr fun a hlo hhi => hspares.2 a (by omega) (by omega)]
  exact h i w hw

end Machine

/-! ### Processes inside system calls -/

/-- A system call under way: the registers of its caller behind the `syscall` instruction, and the
    stack pointer `syscall_dispatch` returns with. -/
structure Call where
  user : Cpu
  rsp : Word
deriving DecidableEq, Repr

/-- The scheduler, the machine, and which processes are inside a system call. -/
structure SyscallKernel where
  sched : Scheduler
  machine : Machine
  inside : Nat → Option Call

/-- What can happen. -/
inductive SyscallEvent where
  /-- Any code: user code, a kernel process, or the C code of a system call. -/
  | code
  /-- `syscall` and `syscall_entry`, by the current process. -/
  | syscall (next after : Word)
  /-- The dispatcher returns; the frame is popped, and `sysretq`. -/
  | sysret
  | sched (event : Scheduler.Event)
deriving DecidableEq, Repr

/-- Interrupts are off inside a system call, and a process only blocks, yields or exits inside one.
    Processes are created inside and outside of them. -/
def Admits (call : Option Call) : Scheduler.Event → Prop
  | .timer | .key => call = none
  | .yield | .sleep _ | .read | .exit => call ≠ none
  | .add _ _ => True

namespace SyscallKernel

/-- The call the current process is inside of. -/
def call (k : SyscallKernel) : Option Call := k.inside k.sched.current

/-- One event. Code, interrupts and switches may leave anything in the registers and anywhere in
    memory but in the frame at the top of the system call stack: the C code of a system call runs
    below it, and everything else runs on other stacks. -/
def Step (k : SyscallKernel) : SyscallEvent → SyscallKernel → Prop
  | .code, k' => k'.sched = k.sched ∧ k'.inside = k.inside ∧ k.machine.SparesFrame k'.machine
  | .syscall next after, k' => k.sched.current ≠ k.sched.idle ∧ k.call = none ∧
      k'.sched = k.sched ∧ k'.machine = (k.machine.syscall next).syscallEntry after ∧
      k'.inside = Function.update k.inside k.sched.current
        (some ⟨(k.machine.syscall next).cpu, k'.machine.cpu.rsp + 8⟩)
  | .sysret, k' => ∃ c, k.call = some c ∧ k'.sched = k.sched ∧
      k'.machine =
        ({ k.machine with cpu := { k.machine.cpu with rsp := c.rsp } }.syscallReturn).sysretq ∧
      k'.inside = Function.update k.inside k.sched.current none
  | .sched event, k' => Admits k.call event ∧ k.sched.EventStep event k'.sched ∧
      k'.inside = k.inside ∧ k.machine.SparesFrame k'.machine

/-- Nobody else is inside a system call when a process enters one; those that have exited inside
    one do not count. -/
def EntersAlone (k : SyscallKernel) : SyscallEvent → Prop
  | .syscall _ _ => ∀ p, p ≠ k.sched.current → k.inside p ≠ none → (k.sched.procs p).state = .dead
  | _ => True

/-- `scheduler_start` has been called, and nobody is inside a system call. -/
def start (s : Scheduler) (m : Machine) : SyscallKernel := ⟨s.schedulerStart, m, fun _ => none⟩

/-- A frame that was saved and will be needed is intact. -/
def FramesIntact (k : SyscallKernel) : Prop :=
  ∀ p c, k.inside p = some c → (k.sched.procs p).state ≠ .dead →
    FrameAt k.machine.mem k.machine.kernelStackTop c.user.userFrame

/-- The invariant: of the processes inside system calls only one is alive, and its frame is at the
    top of the stack. -/
structure Inv (k : SyscallKernel) : Prop where
  sched : Scheduler.SchedulerInv k.sched
  room : 16384 ≤ k.machine.kernelStackTop.toNat
  member : ∀ p c, k.inside p = some c → p ∈ k.sched.members
  rsp : ∀ p c, k.inside p = some c → c.rsp = k.machine.kernelStackTop - 72
  alone : ∀ p q, k.inside p ≠ none → k.inside q ≠ none →
    (k.sched.procs p).state ≠ .dead → (k.sched.procs q).state ≠ .dead → p = q
  frames : FramesIntact k

variable {k k' : SyscallKernel}

theorem Inv.start {s : Scheduler} {m : Machine} (prepared : Scheduler.Prepared s)
    (hroom : 16384 ≤ m.kernelStackTop.toNat) : Inv (start s m) where
  sched := Scheduler.schedulerStart_inv prepared.inv
  room := hroom
  member _ _ h := by cases h
  rsp _ _ h := by cases h
  alone _ _ h := absurd rfl h
  frames _ _ h := by cases h

/-- What leaves the frame alone keeps the invariant, as long as nobody rises from the dead. -/
theorem Inv.spared (inv : Inv k) (hsched : Scheduler.SchedulerInv k'.sched)
    (hmember : ∀ p ∈ k.sched.members, p ∈ k'.sched.members)
    (hdead : ∀ p ∈ k.sched.members, (k.sched.procs p).state = .dead →
      (k'.sched.procs p).state = .dead)
    (hinside : k'.inside = k.inside) (hspares : k.machine.SparesFrame k'.machine) : Inv k' where
  sched := hsched
  room := hspares.1 ▸ inv.room
  member p c hp := hmember p (inv.member p c (hinside ▸ hp))
  rsp p c hp := by rw [hspares.1]; exact inv.rsp p c (hinside ▸ hp)
  alone p q hp hq hpd hqd := by
    rw [hinside] at hp hq
    obtain ⟨c, hc⟩ := Option.ne_none_iff_exists'.1 hp
    obtain ⟨d, hd⟩ := Option.ne_none_iff_exists'.1 hq
    exact inv.alone p q hp hq (fun h => hpd (hdead p (inv.member p c hc) h))
      (fun h => hqd (hdead q (inv.member q d hd) h))
  frames p c hp hpd := by
    rw [hinside] at hp
    exact hspares.frameAt inv.room
      (inv.frames p c hp fun h => hpd (hdead p (inv.member p c hp) h))

/-- A call entered alone puts its frame where no living process has one. -/
theorem Inv.syscall (inv : Inv k) {next after : Word} (alone : k.EntersAlone (.syscall next after))
    (step : k.Step (.syscall next after) k') : Inv k' := by
  obtain ⟨-, -, hsched, hmachine, hinside⟩ := step
  have htop : k'.machine.kernelStackTop = k.machine.kernelStackTop := by
    rw [hmachine, Machine.syscallEntry_kernelStackTop]
    rfl
  have hbase : k'.machine.cpu.rsp + 8 = k'.machine.kernelStackTop - 72 := by
    rw [htop, hmachine, Machine.syscallEntry_rsp]
    show k.machine.kernelStackTop - 80 + 8 = k.machine.kernelStackTop - 72
    bv_omega
  have hself : k'.inside k.sched.current =
      some ⟨(k.machine.syscall next).cpu, k'.machine.cpu.rsp + 8⟩ := by
    rw [hinside, Function.update_self]
  have hother : ∀ p, p ≠ k.sched.current → k'.inside p = k.inside p := by
    intro p hp
    rw [hinside, Function.update_of_ne hp]
  -- the others inside have exited
  have hliving : ∀ p, k'.inside p ≠ none → (k'.sched.procs p).state ≠ .dead →
      p = k.sched.current := by
    intro p hp hpd
    by_contra hne
    rw [hother p hne] at hp
    rw [hsched] at hpd
    exact hpd (alone p hne hp)
  refine ⟨hsched ▸ inv.sched, htop ▸ inv.room, fun p c hp => ?_, fun p c hp => ?_,
    fun p q hp hq hpd hqd => (hliving p hp hpd).trans (hliving q hq hqd).symm, fun p c hp hpd => ?_⟩
  · rw [hsched]
    by_cases hpc : p = k.sched.current
    · rw [hpc]
      exact inv.sched.ring.current_mem
    · exact inv.member p c ((hother p hpc) ▸ hp)
  · by_cases hpc : p = k.sched.current
    · rw [hpc, hself] at hp
      rw [← Option.some.inj hp]
      exact hbase
    · rw [htop]
      exact inv.rsp p c ((hother p hpc) ▸ hp)
  · have hpc := hliving p (by rw [hp]; simp) hpd
    rw [hpc, hself] at hp
    rw [← Option.some.inj hp, hmachine, Machine.syscallEntry_kernelStackTop]
    exact Machine.syscallEntry_frame (m := k.machine.syscall next) inv.room after

/-- Returning writes no memory. -/
theorem Inv.sysret (inv : Inv k) (step : k.Step .sysret k') : Inv k' := by
  obtain ⟨c, -, hsched, hmachine, hinside⟩ := step
  obtain ⟨hmem, htop⟩ : k'.machine.mem = k.machine.mem ∧
      k'.machine.kernelStackTop = k.machine.kernelStackTop := by
    rw [hmachine]
    exact Machine.sysret_memory _
  have hstill : ∀ p d, k'.inside p = some d → k.inside p = some d := by
    intro p d hp
    rw [hinside] at hp
    by_cases hpc : p = k.sched.current
    · rw [hpc, Function.update_self] at hp
      cases hp
    · rwa [Function.update_of_ne hpc] at hp
  have hstillIn : ∀ p, k'.inside p ≠ none → k.inside p ≠ none := by
    intro p hp
    obtain ⟨d, hd⟩ := Option.ne_none_iff_exists'.1 hp
    rw [hstill p d hd]
    simp
  refine ⟨hsched ▸ inv.sched, htop ▸ inv.room, fun p d hp => ?_, fun p d hp => ?_,
    fun p q hp hq hpd hqd => ?_, fun p d hp hpd => ?_⟩
  · rw [hsched]
    exact inv.member p d (hstill p d hp)
  · rw [htop]
    exact inv.rsp p d (hstill p d hp)
  · rw [hsched] at hpd hqd
    exact inv.alone p q (hstillIn p hp) (hstillIn q hq) hpd hqd
  · rw [hmem, htop]
    rw [hsched] at hpd
    exact inv.frames p d (hstill p d hp) hpd

/-- Every event keeps the invariant. -/
theorem Inv.step (inv : Inv k) {e : SyscallEvent} (alone : k.EntersAlone e) (step : k.Step e k') :
    Inv k' := by
  cases e with
  | code =>
      obtain ⟨hsched, hinside, hspares⟩ := step
      exact inv.spared (hsched ▸ inv.sched) (fun p hp => hsched ▸ hp)
        (fun p _ hd => by rw [hsched]; exact hd) hinside hspares
  | syscall next after =>
      exact inv.syscall alone step
  | sysret =>
      exact inv.sysret step
  | sched event =>
      obtain ⟨-, hevent, hinside, hspares⟩ := step
      exact inv.spared (inv.sched.of_event hevent)
        (fun p hp => Scheduler.mem_of_event inv.sched hevent hp)
        (fun p hp hd => (Scheduler.dead_of_event inv.sched hevent hp hd).1) hinside hspares

/-- The registers a call gives back are those of the frame at the top of the stack. -/
theorem sysret_userFrame {f : UserFrame} {c : Call} (hcall : k.call = some c)
    (hrsp : c.rsp = k.machine.kernelStackTop - 72)
    (hframe : FrameAt k.machine.mem k.machine.kernelStackTop f) (step : k.Step .sysret k') :
    k'.machine.cpu.userFrame = f ∧ k'.machine.cpu.rip = f.rcx := by
  obtain ⟨d, hd, -, hmachine, -⟩ := step
  obtain rfl : c = d := Option.some.inj (hcall.symm.trans hd)
  have hrestored := Machine.syscallReturn_frame
    (m := { k.machine with cpu := { k.machine.cpu with rsp := c.rsp } }) hframe hrsp
  rw [hmachine, (Machine.sysretq_userFrame _).1, (Machine.sysretq_userFrame _).2, hrestored]
  exact ⟨rfl, rfl⟩

/-- As long as every process enters its system calls alone, the frames of the processes inside calls
    are intact, and whoever returns from a call returns to the instruction behind it, with the
    registers it had there. -/
theorem syscall_frame_kept (s : Scheduler) (m : Machine) (prepared : Scheduler.Prepared s)
    (hroom : 16384 ≤ m.kernelStackTop.toNat) (events : List SyscallEvent) (k : SyscallKernel)
    (run : Run (Guarded EntersAlone Step) (start s m) events k) :
    k.FramesIntact ∧
      ∀ c k', k.call = some c → k.Step .sysret k' →
        k'.machine.cpu.userFrame = c.user.userFrame ∧ k'.machine.cpu.rip = c.user.rcx := by
  have inv : Inv k := run.invariant Inv (fun _ _ _ inv step => inv.step step.1 step.2)
    (Inv.start prepared hroom)
  refine ⟨inv.frames, fun c k' hcall step => ?_⟩
  have hlive : (k.sched.procs k.sched.current).state ≠ .dead := by
    rw [inv.sched.safe.current_running]
    decide
  exact sysret_userFrame hcall (inv.rsp _ c hcall) (inv.frames _ c hcall hlive) step

/-! ### Two processes -/

/-- The state after the current process has entered a system call. -/
def entered (k : SyscallKernel) (next after : Word) : SyscallKernel where
  sched := k.sched
  machine := (k.machine.syscall next).syscallEntry after
  inside := Function.update k.inside k.sched.current
    (some ⟨(k.machine.syscall next).cpu, ((k.machine.syscall next).syscallEntry after).cpu.rsp + 8⟩)

/-- The state after the current process has returned from the call `c`. -/
def left (k : SyscallKernel) (c : Call) : SyscallKernel where
  sched := k.sched
  machine := ({ k.machine with cpu := { k.machine.cpu with rsp := c.rsp } }.syscallReturn).sysretq
  inside := Function.update k.inside k.sched.current none

/-- The state after a switch that leaves some value in `rbx`. -/
def switched (k : SyscallKernel) (s : Scheduler) (rbx : Word) : SyscallKernel :=
  { k with sched := s, machine := { k.machine with cpu := { k.machine.cpu with rbx := rbx } } }

theorem entered_call (k : SyscallKernel) (next after : Word) :
    (k.entered next after).call =
      some ⟨(k.machine.syscall next).cpu,
        ((k.machine.syscall next).syscallEntry after).cpu.rsp + 8⟩ := by
  simp only [call, entered, Function.update_self]

theorem switched_call (k : SyscallKernel) (s : Scheduler) (rbx : Word) :
    (k.switched s rbx).call = k.inside s.current := by
  simp only [call, switched]

theorem switched_inside (k : SyscallKernel) (s : Scheduler) (rbx : Word) :
    (k.switched s rbx).inside = k.inside := by
  simp only [switched]

/-- Entering a call changes nothing for the other processes. -/
theorem entered_inside {k : SyscallKernel} {p : Nat} (h : p ≠ k.sched.current) (next after : Word) :
    (k.entered next after).inside p = k.inside p := by
  simp only [entered, Function.update_of_ne h]

theorem entered_top (k : SyscallKernel) (next after : Word) :
    (k.entered next after).machine.kernelStackTop = k.machine.kernelStackTop := by
  rw [entered, Machine.syscallEntry_kernelStackTop, Machine.syscall]

/-- The frame of the process that has just entered a call. -/
theorem entered_frame {k : SyscallKernel} (hroom : 16384 ≤ k.machine.kernelStackTop.toNat)
    (next after : Word) :
    FrameAt (k.entered next after).machine.mem (k.entered next after).machine.kernelStackTop
      (k.machine.syscall next).cpu.userFrame := by
  rw [entered_top]
  exact Machine.syscallEntry_frame (m := k.machine.syscall next) hroom after

theorem switched_frame {k : SyscallKernel} {f : UserFrame}
    (h : FrameAt k.machine.mem k.machine.kernelStackTop f) (s : Scheduler) (rbx : Word) :
    FrameAt (k.switched s rbx).machine.mem (k.switched s rbx).machine.kernelStackTop f := by
  rw [switched]
  exact h

theorem step_entered (k : SyscallKernel) (next after : Word) (hidle : k.sched.current ≠ k.sched.idle)
    (hcall : k.call = none) : k.Step (.syscall next after) (k.entered next after) :=
  ⟨hidle, hcall, by rw [entered], by rw [entered], by rw [entered]⟩

theorem step_left (k : SyscallKernel) {c : Call} (hcall : k.call = some c) :
    k.Step .sysret (k.left c) :=
  ⟨c, hcall, by rw [left], by rw [left], by rw [left]⟩

theorem step_switched (k : SyscallKernel) {event : Scheduler.Event} {s : Scheduler} (rbx : Word)
    (hadmits : Admits k.call event) (hevent : k.sched.EventStep event s) :
    k.Step (.sched event) (k.switched s rbx) :=
  ⟨hadmits, hevent, by rw [switched], by rw [switched], fun a _ _ => by rw [switched]⟩

section TwoProcesses

open Scheduler

/-- The scheduler after each of the three switches of the runs below: from process 2 to process 3,
    to idle, and back to process 2. -/
def toThird : Scheduler := twoAdded.schedulerStart.sysYield.getD blankBoot

def toIdle : Scheduler := toThird.timerHandler.getD blankBoot

def toSecond : Scheduler := toIdle.timerHandler.getD blankBoot

/-- Process 3 yields too, and the timer brings process 2 back. -/
def bothYielded : Scheduler := toThird.sysYield.getD blankBoot

def bothYieldedSecond : Scheduler := bothYielded.timerHandler.getD blankBoot

/-- The processes that run in these states, and that all the calls return. -/
theorem switch_currents :
    (twoAdded.schedulerStart.current = 2 ∧ twoAdded.schedulerStart.idle = 1 ∧
      toThird.current = 3 ∧ toThird.idle = 1 ∧ toIdle.current = 1 ∧ toSecond.current = 2 ∧
      bothYielded.current = 1 ∧ bothYieldedSecond.current = 2) ∧
    twoAdded.schedulerStart.sysYield.isSome ∧ toThird.timerHandler.isSome ∧
      toIdle.timerHandler.isSome ∧ toThird.sysYield.isSome ∧ bothYielded.timerHandler.isSome := by
  decide +kernel

theorem start_currents :
    twoAdded.schedulerStart.current = 2 ∧ twoAdded.schedulerStart.idle = 1 :=
  ⟨switch_currents.1.1, switch_currents.1.2.1⟩

theorem toThird_currents : toThird.current = 3 ∧ toThird.idle = 1 :=
  ⟨switch_currents.1.2.2.1, switch_currents.1.2.2.2.1⟩

theorem toIdle_current : toIdle.current = 1 := switch_currents.1.2.2.2.2.1

theorem toSecond_current : toSecond.current = 2 := switch_currents.1.2.2.2.2.2.1

theorem bothYielded_currents : bothYielded.current = 1 ∧ bothYieldedSecond.current = 2 :=
  switch_currents.1.2.2.2.2.2.2

theorem toThird_step : twoAdded.schedulerStart.EventStep .yield toThird := by
  refine ⟨?_, eq_some_getD switch_currents.2.1 _⟩
  rw [start_currents.1, start_currents.2]
  decide

theorem toIdle_step : toThird.EventStep .timer toIdle := eq_some_getD switch_currents.2.2.1 _

theorem toSecond_step : toIdle.EventStep .timer toSecond := eq_some_getD switch_currents.2.2.2.1 _

theorem bothYielded_step : toThird.EventStep .yield bothYielded := by
  refine ⟨?_, eq_some_getD switch_currents.2.2.2.2.1 _⟩
  rw [toThird_currents.1, toThird_currents.2]
  decide

theorem bothYieldedSecond_step : bothYielded.EventStep .timer bothYieldedSecond :=
  eq_some_getD switch_currents.2.2.2.2.2 _

/-- A machine in user mode with 1 in `rbx`; the system call stack ends at `0x120000`. -/
def userMachine : Machine where
  cpu := { rsp := 0x8000040000, rbx := 1, rflags := 0x202 }
  mem := fun _ => 0
  kernelStackTop := 0x120000
  userRspTmp := 0

/-- Process 2 has entered a system call and yielded to process 3. -/
def yielded : SyscallKernel :=
  ((start twoAdded userMachine).entered 0x8000200002 0x100100).switched toThird 2

/-- The call process 2 is inside of then. -/
def yieldedCall : Call where
  user := (userMachine.syscall 0x8000200002).cpu
  rsp := ((userMachine.syscall 0x8000200002).syscallEntry 0x100100).cpu.rsp + 8

theorem yielded_inside : yielded.inside = Function.update (fun _ => none) 2 (some yieldedCall) := by
  rw [← start_currents.1, yielded, switched, entered, yieldedCall]
  rfl

theorem yielded_call : yielded.call = none := by
  rw [SyscallKernel.call, yielded_inside]
  exact Function.update_of_ne (by rw [yielded, switched, toThird_currents.1]; decide) _ _

/-- The way to `yielded`, which nobody else's call disturbs. -/
theorem yielded_run : Run (Guarded EntersAlone Step) (start twoAdded userMachine)
    [.syscall 0x8000200002 0x100100, .sched .yield] yielded := by
  have hidle : (start twoAdded userMachine).sched.current ≠ (start twoAdded userMachine).sched.idle :=
    show twoAdded.schedulerStart.current ≠ twoAdded.schedulerStart.idle by
      rw [start_currents.1, start_currents.2]
      decide
  refine .cons ⟨fun p _ hp => absurd rfl hp, step_entered _ _ _ hidle rfl⟩
    (.single ⟨trivial, step_switched _ 2 ?_ toThird_step⟩)
  rw [Admits, entered_call]
  simp

/-- From a state in which process 3 is outside of calls, two ticks lead back to process 2. -/
theorem ticks_run {k : SyscallKernel} (hsched : k.sched = toThird) (h3 : k.inside 3 = none)
    (h1 : k.inside 1 = none) :
    Run (Guarded EntersAlone Step) k [.sched .timer, .sched .timer]
      ((k.switched toIdle 2).switched toSecond 2) := by
  have hthird : k.call = none := by rw [SyscallKernel.call, hsched, toThird_currents.1, h3]
  have hidle : (k.switched toIdle 2).call = none := by
    rw [switched_call, toIdle_current, h1]
  exact .cons ⟨trivial, step_switched k 2 hthird (hsched ▸ toIdle_step)⟩
    (.single ⟨trivial, step_switched _ 2 hidle toSecond_step⟩)

/-- Process 2 gets its registers back if process 3 makes no system call in the meantime. -/
theorem syscall_frame_kept_one_call : ∃ events k k', Run (Guarded EntersAlone Step)
    (start twoAdded userMachine) events k ∧ k.call = some yieldedCall ∧ k.Step .sysret k' ∧
      k'.machine.cpu.userFrame = yieldedCall.user.userFrame := by
  have h1 : yielded.inside 1 = none := by rw [yielded_inside]; rfl
  have h3 : yielded.inside 3 = none := by rw [yielded_inside]; rfl
  have hsched : yielded.sched = toThird := by rw [yielded, switched]
  have run := yielded_run.append (ticks_run hsched h3 h1)
  have hcall : ((yielded.switched toIdle 2).switched toSecond 2).call = some yieldedCall := by
    rw [switched_call, switched_inside, toSecond_current, yielded_inside,
      Function.update_self]
  exact ⟨_, _, _, run, hcall, step_left _ hcall,
    ((syscall_frame_kept twoAdded userMachine twoAdded_prepared (by decide) _ _ run).2 yieldedCall _
      hcall (step_left _ hcall)).1⟩

/-- Process 3 has entered a system call of its own and yields inside it. -/
def overwritten : SyscallKernel :=
  ((yielded.entered 0x8000200004 0x100100).switched bothYielded 2).switched bothYieldedSecond 2

theorem yielded_top : yielded.machine.kernelStackTop = 0x120000 := by
  rw [yielded, switched, entered_top, start, userMachine]

theorem yielded_current : yielded.sched.current = 3 := by
  rw [yielded, switched, toThird_currents.1]

theorem overwritten_top : overwritten.machine.kernelStackTop = 0x120000 := by
  rw [overwritten, switched, switched, entered_top, yielded_top]

/-- The frame in place then is that of process 3. -/
theorem overwritten_frame :
    FrameAt overwritten.machine.mem overwritten.machine.kernelStackTop
      (yielded.machine.syscall 0x8000200004).cpu.userFrame :=
  switched_frame
    (switched_frame (entered_frame (by rw [yielded_top]; decide) _ _) bothYielded 2)
    bothYieldedSecond 2

theorem overwritten_run : Run Step yielded
    [.syscall 0x8000200004 0x100100, .sched .yield, .sched .timer] overwritten := by
  have hidle : yielded.sched.current ≠ yielded.sched.idle := by
    rw [yielded, switched, toThird_currents.1, toThird_currents.2]
    decide
  refine .cons (step_entered _ _ _ hidle yielded_call)
    (.cons (step_switched _ 2 ?_ bothYielded_step) (.single (step_switched _ 2 ?_ ?_)))
  · rw [Admits, entered_call]
    simp
  · rw [Admits, switched_call, bothYielded_currents.1,
      entered_inside (by rw [yielded_current]; decide), yielded_inside]
    rfl
  · exact bothYieldedSecond_step

theorem overwritten_call : overwritten.call = some yieldedCall := by
  rw [overwritten, switched_call, switched_inside, bothYielded_currents.2,
    entered_inside (by rw [yielded_current]; decide), yielded_inside, Function.update_self]

/-- If process 3 does make a system call, process 2 returns to user mode behind the call of
    process 3, with its 2 in `rbx` in the place of the 1. -/
theorem sysret_with_foreign_frame : ∃ k', Run Step (start twoAdded userMachine)
    [.syscall 0x8000200002 0x100100, .sched .yield, .syscall 0x8000200004 0x100100, .sched .yield,
      .sched .timer] overwritten ∧ overwritten.sched.current = 2 ∧
    overwritten.call = some yieldedCall ∧ overwritten.Step .sysret k' ∧
    k'.machine.cpu.rip = 0x8000200004 ∧ yieldedCall.user.rcx = 0x8000200002 ∧
    k'.machine.cpu.userFrame ≠ yieldedCall.user.userFrame := by
  have hrsp : yieldedCall.rsp = overwritten.machine.kernelStackTop - 72 := by
    rw [overwritten_top, yieldedCall, Machine.syscallEntry_rsp, Machine.syscall, userMachine]
    decide
  have step := step_left overwritten overwritten_call
  obtain ⟨hrestored, hrip⟩ := sysret_userFrame overwritten_call hrsp overwritten_frame step
  have hrcx : (yielded.machine.syscall 0x8000200004).cpu.userFrame.rcx = 0x8000200004 := by
    rw [Machine.syscall, Cpu.userFrame]
  have huser : yieldedCall.user.rcx = 0x8000200002 := by
    rw [yieldedCall, Machine.syscall]
  refine ⟨_, yielded_run.of_guarded.append overwritten_run, ?_, overwritten_call, step,
    hrip.trans hrcx, huser, fun h => ?_⟩
  · rw [overwritten, switched, bothYielded_currents.2]
  · have hsame : (0x8000200004 : Word) = 0x8000200002 := by
      rw [← hrcx, ← huser, ← hrestored, h, Cpu.userFrame]
    exact absurd hsame (by decide)

end TwoProcesses

end SyscallKernel

end CustomKernel
