/-
Module: CustomKernel.Library.PortProgram
Layer: Library
Purpose: Drivers that talk to their devices through I/O ports. A driver is a program of `outb` and
  `inb` operations, a device is what a write to a port and a read from a port do to its state, and a
  program runs against a device. A machine with several devices decodes the port number: `Part` says
  which device answers on which ports, and a driver that keeps to the ports of one device acts on
  that device as if it were alone, and on no other. Nor does it matter that handlers which talk to
  other devices come in between its accesses.
Imports: CustomKernel.Library.Loops, Mathlib.Logic.Basic
Trusted boundary: none (fully proved)
Main exports: PortProgram, Device, PortProgram.run, PortProgram.forRange, PortProgram.exec_forRange,
  PortProgram.Uses, PortProgram.interrupted, Device.Part, Device.Part.run_own,
  Device.Part.run_other, Device.Part.run_interrupted, Device.Part.exec_interrupted
-/
import CustomKernel.Library.Loops
import Mathlib.Logic.Basic

/-- An I/O port. -/
abbrev Port := BitVec 16

/-- A program that reads and writes ports and ends with a value. -/
inductive PortProgram (α : Type) where
  | done (value : α)
  | write (port : Port) (value : BitVec 8) (next : PortProgram α)
  | read (port : Port) (next : BitVec 8 → PortProgram α)

/-- What port accesses do to the state of a device. -/
structure Device (σ : Type) where
  write : Port → BitVec 8 → σ → σ
  read : Port → σ → BitVec 8 × σ

namespace PortProgram

variable {α β σ τ : Type} {d : Device σ} {s : σ}

/-- One program after another. -/
def bind : PortProgram α → (α → PortProgram β) → PortProgram β
  | .done value, rest => rest value
  | .write port value next, rest => .write port value (next.bind rest)
  | .read port next, rest => .read port fun value => (next value).bind rest

instance : Monad PortProgram where
  pure := .done
  bind := bind

/-- Write a byte to a port. -/
def outb (port : Port) (value : BitVec 8) : PortProgram Unit := .write port value (.done ())

/-- Read a byte from a port. -/
def inb (port : Port) : PortProgram (BitVec 8) := .read port .done

/-- Run a program against a device. -/
def run (d : Device σ) : PortProgram α → σ → α × σ
  | .done value, s => (value, s)
  | .write port value next, s => next.run d (d.write port value s)
  | .read port next, s => (next (d.read port s).1).run d (d.read port s).2

/-- What a program leaves of the device. -/
def exec (d : Device σ) (program : PortProgram α) (s : σ) : σ := (program.run d s).2

@[simp] theorem run_pure (value : α) : (pure value : PortProgram α).run d s = (value, s) := rfl

@[simp] theorem run_outb (port : Port) (value : BitVec 8) :
    (outb port value).run d s = ((), d.write port value s) := rfl

@[simp] theorem run_inb (port : Port) : (inb port).run d s = d.read port s := rfl

/-- Programs run one after the other. -/
@[simp] theorem run_bind (program : PortProgram α) (rest : α → PortProgram β) (s : σ) :
    (program >>= rest).run d s = (rest (program.run d s).1).run d (program.run d s).2 := by
  show (program.bind rest).run d s = _
  induction program generalizing s with
  | done value => rfl
  | write port value next ih => exact ih _
  | read port next ih => exact ih _ _

@[simp] theorem exec_pure (value : α) : (pure value : PortProgram α).exec d s = s := rfl

@[simp] theorem exec_outb (port : Port) (value : BitVec 8) :
    (outb port value).exec d s = d.write port value s := rfl

@[simp] theorem exec_inb (port : Port) : (inb port).exec d s = (d.read port s).2 := rfl

@[simp] theorem exec_bind (program : PortProgram α) (rest : α → PortProgram β) (s : σ) :
    (program >>= rest).exec d s = (rest (program.run d s).1).exec d (program.exec d s) := by
  rw [exec, run_bind]
  rfl

/-! ### Loops -/

/-- `count` rounds of a loop, the first one at index `i`. -/
def iterateFrom (body : Nat → PortProgram Unit) : (count i : Nat) → PortProgram Unit
  | 0, _ => pure ()
  | count + 1, i => do
      body i
      iterateFrom body count (i + 1)

/-- `for (i = lo; i < hi; i++) body(i)`. -/
def forRange (lo hi : Nat) (body : Nat → PortProgram Unit) : PortProgram Unit :=
  iterateFrom body (hi - lo) lo

theorem exec_iterateFrom (body : Nat → PortProgram Unit) : ∀ (count i : Nat) (s : σ),
    (iterateFrom body count i).exec d s = Loops.iterateFrom (fun i => (body i).exec d) count i s
  | 0, _, _ => rfl
  | count + 1, i, s => by
      rw [iterateFrom, exec_bind, exec_iterateFrom body count]
      rfl

/-- A loop of port accesses is a loop on the device. -/
theorem exec_forRange (lo hi : Nat) (body : Nat → PortProgram Unit) (s : σ) :
    (forRange lo hi body).exec d s = Loops.forRange lo hi (fun i => (body i).exec d) s :=
  exec_iterateFrom body (hi - lo) lo s

/-! ### The ports a program uses -/

/-- Every access of the program is to one of these ports, whatever it reads. -/
def Uses (ports : Port → Prop) : PortProgram α → Prop
  | .done _ => True
  | .write port _ next => ports port ∧ next.Uses ports
  | .read port next => ports port ∧ ∀ value, (next value).Uses ports

variable {ports : Port → Prop}

theorem uses_pure (value : α) : (pure value : PortProgram α).Uses ports := trivial

theorem uses_outb {port : Port} (h : ports port) (value : BitVec 8) : (outb port value).Uses ports :=
  ⟨h, trivial⟩

theorem uses_inb {port : Port} (h : ports port) : (inb port).Uses ports := ⟨h, fun _ => trivial⟩

theorem uses_bind {program : PortProgram α} {rest : α → PortProgram β} (first : program.Uses ports)
    (second : ∀ value, (rest value).Uses ports) : (program >>= rest).Uses ports := by
  show (program.bind rest).Uses ports
  induction program with
  | done value => exact second value
  | write port value next ih => exact ⟨first.1, ih first.2⟩
  | read port next ih => exact ⟨first.1, fun value => ih value (first.2 value)⟩

theorem uses_iterateFrom {body : Nat → PortProgram Unit} (h : ∀ i, (body i).Uses ports) :
    ∀ count i : Nat, (iterateFrom body count i).Uses ports
  | 0, _ => trivial
  | count + 1, i => uses_bind (h i) fun _ => uses_iterateFrom h count (i + 1)

theorem uses_forRange {body : Nat → PortProgram Unit} (h : ∀ i, (body i).Uses ports) (lo hi : Nat) :
    (forRange lo hi body).Uses ports :=
  uses_iterateFrom h (hi - lo) lo

/-- A program keeps to any set of ports that contains those it uses. -/
theorem Uses.mono {others : Port → Prop} (h : ∀ port, ports port → others port) :
    ∀ {program : PortProgram α}, program.Uses ports → program.Uses others
  | .done _, _ => trivial
  | .write port _ _, hu => ⟨h port hu.1, hu.2.mono h⟩
  | .read port _, hu => ⟨h port hu.1, fun value => (hu.2 value).mono h⟩

/-! ### Interrupts -/

/-- The program with a handler that comes in before each of its accesses and at its end: the first time
    it is `handler n`. -/
def interrupted (handler : Nat → PortProgram Unit) : (n : Nat) → PortProgram α → PortProgram α
  | n, .done value => handler n >>= fun _ => .done value
  | n, .write port value next =>
      handler n >>= fun _ => .write port value (interrupted handler (n + 1) next)
  | n, .read port next =>
      handler n >>= fun _ => .read port fun value => interrupted handler (n + 1) (next value)

theorem uses_interrupted {handler : Nat → PortProgram Unit} (h : ∀ n, (handler n).Uses ports) :
    ∀ {program : PortProgram α} (n : Nat), program.Uses ports →
      (program.interrupted handler n).Uses ports
  | .done _, n, _ => uses_bind (h n) fun _ => trivial
  | .write _ _ _, n, hu => uses_bind (h n) fun _ => ⟨hu.1, uses_interrupted h (n + 1) hu.2⟩
  | .read _ _, n, hu =>
      uses_bind (h n) fun _ => ⟨hu.1, fun value => uses_interrupted h (n + 1) (hu.2 value)⟩

end PortProgram

namespace Device

variable {α σ τ : Type}

/-- In the machine `whole`, the device `part` answers on these ports and on no others; `get` is its
    share of the state. -/
structure Part (whole : Device τ) (part : Device σ) (ports : Port → Prop) (get : τ → σ) : Prop where
  write_own : ∀ p v t, ports p → get (whole.write p v t) = part.write p v (get t)
  write_other : ∀ p v t, ¬ ports p → get (whole.write p v t) = get t
  read_own : ∀ p t, ports p → (whole.read p t).1 = (part.read p (get t)).1 ∧
    get (whole.read p t).2 = (part.read p (get t)).2
  read_other : ∀ p t, ¬ ports p → get (whole.read p t).2 = get t

variable {whole : Device τ} {part : Device σ} {ports : Port → Prop} {get : τ → σ}

/-- A program that keeps to the ports of a device runs as on that device alone. -/
theorem Part.run_own (h : Part whole part ports get) :
    ∀ {program : PortProgram α} (t : τ), program.Uses ports →
      (program.run whole t).1 = (program.run part (get t)).1 ∧
        get (program.run whole t).2 = (program.run part (get t)).2
  | .done _, _, _ => ⟨rfl, rfl⟩
  | .write port value next, t, hu => by
      have ih := h.run_own (whole.write port value t) hu.2
      rw [h.write_own port value t hu.1] at ih
      exact ih
  | .read port next, t, hu => by
      obtain ⟨hvalue, hstate⟩ := h.read_own port t hu.1
      have ih := h.run_own (whole.read port t).2 (hu.2 (whole.read port t).1)
      rw [hstate, hvalue] at ih
      rw [PortProgram.run, PortProgram.run, hvalue]
      exact ih

/-- A program that keeps off the ports of a device leaves it alone. -/
theorem Part.run_other (h : Part whole part ports get) :
    ∀ {program : PortProgram α} (t : τ), program.Uses (fun p => ¬ ports p) →
      get (program.run whole t).2 = get t
  | .done _, _, _ => rfl
  | .write port value _, t, hu =>
      (h.run_other (whole.write port value t) hu.2).trans
        (h.write_other port value t hu.1)
  | .read port _, t, hu =>
      (h.run_other (whole.read port t).2 (hu.2 (whole.read port t).1)).trans
        (h.read_other port t hu.1)

/-- The two rules for what a program leaves. -/
theorem Part.exec_own (h : Part whole part ports get) {program : PortProgram α}
    (uses : program.Uses ports) (t : τ) : get (program.exec whole t) = program.exec part (get t) :=
  (h.run_own t uses).2

theorem Part.exec_other (h : Part whole part ports get) {others : Port → Prop}
    (apart : ∀ p, others p → ¬ ports p) {program : PortProgram α} (uses : program.Uses others) (t : τ) :
    get (program.exec whole t) = get t :=
  h.run_other t (uses.mono apart)

/-! ### Interrupts -/

/-- Handlers that keep off the ports of a device do not show in what a program does there, wherever
    they come in. -/
theorem Part.run_interrupted (h : Part whole part ports get) {handler : Nat → PortProgram Unit}
    (away : ∀ n, (handler n).Uses fun p => ¬ ports p) :
    ∀ {program : PortProgram α} (n : Nat) (t : τ), program.Uses ports →
      ((program.interrupted handler n).run whole t).1 = (program.run part (get t)).1 ∧
        get ((program.interrupted handler n).run whole t).2 = (program.run part (get t)).2
  | .done value, n, t, _ => by
      rw [PortProgram.interrupted, PortProgram.run_bind]
      exact ⟨rfl, h.run_other t (away n)⟩
  | .write port value next, n, t, hu => by
      have ih := h.run_interrupted away (n + 1)
        (whole.write port value ((handler n).run whole t).2) hu.2
      rw [h.write_own port value _ hu.1, h.run_other t (away n)] at ih
      rw [PortProgram.interrupted, PortProgram.run_bind]
      exact ih
  | .read port next, n, t, hu => by
      obtain ⟨hvalue, hstate⟩ := h.read_own port ((handler n).run whole t).2 hu.1
      rw [h.run_other t (away n)] at hvalue hstate
      have ih := h.run_interrupted away (n + 1) (whole.read port ((handler n).run whole t).2).2
        (hu.2 (whole.read port ((handler n).run whole t).2).1)
      rw [hstate, hvalue] at ih
      rw [PortProgram.interrupted, PortProgram.run_bind, PortProgram.run, PortProgram.run, hvalue]
      exact ih

/-- A device that only the handlers talk to sees them one after the other. -/
theorem Part.exec_interrupted (h : Part whole part ports get) {handler : Nat → PortProgram Unit}
    (own : ∀ n, (handler n).Uses ports) :
    ∀ {program : PortProgram α} (n : Nat) (t : τ), program.Uses (fun p => ¬ ports p) →
      ∃ count, get ((program.interrupted handler n).exec whole t) =
        (PortProgram.iterateFrom handler count n).exec part (get t)
  | .done value, n, t, _ => by
      refine ⟨1, ?_⟩
      rw [PortProgram.interrupted, PortProgram.exec_bind, PortProgram.iterateFrom,
        PortProgram.exec_bind]
      exact h.exec_own (own n) t
  | .write port value next, n, t, hu => by
      obtain ⟨count, ih⟩ := h.exec_interrupted own (n + 1)
        (whole.write port value ((handler n).exec whole t)) hu.2
      refine ⟨count + 1, ?_⟩
      rw [h.write_other port value _ hu.1, h.exec_own (own n)] at ih
      rw [PortProgram.interrupted, PortProgram.exec_bind, PortProgram.iterateFrom,
        PortProgram.exec_bind]
      exact ih
  | .read port next, n, t, hu => by
      obtain ⟨count, ih⟩ := h.exec_interrupted own (n + 1)
        (whole.read port ((handler n).exec whole t)).2
        (hu.2 (whole.read port ((handler n).exec whole t)).1)
      refine ⟨count + 1, ?_⟩
      rw [h.read_other port _ hu.1, h.exec_own (own n)] at ih
      rw [PortProgram.interrupted, PortProgram.exec_bind, PortProgram.iterateFrom,
        PortProgram.exec_bind]
      exact ih

end Device
