/-
Module: CustomKernel.Proofs.DescriptorTables
Layer: Proofs
Purpose: The descriptor tables as the processor reads them. The kernel fills in packed structures
  field by field; the processor puts the base of a segment together from three or four places and the
  address of a handler from three. Each of the functions that set an entry is brought to what is read
  back from it, and what it leaves alone.
Imports: CustomKernel.Cpu.Idt, CustomKernel.Cpu.Gdt, CustomKernel.Library.Bits
Trusted boundary: as in Gdt: the accessed and busy bits that the processor sets in a descriptor are
  left out
Main exports: gateAt_set, gateAt_congr, interrupt_gates, segmentAt_set, TablesHold, TablesLoaded,
  gdtInit_loads, descriptor_tables
-/
import CustomKernel.Cpu.Idt
import CustomKernel.Cpu.Gdt
import CustomKernel.Library.Bits

namespace CustomKernel

open ByteMemory

/-! ### Gates -/

section Gates

variable {idt : Nat} {n : BitVec 8} {handler : Word} {typeAttr : BitVec 8} {mem mem' : ByteMem}

/-- An entry of the table is 16 bytes. -/
theorem idtSetEntry_outside {a : Nat}
    (ha : a < idt + 16 * n.toNat ∨ idt + 16 * n.toNat + 16 ≤ a) :
    idtSetEntry idt n handler typeAttr mem a = mem a := by
  unfold idtSetEntry
  simp (disch := omega) only [store_outside]

/-- A gate depends on its 16 bytes. -/
theorem gateAt_congr {v : Nat}
    (h : ∀ a, idt + 16 * v ≤ a → a < idt + 16 * v + 16 → mem' a = mem a) :
    gateAt mem' idt v = gateAt mem idt v := by
  have hload : ∀ m k, k + m ≤ 16 →
      load mem' m (idt + 16 * v + k) = load mem m (idt + 16 * v + k) :=
    fun m k hk => load_congr fun a hlo hhi => h a (by omega) (by omega)
  unfold gateAt
  dsimp only
  rw [hload 2 6 (by omega), hload 4 8 (by omega), hload 2 2 (by omega), hload 1 4 (by omega),
    hload 1 5 (by omega)]
  have hfirst := hload 2 0 (by omega)
  rw [Nat.add_zero] at hfirst
  rw [hfirst]

/-- The three parts of a handler's address. -/
theorem handler_fields (v : Word) :
    (v &&& 0xFFFF).toNat = v.toNat % 2 ^ 16 ∧
      (v >>> 16 &&& 0xFFFF).toNat = v.toNat / 2 ^ 16 % 2 ^ 16 ∧
      (v >>> 32 &&& 0xFFFFFFFF).toNat = v.toNat / 2 ^ 32 % 2 ^ 32 :=
  ⟨Bits.toNat_and_lowMask v (n := 16) (by decide), Bits.toNat_field v 16 (n := 16) (by decide),
    Bits.toNat_field v 32 (n := 32) (by decide)⟩

/-- What the processor reads from an entry that has been set. -/
theorem gateAt_set (idt : Nat) (n : BitVec 8) (handler : Word) (typeAttr : BitVec 8)
    (mem : ByteMem) :
    gateAt (idtSetEntry idt n handler typeAttr mem) idt n.toNat =
      { offset := handler.toNat, selector := 8, ist := 0, type := typeAttr.toNat % 16
        dpl := typeAttr.toNat / 32 % 4, present := typeAttr.toNat / 128 % 2 = 1 } := by
  obtain ⟨hlow, hmid, hhigh⟩ := handler_fields handler
  have hattr : typeAttr.toNat % 256 ^ 1 = typeAttr.toNat := Nat.mod_eq_of_lt typeAttr.isLt
  have hlt := handler.isLt
  have hoffset : handler.toNat % 2 ^ 16 % 256 ^ 2 +
      2 ^ 16 * (handler.toNat / 2 ^ 16 % 2 ^ 16 % 256 ^ 2) +
        2 ^ 32 * (handler.toNat / 2 ^ 32 % 2 ^ 32 % 256 ^ 4) = handler.toNat := by omega
  unfold gateAt idtSetEntry
  simp (disch := omega) only [load_store_apart, load_store_self, hattr, hlow, hmid, hhigh, hoffset]
  rfl

/-- `idt_init` fills in the first 48 gates. -/
theorem idtInit_gates (idt : Nat) (stubs : Nat → Word) (mem : ByteMem) (handlers : IsrHandlers) :
    (∀ v < 48, gateAt (idtInit idt stubs mem handlers).1 idt v =
        { offset := (stubs v).toNat, selector := 8, ist := 0, type := 0xE, dpl := 0
          present := true }) ∧
      ∀ a, a < idt ∨ idt + 768 ≤ a → (idtInit idt stubs mem handlers).1 a = mem a := by
  have hloop := @Loops.forRange_invariant _
    (fun i => idtSetEntry idt (BitVec.ofNat 8 i) (stubs i) 0x8E)
    (fun k (mem' : ByteMem) =>
      (∀ v < k, gateAt mem' idt v =
        { offset := (stubs v).toNat, selector := 8, ist := 0, type := 0xE, dpl := 0
          present := true }) ∧
      ∀ a, a < idt ∨ idt + 768 ≤ a → mem' a = mem a)
    0 48 mem (Nat.zero_le 48) ⟨fun v hv => absurd hv (Nat.not_lt_zero v), fun _ _ => rfl⟩
    (fun k mem' _ hk inv => by
      have hn : (BitVec.ofNat 8 k).toNat = k := by
        rw [BitVec.toNat_ofNat]
        omega
      refine ⟨fun v hv => ?_, fun a ha => ?_⟩
      · rcases Nat.lt_succ_iff_lt_or_eq.1 hv with hlt | rfl
        · rw [gateAt_congr fun a hlo hhi => idtSetEntry_outside (by rw [hn]; omega)]
          exact inv.1 v hlt
        · have hset := gateAt_set idt (BitVec.ofNat 8 v) (stubs v) 0x8E mem'
          rw [hn] at hset
          exact hset
      · rw [idtSetEntry_outside (by rw [hn]; omega)]
        exact inv.2 a ha)
  exact hloop

/-- After `idt_init`, at whatever address the table is and whatever it held, the processor finds an
    interrupt gate to the stub of the vector in each of the first 48 entries, which only the kernel
    can use for software interrupts; the other 208 are as they were, and nothing else is written. The
    table the processor knows has all 256 entries. -/
theorem interrupt_gates (idt : Nat) (stubs : Nat → Word) (mem : ByteMem) (handlers : IsrHandlers) :
    (∀ v < 256, gateAt (idtInit idt stubs mem handlers).1 idt v =
      if v < 48 then
        { offset := (stubs v).toNat, selector := 8, ist := 0, type := 0xE, dpl := 0
          present := true }
      else gateAt mem idt v) ∧
    (∀ a, a < idt ∨ idt + 768 ≤ a → (idtInit idt stubs mem handlers).1 a = mem a) ∧
    (idtInit idt stubs mem handlers).2.1.limit.toNat + 1 = 256 * 16 ∧
    ∀ v, (idtInit idt stubs mem handlers).2.2.cells v =
      if v = 6 then some .udHandler else if v = 14 then some .pageFaultHandler
      else handlers.cells v := by
  obtain ⟨hgates, houtside⟩ := idtInit_gates idt stubs mem handlers
  refine ⟨fun v hv => ?_, houtside, rfl, fun v => rfl⟩
  by_cases h : v < 48
  · rw [if_pos h]
    exact hgates v h
  · rw [if_neg h]
    exact gateAt_congr fun a hlo _ => houtside a (by omega)

end Gates

/-! ### Segments -/

section Segments

variable {gdt i : Nat} {base limit : BitVec 32} {access gran : BitVec 8} {mem mem' : ByteMem}

theorem gdtSetEntry_outside {a : Nat} (ha : a < gdt + 8 * i ∨ gdt + 8 * i + 8 ≤ a) :
    gdtSetEntry gdt i base limit access gran mem a = mem a := by
  unfold gdtSetEntry
  simp (disch := omega) only [store_outside]

/-- A descriptor depends on its 8 bytes. -/
theorem segmentAt_congr (h : ∀ a, gdt + 8 * i ≤ a → a < gdt + 8 * i + 8 → mem' a = mem a) :
    segmentAt mem' gdt i = segmentAt mem gdt i := by
  have hload : ∀ m k, k + m ≤ 8 →
      load mem' m (gdt + 8 * i + k) = load mem m (gdt + 8 * i + k) :=
    fun m k hk => load_congr fun a hlo hhi => h a (by omega) (by omega)
  have hfirst := hload 2 0 (by omega)
  rw [Nat.add_zero] at hfirst
  unfold segmentAt
  dsimp only
  rw [hload 2 2 (by omega), hload 1 4 (by omega), hload 1 7 (by omega), hload 1 6 (by omega),
    hload 1 5 (by omega), hfirst]

/-- A descriptor of 16 bytes depends on these. -/
theorem tssAt_congr (h : ∀ a, gdt + 8 * i ≤ a → a < gdt + 8 * i + 16 → mem' a = mem a) :
    tssAt mem' gdt i = tssAt mem gdt i := by
  have hupper : load mem' 4 (gdt + 8 * i + 8) = load mem 4 (gdt + 8 * i + 8) :=
    load_congr fun a hlo hhi => h a (by omega) (by omega)
  unfold tssAt
  rw [segmentAt_congr fun a hlo hhi => h a hlo (by omega), hupper]

/-- The byte that holds the top of the limit and the flags. -/
theorem granularity_nibbles : ∀ (x : BitVec 4) (gran : BitVec 8),
    (x.setWidth 8 ||| gran &&& 0xF0).toNat % 16 = x.toNat ∧
      (x.setWidth 8 ||| gran &&& 0xF0).toNat / 16 = gran.toNat / 16 := by
  decide +kernel

theorem limit_nibble (limit : BitVec 32) :
    (limit >>> 16 &&& 0x0F).setWidth 8 = ((limit >>> 16).setWidth 4).setWidth 8 := by
  apply BitVec.eq_of_toNat_eq
  have hfield : (limit >>> 16 &&& 0x0F).toNat = limit.toNat / 2 ^ 16 % 2 ^ 4 :=
    Bits.toNat_field limit 16 (n := 4) (by decide)
  rw [BitVec.toNat_setWidth, BitVec.toNat_setWidth, BitVec.toNat_setWidth, hfield,
    BitVec.toNat_ushiftRight, Nat.shiftRight_eq_div_pow]

/-- The three parts of a base of 32 bits. -/
theorem base_fields (v : BitVec 32) :
    (v &&& 0xFFFF).toNat = v.toNat % 2 ^ 16 ∧ (v >>> 16 &&& 0xFF).toNat = v.toNat / 2 ^ 16 % 2 ^ 8 ∧
      (v >>> 24 &&& 0xFF).toNat = v.toNat / 2 ^ 24 % 2 ^ 8 :=
  ⟨Bits.toNat_and_lowMask v (n := 16) (by decide), Bits.toNat_field v 16 (n := 8) (by decide),
    Bits.toNat_field v 24 (n := 8) (by decide)⟩

/-- What the processor reads from an entry that has been set: of the limit there are 20 bits. -/
theorem segmentAt_set (gdt i : Nat) (base limit : BitVec 32) (access gran : BitVec 8)
    (mem : ByteMem) :
    segmentAt (gdtSetEntry gdt i base limit access gran mem) gdt i =
      { base := base.toNat, limit := limit.toNat % 2 ^ 20, access := access.toNat
        flags := gran.toNat / 16 } := by
  obtain ⟨hbaseLow, hbaseMid, hbaseHigh⟩ := base_fields base
  obtain ⟨hlimitLow, -, -⟩ := base_fields limit
  obtain ⟨hlow, hhigh⟩ := granularity_nibbles ((limit >>> 16).setWidth 4) gran
  have haccess : access.toNat % 256 ^ 1 = access.toNat := Nat.mod_eq_of_lt access.isLt
  have hgran : (((limit >>> 16).setWidth 4).setWidth 8 ||| gran &&& 0xF0).toNat % 256 ^ 1 =
      (((limit >>> 16).setWidth 4).setWidth 8 ||| gran &&& 0xF0).toNat :=
    Nat.mod_eq_of_lt (BitVec.isLt _)
  have hbaseLt := base.isLt
  have hbase : base.toNat % 2 ^ 16 % 256 ^ 2 + 2 ^ 16 * (base.toNat / 2 ^ 16 % 2 ^ 8 % 256 ^ 1) +
      2 ^ 24 * (base.toNat / 2 ^ 24 % 2 ^ 8 % 256 ^ 1) = base.toNat := by omega
  have hlimit : limit.toNat % 2 ^ 16 % 256 ^ 2 + 2 ^ 16 * ((limit >>> 16).setWidth 4).toNat =
      limit.toNat % 2 ^ 20 := by
    rw [BitVec.toNat_setWidth, BitVec.toNat_ushiftRight, Nat.shiftRight_eq_div_pow]
    omega
  unfold segmentAt gdtSetEntry
  simp (disch := omega) only [load_store_apart, load_store_self, limit_nibble, hbaseLow, hbaseMid,
    hbaseHigh, hlimitLow, hgran, hlow, hhigh, haccess, hbase, hlimit]

/-! ### The task state segment -/

variable {tss : Word} {td : Nat}

theorem clearTss_outside {tss a : Nat} (ha : a < tss ∨ tss + 104 ≤ a) :
    clearTss tss mem a = mem a := by
  unfold clearTss
  rw [store_outside (by omega), zero_loop_outside (by omega)]

theorem clearTss_inside {tss k : Nat} (hk : k < 102) : clearTss tss mem (tss + k) = 0 := by
  unfold clearTss
  rw [store_outside (by omega)]
  exact zero_loop_inside (by omega)

theorem setTssDescriptor_outside {a : Nat} (ha : a < td ∨ td + 16 ≤ a) :
    setTssDescriptor td tss mem a = mem a := by
  unfold setTssDescriptor
  simp (disch := omega) only [store_outside]

/-- The processor finds the task state segment where it is, anywhere in 64 bits. -/
theorem tssAt_set (gdt i : Nat) (tss : Word) (mem : ByteMem) :
    tssAt (setTssDescriptor (gdt + 8 * i) tss mem) gdt i =
      { base := tss.toNat, limit := 103, access := 0x89, flags := 0 } := by
  have hlow : (tss &&& 0xFFFF).toNat = tss.toNat % 2 ^ 16 :=
    Bits.toNat_and_lowMask tss (n := 16) (by decide)
  have hmid : (tss >>> 16 &&& 0xFF).toNat = tss.toNat / 2 ^ 16 % 2 ^ 8 :=
    Bits.toNat_field tss 16 (n := 8) (by decide)
  have hhigh : (tss >>> 24 &&& 0xFF).toNat = tss.toNat / 2 ^ 24 % 2 ^ 8 :=
    Bits.toNat_field tss 24 (n := 8) (by decide)
  have hupper : (tss >>> 32).toNat = tss.toNat / 2 ^ 32 := by
    rw [BitVec.toNat_ushiftRight, Nat.shiftRight_eq_div_pow]
  have hlt := tss.isLt
  have hbase : tss.toNat % 2 ^ 16 % 256 ^ 2 + 2 ^ 16 * (tss.toNat / 2 ^ 16 % 2 ^ 8 % 256 ^ 1) +
      2 ^ 24 * (tss.toNat / 2 ^ 24 % 2 ^ 8 % 256 ^ 1) + 2 ^ 32 * (tss.toNat / 2 ^ 32 % 256 ^ 4) =
        tss.toNat := by omega
  unfold tssAt segmentAt setTssDescriptor
  simp (disch := omega) only [load_store_apart, load_store_self, hlow, hmid, hhigh, hupper, hbase]
  rfl

/-! ### The tables of the kernel -/

/-- Setting an entry leaves the other descriptors as they are. -/
theorem segmentAt_set_ne {j : Nat} (h : i ≠ j) :
    segmentAt (gdtSetEntry gdt j base limit access gran mem) gdt i = segmentAt mem gdt i :=
  segmentAt_congr fun a hlo hhi => gdtSetEntry_outside (by omega)

/-- The first five descriptors: none, code and data of the kernel, data and code of user programs. -/
def kernelSegments : List Segment :=
  [⟨0, 0, 0x00, 0x0⟩, ⟨0, 0xFFFFF, 0x9A, 0xA⟩, ⟨0, 0xFFFFF, 0x92, 0xC⟩, ⟨0, 0xFFFFF, 0xF2, 0xC⟩,
    ⟨0, 0xFFFFF, 0xFA, 0xA⟩]

/-- The tables in memory: the five segments, and in the entry behind them a descriptor of the task
    state segment, which has no port bitmap, and nothing set but the stack pointer of ring 0. -/
structure TablesHold (gdt : Nat) (tss rsp0 : Word) (mem : ByteMem) : Prop where
  segments : ∀ i segment, kernelSegments[i]? = some segment → segmentAt mem gdt i = segment
  descriptor : tssAt mem gdt 5 = { base := tss.toNat, limit := 103, access := 0x89, flags := 0 }
  rsp0 : load mem 8 (tss.toNat + 4) = rsp0.toNat
  rest : ∀ k, k < 4 ∨ 12 ≤ k ∧ k < 102 → mem (tss.toNat + k) = 0
  bitmap : load mem 2 (tss.toNat + 102) = 104

/-- The two tables do not overlap. -/
def TablesApart (gdt : Nat) (tss : Word) : Prop := gdt + 56 ≤ tss.toNat ∨ tss.toNat + 104 ≤ gdt

instance (gdt : Nat) (tss : Word) : Decidable (TablesApart gdt tss) :=
  inferInstanceAs (Decidable (_ ∨ _))

/-- Bytes that are all zero. -/
theorem load_zero : ∀ (n addr : Nat), (∀ a, addr ≤ a → a < addr + n → mem a = 0) →
    load mem n addr = 0
  | 0, _, _ => rfl
  | n + 1, addr, h => by
      rw [load, h addr (Nat.le_refl _) (by omega),
        load_zero n (addr + 1) fun a hlo hhi => h a (by omega) (by omega)]
      rfl

/-- The five entries survive what `gdt_init` does after them. -/
theorem segments_hold (apart : TablesApart gdt tss) (segment : Segment)
    (hi : kernelSegments[i]? = some segment) (syscallEntry : Word) (r : SystemRegisters) :
    segmentAt (gdtInit gdt tss syscallEntry mem r).1 gdt i = segment := by
  have hlt : i < 5 := (List.getElem?_eq_some_iff.1 hi).1
  unfold TablesApart at apart
  unfold gdtInit
  dsimp only
  rw [segmentAt_congr fun a hlo hhi => setTssDescriptor_outside (by omega),
    segmentAt_congr fun a hlo hhi => clearTss_outside (by omega)]
  match i, hlt with
  | 0, _ | 1, _ | 2, _ | 3, _ | 4, _ =>
      obtain rfl := Option.some.inj hi
      simp [segmentAt_set, segmentAt_set_ne]

/-- What `gdt_init` leaves in memory, whatever was there. -/
theorem gdtInit_tables (apart : TablesApart gdt tss) (syscallEntry : Word) (mem : ByteMem)
    (r : SystemRegisters) :
    TablesHold gdt tss 0 (gdtInit gdt tss syscallEntry mem r).1 ∧
      ∀ a, (a < gdt ∨ gdt + 56 ≤ a) → (a < tss.toNat ∨ tss.toNat + 104 ≤ a) →
        (gdtInit gdt tss syscallEntry mem r).1 a = mem a := by
  have hcleared : ∀ k < 102, (gdtInit gdt tss syscallEntry mem r).1 (tss.toNat + k) = 0 := by
    intro k hk
    unfold TablesApart at apart
    unfold gdtInit
    dsimp only
    rw [setTssDescriptor_outside (by omega), clearTss_inside hk]
  refine ⟨⟨fun i segment hi => segments_hold apart segment hi syscallEntry r, tssAt_set .., ?_,
    fun k hk => hcleared k (by omega), ?_⟩, fun a hgdt htss => ?_⟩
  · refine load_zero 8 _ fun a hlo hhi => ?_
    have hk := hcleared (a - tss.toNat) (by omega)
    rwa [Nat.add_sub_cancel' (by omega)] at hk
  · unfold TablesApart at apart
    unfold gdtInit
    dsimp only
    rw [load_congr fun a hlo hhi => setTssDescriptor_outside (by omega), clearTss,
      load_store (by decide)]
  · unfold gdtInit
    dsimp only
    rw [setTssDescriptor_outside (by omega), clearTss_outside htss]
    simp (disch := omega) only [gdtSetEntry_outside]

/-- `tss_set_kernel_stack` changes the stack pointer and nothing else of the tables. -/
theorem TablesHold.setKernelStack {rsp0 : Word} (apart : TablesApart gdt tss)
    (h : TablesHold gdt tss rsp0 mem) (value : Word) :
    TablesHold gdt tss value (tssSetKernelStack tss.toNat value mem) := by
  unfold TablesApart at apart
  have houtside : ∀ a, a < tss.toNat + 4 ∨ tss.toNat + 12 ≤ a →
      tssSetKernelStack tss.toNat value mem a = mem a :=
    fun a ha => store_outside (by omega)
  refine ⟨fun i segment hi => ?_, ?_, load_store_word value rfl, fun k hk => ?_, ?_⟩
  · have hlt : i < 5 := (List.getElem?_eq_some_iff.1 hi).1
    rw [segmentAt_congr fun a hlo hhi => houtside a (by omega)]
    exact h.segments i segment hi
  · rw [tssAt_congr fun a hlo hhi => houtside a (by omega)]
    exact h.descriptor
  · rw [houtside _ (by omega)]
    exact h.rest k hk
  · rw [load_congr fun a hlo hhi => houtside a (by omega)]
    exact h.bitmap

/-- Any number of calls. -/
theorem TablesHold.setKernelStacks (apart : TablesApart gdt tss) :
    ∀ (values : List Word) {rsp0 : Word} {mem : ByteMem}, TablesHold gdt tss rsp0 mem →
      TablesHold gdt tss (values.getLastD rsp0)
        (values.foldl (fun mem value => tssSetKernelStack tss.toNat value mem) mem)
  | [], _, _, h => h
  | value :: values, _, _, h => by
      rw [List.getLastD_cons]
      exact setKernelStacks apart values (h.setKernelStack apart value)

end Segments

/-! ### Registers -/

/-- `edx:eax`. -/
theorem join_toNat (high low : BitVec 32) :
    (high.setWidth 64 <<< 32 ||| low.setWidth 64 : Word).toNat = 2 ^ 32 * high.toNat + low.toNat := by
  have hhigh := high.isLt
  have hlow := low.isLt
  have hmod : high.toNat <<< 32 % 2 ^ 64 = high.toNat <<< 32 := by
    rw [Nat.shiftLeft_eq]
    omega
  rw [BitVec.toNat_or, BitVec.toNat_shiftLeft, BitVec.toNat_setWidth_of_le (by decide),
    BitVec.toNat_setWidth_of_le (by decide), hmod, ← Nat.shiftLeft_add_eq_or_of_lt hlow,
    Nat.shiftLeft_eq, Nat.mul_comm]

/-- The two halves of a word are put together again. -/
theorem join_halves (val : Word) :
    (((val >>> 32).setWidth 32).setWidth 64 <<< 32 ||| (val.setWidth 32).setWidth 64 : Word) =
      val := by
  have hlt := val.isLt
  apply BitVec.eq_of_toNat_eq
  rw [join_toNat, BitVec.toNat_setWidth, BitVec.toNat_setWidth, BitVec.toNat_ushiftRight,
    Nat.shiftRight_eq_div_pow]
  omega

theorem setWidth_and_low (val : Word) : (val &&& 0xFFFFFFFF).setWidth 32 = val.setWidth 32 := by
  apply BitVec.eq_of_toNat_eq
  have hlow : (val &&& 0xFFFFFFFF).toNat = val.toNat % 2 ^ 32 :=
    Bits.toNat_and_lowMask val (n := 32) (by decide)
  rw [BitVec.toNat_setWidth, BitVec.toNat_setWidth, hlow, Nat.mod_mod]

@[simp] theorem wrmsr_eq (r : SystemRegisters) (msr : BitVec 32) (val : Word) :
    wrmsr r msr val = { r with msr := Function.update r.msr msr val } := by
  unfold wrmsr writeMsr
  dsimp only
  rw [setWidth_and_low, join_halves]

/-- What `syscall_init` leaves in the registers. -/
theorem syscallInit_eq (syscallEntry : Word) (r : SystemRegisters) :
    syscallInit syscallEntry r =
      { r with
        msr := Function.update (Function.update (Function.update (Function.update r.msr
          msrLstar syscallEntry) msrStar 0x0010000800000000) msrSfmask 0x200)
            msrEfer (r.msr msrEfer ||| 1) } := by
  have hefer : ∀ val : Word, (((val >>> 32).setWidth 32).setWidth 64 <<< 32 |||
      (val.setWidth 32 ||| 1 : BitVec 32).setWidth 64 : Word) = val ||| 1 := fun val => by
    rw [BitVec.setWidth_or, ← BitVec.or_assoc, join_halves]
    rfl
  unfold syscallInit
  simp only [wrmsr_eq]
  unfold writeMsr
  rw [hefer]
  rfl

/-! ### What the processor works with -/

/-- The tables and registers as the rest of the kernel relies on them. -/
structure TablesLoaded (gdt : Nat) (tss syscallEntry rsp0 : Word) (mem : ByteMem)
    (r : SystemRegisters) : Prop where
  tables : TablesHold gdt tss rsp0 mem
  base : r.gdtBase = gdt
  limit : r.gdtLimit.toNat + 1 = 7 * 8
  cs : r.cs = 0x08
  data : r.data = 0x10
  tr : r.tr = 0x28
  star : r.msr msrStar = 0x0010000800000000
  lstar : r.msr msrLstar = syscallEntry
  sfmask : r.msr msrSfmask = 0x200
  efer : (r.msr msrEfer).getLsbD 0 = true

/-- The descriptor a selector stands for, where the table has one. -/
def SystemRegisters.segment (r : SystemRegisters) (mem : ByteMem) (selector : BitVec 16) :
    Option Segment :=
  if 8 * selectorIndex selector + 8 ≤ r.gdtLimit.toNat + 1 then
    some (segmentAt mem r.gdtBase (selectorIndex selector))
  else none

namespace TablesLoaded

variable {gdt : Nat} {tss syscallEntry rsp0 : Word} {mem : ByteMem} {r : SystemRegisters}

theorem segment (h : TablesLoaded gdt tss syscallEntry rsp0 mem r) (selector : BitVec 16)
    (segment : Segment) (hi : kernelSegments[selectorIndex selector]? = some segment) :
    r.segment mem selector = some segment := by
  have hlt : selectorIndex selector < 5 := (List.getElem?_eq_some_iff.1 hi).1
  unfold SystemRegisters.segment
  rw [h.limit, if_pos (by omega), h.base, h.tables.segments _ segment hi]

/-- Entering ring 0 by an interrupt gate loads what `tss_set_kernel_stack` was given. -/
theorem hardwareRsp0 (h : TablesLoaded gdt tss syscallEntry rsp0 mem r) :
    hardwareRsp0 mem r = rsp0 := by
  unfold CustomKernel.hardwareRsp0
  rw [h.base, h.tr, show selectorIndex 0x28 = 5 from rfl, h.tables.descriptor, h.tables.rsp0,
    BitVec.ofNat_toNat, BitVec.setWidth_eq]

end TablesLoaded

/-- `gdt_init` loads the tables, whatever memory and registers held. -/
theorem gdtInit_loads {gdt : Nat} {tss : Word} (apart : TablesApart gdt tss) (syscallEntry : Word)
    (mem : ByteMem) (r : SystemRegisters) :
    TablesLoaded gdt tss syscallEntry 0 (gdtInit gdt tss syscallEntry mem r).1
      (gdtInit gdt tss syscallEntry mem r).2 := by
  refine ⟨(gdtInit_tables apart syscallEntry mem r).1, ?_, ?_, ?_, ?_, ?_, ?_, ?_, ?_, ?_⟩
  all_goals
    unfold gdtInit
    dsimp only
    rw [syscallInit_eq]
  all_goals simp [gdtFlush, msrStar, msrLstar, msrSfmask, msrEfer]

/-- The descriptor tables over the life of the kernel: `gdt_init`, then `tss_set_kernel_stack` any
    number of times, as the scheduler calls it at every switch. Wherever the two tables are, the
    processor finds by its own layout of the descriptors: flat code and data segments for the selectors
    in its registers; for `syscall` the code and data segments of ring 0; for `sysretq` those of
    ring 3, the data segment before the code segment; a task state segment whose stack pointer is the
    last one set. Memory outside the tables is not touched. The processor sets the accessed bit of a
    segment it loads and the busy bit of the task state segment; these bits are left as written. -/
theorem descriptor_tables (gdt : Nat) (tss syscallEntry : Word) (mem : ByteMem) (r : SystemRegisters)
    (values : List Word) (apart : TablesApart gdt tss) :
    let loaded := gdtInit gdt tss syscallEntry mem r
    let mem' := values.foldl (fun mem value => tssSetKernelStack tss.toNat value mem) loaded.1
    let r' := loaded.2
    r'.segment mem' r'.cs = some ⟨0, 0xFFFFF, 0x9A, 0xA⟩ ∧
      r'.segment mem' r'.data = some ⟨0, 0xFFFFF, 0x92, 0xC⟩ ∧
      r'.segment mem' (syscallCs r') = some ⟨0, 0xFFFFF, 0x9A, 0xA⟩ ∧
      r'.segment mem' (syscallSs r') = some ⟨0, 0xFFFFF, 0x92, 0xC⟩ ∧
      sysretCs r' = 0x23 ∧ r'.segment mem' (sysretCs r') = some ⟨0, 0xFFFFF, 0xFA, 0xA⟩ ∧
      sysretSs r' = 0x1B ∧ r'.segment mem' (sysretSs r') = some ⟨0, 0xFFFFF, 0xF2, 0xC⟩ ∧
      tssAt mem' r'.gdtBase (selectorIndex r'.tr) = ⟨tss.toNat, 103, 0x89, 0⟩ ∧
      hardwareRsp0 mem' r' = values.getLastD 0 ∧
      r'.msr msrLstar = syscallEntry ∧
      ∀ a, (a < gdt ∨ gdt + 56 ≤ a) → (a < tss.toNat ∨ tss.toNat + 104 ≤ a) → mem' a = mem a := by
  intro loaded mem' r'
  have hloaded := gdtInit_loads apart syscallEntry mem r
  have h : TablesLoaded gdt tss syscallEntry (values.getLastD 0) mem' r' :=
    { hloaded with tables := hloaded.tables.setKernelStacks apart values }
  have hcs : syscallCs r' = 0x08 := by
    unfold syscallCs
    rw [h.star]
    rfl
  have hsysret : sysretCs r' = 0x23 ∧ sysretSs r' = 0x1B := by
    unfold sysretCs sysretSs
    rw [h.star]
    exact ⟨rfl, rfl⟩
  have hss : syscallSs r' = 0x10 := by
    unfold syscallSs
    rw [hcs]
    rfl
  refine ⟨h.segment _ _ (by rw [h.cs]; rfl), h.segment _ _ (by rw [h.data]; rfl),
    h.segment _ _ (by rw [hcs]; rfl), h.segment _ _ (by rw [hss]; rfl), hsysret.1,
    h.segment _ _ (by rw [hsysret.1]; rfl), hsysret.2, h.segment _ _ (by rw [hsysret.2]; rfl), ?_,
    h.hardwareRsp0, h.lstar, fun a hgdt htss => ?_⟩
  · rw [h.base, h.tr]
    exact h.tables.descriptor
  · have houtside : ∀ (values : List Word) (mem : ByteMem),
        values.foldl (fun mem value => tssSetKernelStack tss.toNat value mem) mem a = mem a := by
      intro values
      induction values with
      | nil => exact fun _ => rfl
      | cons value values ih =>
          intro mem
          exact (ih _).trans (store_outside (by omega))
    exact (houtside values _).trans ((gdtInit_tables apart syscallEntry mem r).2 a hgdt htss)

/-- The tables are apart where the linker puts them one behind the other, high in memory. -/
theorem descriptor_tables_kernel :
    hardwareRsp0
        ([0xFFFF800000301000, 0xFFFF800000309000].foldl
          (fun mem value => tssSetKernelStack (0xFFFF800000112040 : Word).toNat value mem)
          (gdtInit 0xFFFF800000112000 0xFFFF800000112040 0xFFFF800000101234 (fun _ => 0xFF)
            ⟨0, 0, 0, 0, 0, fun _ => 0⟩).1)
        (gdtInit 0xFFFF800000112000 0xFFFF800000112040 0xFFFF800000101234 (fun _ => 0xFF)
          ⟨0, 0, 0, 0, 0, fun _ => 0⟩).2 = 0xFFFF800000309000 :=
  (descriptor_tables 0xFFFF800000112000 0xFFFF800000112040 0xFFFF800000101234 (fun _ => 0xFF)
    ⟨0, 0, 0, 0, 0, fun _ => 0⟩ [0xFFFF800000301000, 0xFFFF800000309000]
      (by decide)).2.2.2.2.2.2.2.2.2.1

end CustomKernel
