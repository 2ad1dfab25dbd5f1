/-
Module: CustomKernel.Proofs.FileDescriptors
Layer: Proofs
Purpose: Clients that share the table of open files do not notice each other. A client names the
  descriptors it has opened and not closed; which slots they are in depends on everybody, what the
  calls on them return does not. The proof is a simulation between a run with all clients and the
  run of one of them alone, in which the same names stand for other slots with the same entries.
Imports: CustomKernel.Filesystem.Ramdisk, Mathlib.Data.Fintype.EquivFin
Trusted boundary: as in Ramdisk: buffers are apart from the table of open files and from the archive
Main exports: FdCall, FdReply, Request, FdTable, serve, serveAll, SlotsInv, Simulates,
  fd_independence
-/
import CustomKernel.Filesystem.Ramdisk
import Mathlib.Data.Fintype.EquivFin

namespace CustomKernel.Filesystem

/-! ### Clients -/

/-- A call on a descriptor. -/
inductive FdCall where
  | openFile (path : List Byte)
  | read (len : Word)
  | seek (off : Word) (whence : Int)
  | size
  | close
deriving DecidableEq, Repr

/-- What the caller sees of it, descriptor numbers apart. -/
inductive FdReply where
  | opened
  | read (value : Int) (bytes : List Byte)
  | sought (value : Int)
  | size (value : Int)
  | closed
deriving DecidableEq, Repr

/-- A call, and the name of the descriptor it is about. -/
structure Request (κ : Type) where
  key : κ
  call : FdCall
deriving DecidableEq, Repr

/-- The ramdisk, and the descriptor numbers behind the names in use. -/
structure FdTable (κ : Type) where
  disk : Ramdisk
  names : κ → Option Int

section Serve

variable {κ : Type} [DecidableEq κ]

/-- One request: `none` where the rules are broken (a name in use is opened, a call is made on a
    descriptor that is not open), where `ramdisk_open` fails, or where a read does not come back. -/
def serve (t : FdTable κ) (q : Request κ) : Option (FdReply × FdTable κ) :=
  match q.call with
  | .openFile path =>
      if t.names q.key ≠ none then none
      else
        let (fd, disk) := ramdiskOpen t.disk path
        if fd < 0 then none
        else some (.opened, { disk := disk, names := Function.update t.names q.key (some fd) })
  | .read len => do
      let fd ← t.names q.key
      let r ← ramdiskRead t.disk fd len
      some (.read r.value r.bytes, { t with disk := r.disk })
  | .seek off whence => do
      let fd ← t.names q.key
      let (value, disk) := ramdiskSeek t.disk fd off whence
      some (.sought value, { t with disk := disk })
  | .size => do
      let fd ← t.names q.key
      some (.size (ramdiskSize t.disk fd), t)
  | .close => do
      let fd ← t.names q.key
      some (.closed,
        { disk := ramdiskClose t.disk fd, names := Function.update t.names q.key none })

/-- A sequence of requests, with the replies. -/
def serveAll (t : FdTable κ) : List (Request κ) → Option (List (Request κ × FdReply) × FdTable κ)
  | [] => some ([], t)
  | q :: qs => do
      let (reply, t) ← serve t q
      let (log, t) ← serveAll t qs
      some ((q, reply) :: log, t)

end Serve

/-! ### Calls on an open descriptor -/

/-- What `read`, `seek` and `size` do with the entry of the descriptor. -/
def entryCall (image : Nat → Byte) (f : FdEntry) : FdCall → Option (FdReply × FdEntry)
  | .read len =>
      if f.size ≤ f.pos then some (.read 0 [], f)
      else if 2 ^ 64 ≤ f.pos.toNat + (cutLen f len).toNat then none
      else
        some (.read (toInt32 (cutLen f len))
            ((List.range (cutLen f len).toNat).map fun j => image (f.data + f.pos.toNat + j)),
          { f with pos := f.pos + cutLen f len })
  | .seek off whence =>
      match seekTarget f off whence with
      | none => some (.sought (-1), f)
      | some np => some (.sought (toInt32 (clampPos f np)), { f with pos := clampPos f np })
  | .size => some (.size f.size.toInt, f)
  | .openFile _ | .close => none

/-- The three calls that leave the table of names alone. -/
def FdCall.OnEntry : FdCall → Prop
  | .read _ | .seek _ _ | .size => True
  | .openFile _ | .close => False

instance (call : FdCall) : Decidable call.OnEntry := by
  cases call <;> unfold FdCall.OnEntry <;> infer_instance

theorem slotOf_add_three {i : Nat} (h : i < maxFds) : slotOf ((i : Int) + 3) = some i := by
  unfold slotOf
  rw [if_neg (by omega)]
  congr 1
  omega

theorem openSlot_add_three {r : Ramdisk} {i : Nat} (h : i < maxFds)
    (huse : (r.fds i).inUse = true) : openSlot r ((i : Int) + 3) = some i := by
  rw [openSlot, slotOf_add_three h]
  simp [Option.filter, huse]

/-- The entry stays in use. -/
theorem entryCall_inUse {image : Nat → Byte} {f f' : FdEntry} {call : FdCall} {reply : FdReply}
    (h : entryCall image f call = some (reply, f')) : f'.inUse = f.inUse := by
  cases call with
  | openFile path => cases h
  | close => cases h
  | size =>
      obtain ⟨-, rfl⟩ := Prod.mk.inj (Option.some.inj h)
      rfl
  | read len =>
      unfold entryCall at h
      dsimp only at h
      split at h
      · obtain ⟨-, rfl⟩ := Prod.mk.inj (Option.some.inj h)
        rfl
      · split at h
        · cases h
        · obtain ⟨-, rfl⟩ := Prod.mk.inj (Option.some.inj h)
          rfl
  | seek off whence =>
      unfold entryCall at h
      dsimp only at h
      split at h
      · obtain ⟨-, rfl⟩ := Prod.mk.inj (Option.some.inj h)
        rfl
      · obtain ⟨-, rfl⟩ := Prod.mk.inj (Option.some.inj h)
        rfl

/-- The ramdisk with another entry in a slot. -/
def Ramdisk.setEntry (r : Ramdisk) (i : Nat) (f : FdEntry) : Ramdisk :=
  { r with fds := Function.update r.fds i f }

@[simp] theorem Ramdisk.setEntry_fds_self (r : Ramdisk) (i : Nat) (f : FdEntry) :
    (r.setEntry i f).fds i = f :=
  Function.update_self ..

@[simp] theorem Ramdisk.setEntry_fds_of_ne (r : Ramdisk) {i j : Nat} (h : j ≠ i) (f : FdEntry) :
    (r.setEntry i f).fds j = r.fds j :=
  Function.update_of_ne h ..

@[simp] theorem Ramdisk.setEntry_self (r : Ramdisk) (i : Nat) : r.setEntry i (r.fds i) = r := by
  rw [Ramdisk.setEntry, Function.update_eq_self]

theorem setEntry_setEntry (d : Ramdisk) (slot : Nat) (f g : FdEntry) :
    (d.setEntry slot f).setEntry slot g = d.setEntry slot g := by
  simp [Ramdisk.setEntry]

section Serve

variable {κ : Type} [DecidableEq κ] {t t' : FdTable κ} {reply : FdReply}

/-- A call on an open descriptor depends on its entry only, and changes nothing but it. -/
theorem serve_entry {k : κ} {call : FdCall} {i : Nat} (hcall : call.OnEntry) (hi : i < maxFds)
    (hname : t.names k = some ((i : Int) + 3)) (huse : (t.disk.fds i).inUse = true) :
    serve t ⟨k, call⟩ = (entryCall t.disk.image (t.disk.fds i) call).map fun r =>
      (r.1, { t with disk := t.disk.setEntry i r.2 }) := by
  have hslot := openSlot_add_three hi huse
  cases call with
  | openFile path => exact hcall.elim
  | close => exact hcall.elim
  | size =>
      simp only [serve, hname, ramdiskSize, hslot, entryCall, Option.map_some, Ramdisk.setEntry_self,
        Option.bind_eq_bind, Option.bind_some]
  | read len =>
      simp only [serve, hname, ramdiskRead, hslot, entryCall, Option.bind_eq_bind, Option.bind_some]
      split
      · simp
      · split
        · simp
        · rfl
  | seek off whence =>
      simp only [serve, hname, ramdiskSeek, hslot, entryCall, Option.bind_eq_bind, Option.bind_some]
      cases seekTarget (t.disk.fds i) off whence with
      | none => simp
      | some np => rfl

/-- A successful `open` takes a free slot for the file it has found. -/
theorem serve_open {k : κ} {path : List Byte} (h : serve t ⟨k, .openFile path⟩ = some (reply, t')) :
    t.names k = none ∧ ∃ p size i,
      findFile t.disk.image t.disk.length path (t.disk.length / 512 + 1) 0 = some (p, size) ∧
      freeSlot t.disk.fds = some i ∧ reply = .opened ∧
      t' = { disk := t.disk.setEntry i { data := p + 512, size := size, pos := 0, inUse := true }
             names := Function.update t.names k (some ((i : Int) + 3)) } := by
  simp only [serve] at h
  split at h
  · cases h
  · rename_i hname
    refine ⟨not_not.1 hname, ?_⟩
    cases hfile : findFile t.disk.image t.disk.length path (t.disk.length / 512 + 1) 0 with
    | none => simp [ramdiskOpen, hfile] at h
    | some found =>
        obtain ⟨p, size⟩ := found
        cases hslot : freeSlot t.disk.fds with
        | none => simp [ramdiskOpen, hfile, hslot] at h
        | some i =>
            simp only [ramdiskOpen, hfile, hslot] at h
            rw [if_neg (by omega)] at h
            obtain ⟨rfl, rfl⟩ := Prod.mk.inj (Option.some.inj h)
            exact ⟨p, size, i, rfl, rfl, rfl, rfl⟩

/-- The other way round. -/
theorem serve_open_of_free {k : κ} {path : List Byte} {p i : Nat} {size : Word}
    (hname : t.names k = none)
    (hfile : findFile t.disk.image t.disk.length path (t.disk.length / 512 + 1) 0 = some (p, size))
    (hslot : freeSlot t.disk.fds = some i) :
    serve t ⟨k, .openFile path⟩ = some (.opened,
      { disk := t.disk.setEntry i { data := p + 512, size := size, pos := 0, inUse := true }
        names := Function.update t.names k (some ((i : Int) + 3)) }) := by
  simp only [serve, hname, ramdiskOpen, hfile, hslot, ne_eq, not_true_eq_false, if_false]
  rw [if_neg (by omega)]
  rfl

/-- `close` gives the slot back. -/
theorem serve_close {k : κ} {i : Nat} (hi : i < maxFds) (hname : t.names k = some ((i : Int) + 3)) :
    serve t ⟨k, .close⟩ = some (.closed,
      { disk := t.disk.setEntry i { t.disk.fds i with inUse := false }
        names := Function.update t.names k none }) := by
  simp only [serve, hname, ramdiskClose, slotOf_add_three hi, Option.bind_eq_bind, Option.bind_some]
  rfl

end Serve

/-! ### Who holds which slot -/

theorem freeSlot_some {fds : Nat → FdEntry} {i : Nat} (h : freeSlot fds = some i) :
    i < maxFds ∧ (fds i).inUse = false :=
  ⟨List.mem_range.1 (List.mem_of_find?_eq_some h), by simpa using List.find?_some h⟩

theorem freeSlot_none {fds : Nat → FdEntry} (h : freeSlot fds = none) {i : Nat} (hi : i < maxFds) :
    (fds i).inUse = true := by
  have := List.find?_eq_none.1 h i (List.mem_range.2 hi)
  simpa using this

/-- The names stand for different slots in use; every other slot in use was so `before`. -/
structure SlotsInv {κ : Type} (before : Nat → Prop) (t : FdTable κ) : Prop where
  held : ∀ k fd, t.names k = some fd →
    ∃ i, i < maxFds ∧ fd = (i : Int) + 3 ∧ (t.disk.fds i).inUse = true ∧ ¬ before i
  distinct : ∀ k k' fd, t.names k = some fd → t.names k' = some fd → k = k'
  named : ∀ i, i < maxFds → (t.disk.fds i).inUse = true →
    before i ∨ ∃ k, t.names k = some ((i : Int) + 3)
  before_used : ∀ i, before i → (t.disk.fds i).inUse = true

/-- The entry behind a name. -/
def entryOf {κ : Type} (t : FdTable κ) (k : κ) : Option FdEntry :=
  (t.names k).bind fun fd => (slotOf fd).map t.disk.fds

section Slots

variable {κ : Type} {t : FdTable κ} {before : Nat → Prop}

theorem entryOf_named {k : κ} {i : Nat} (hi : i < maxFds) (hname : t.names k = some ((i : Int) + 3)) :
    entryOf t k = some (t.disk.fds i) := by
  rw [entryOf, hname, Option.bind_some, slotOf_add_three hi, Option.map_some]

/-- The entry just written, behind its name. -/
theorem entryOf_setEntry {disk : Ramdisk} {names : κ → Option Int} {k : κ} {i : Nat} (hi : i < maxFds)
    (hname : names k = some ((i : Int) + 3)) (f : FdEntry) :
    entryOf { disk := disk.setEntry i f, names := names } k = some f := by
  rw [entryOf_named hi hname, Ramdisk.setEntry_fds_self]

theorem SlotsInv.entryOf_cases (inv : SlotsInv before t) (k : κ) :
    (t.names k = none ∧ entryOf t k = none) ∨
      ∃ i, i < maxFds ∧ t.names k = some ((i : Int) + 3) ∧ (t.disk.fds i).inUse = true ∧
        ¬ before i ∧ entryOf t k = some (t.disk.fds i) := by
  cases hname : t.names k with
  | none => exact .inl ⟨rfl, by rw [entryOf, hname]; rfl⟩
  | some fd =>
      obtain ⟨i, hi, rfl, huse, hbefore⟩ := inv.held k fd hname
      exact .inr ⟨i, hi, rfl, huse, hbefore, entryOf_named hi hname⟩

/-- An entry that stays in use is replaced. -/
theorem SlotsInv.set (inv : SlotsInv before t) {i : Nat} {f : FdEntry} (huse : f.inUse = true)
    (hold : (t.disk.fds i).inUse = true) :
    SlotsInv before { t with disk := t.disk.setEntry i f } := by
  have hsame : ∀ j, ((t.disk.setEntry i f).fds j).inUse = (t.disk.fds j).inUse := by
    intro j
    by_cases hj : j = i
    · rw [hj, Ramdisk.setEntry_fds_self, huse, hold]
    · rw [Ramdisk.setEntry_fds_of_ne _ hj]
  refine ⟨fun k fd hk => ?_, inv.distinct, fun j hj hu => ?_, fun j hj => ?_⟩
  · obtain ⟨j, hj, hfd, hu, hb⟩ := inv.held k fd hk
    exact ⟨j, hj, hfd, (hsame j).trans hu, hb⟩
  · exact inv.named j hj ((hsame j).symm.trans hu)
  · exact (hsame j).trans (inv.before_used j hj)

/-- A change to one slot and one name leaves the entries behind the other names alone. -/
theorem SlotsInv.entryOf_change (inv : SlotsInv before t) {k' : κ} {i : Nat} {f : FdEntry}
    {names : κ → Option Int} (hnames : names k' = t.names k')
    (hother : ∀ j : Nat, t.names k' = some ((j : Int) + 3) → j ≠ i) :
    entryOf { disk := t.disk.setEntry i f, names := names } k' = entryOf t k' := by
  rcases inv.entryOf_cases k' with ⟨hnone, hentry⟩ | ⟨j, hj, hname, -, -, hentry⟩
  · rw [hentry]
    show (names k').bind _ = none
    rw [hnames, hnone, Option.bind_none]
  · rw [hentry, entryOf_named (t := { disk := t.disk.setEntry i f, names := names }) hj
      (hnames.trans hname), Ramdisk.setEntry_fds_of_ne _ (hother j hname)]

/-- A free slot is behind no name. -/
theorem SlotsInv.ne_of_free (inv : SlotsInv before t) {i : Nat}
    (hfree : (t.disk.fds i).inUse = false) {k : κ} {j : Nat}
    (hname : t.names k = some ((j : Int) + 3)) : j ≠ i := by
  rintro rfl
  obtain ⟨j', -, hj', hu, -⟩ := inv.held k _ hname
  obtain rfl : j = j' := by omega
  rw [hu] at hfree
  cases hfree

/-- Different names, different slots. -/
theorem SlotsInv.ne_of_ne (inv : SlotsInv before t) {k k' : κ} {i j : Nat} (hne : k' ≠ k)
    (hname : t.names k = some ((i : Int) + 3)) (hname' : t.names k' = some ((j : Int) + 3)) :
    j ≠ i := by
  rintro rfl
  exact hne (inv.distinct k' k _ hname' hname)

variable [DecidableEq κ]

/-- A free slot is taken under a fresh name. -/
theorem SlotsInv.opened (inv : SlotsInv before t) {k : κ} {i : Nat} {f : FdEntry}
    (hname : t.names k = none) (hi : i < maxFds) (hfree : (t.disk.fds i).inUse = false)
    (huse : f.inUse = true) :
    SlotsInv before
      { disk := t.disk.setEntry i f, names := Function.update t.names k (some ((i : Int) + 3)) } := by
  have hbefore : ¬ before i := by
    intro h
    rw [inv.before_used i h] at hfree
    cases hfree
  have hunheld : ∀ k' fd, t.names k' = some fd → fd ≠ (i : Int) + 3 := by
    rintro k' fd hk' rfl
    exact inv.ne_of_free hfree hk' rfl
  have hcases : ∀ k' fd, Function.update t.names k (some ((i : Int) + 3)) k' = some fd →
      (k' = k ∧ fd = (i : Int) + 3) ∨ (k' ≠ k ∧ t.names k' = some fd) := by
    intro k' fd hk'
    by_cases hkk : k' = k
    · rw [hkk, Function.update_self] at hk'
      exact .inl ⟨hkk, (Option.some.inj hk').symm⟩
    · rw [Function.update_of_ne hkk] at hk'
      exact .inr ⟨hkk, hk'⟩
  refine ⟨fun k' fd hk' => ?_, fun k₁ k₂ fd h₁ h₂ => ?_, fun j hj hu => ?_, fun j hj => ?_⟩
  · rcases hcases k' fd hk' with ⟨-, hfd⟩ | ⟨-, hold⟩
    · exact ⟨i, hi, hfd, by rw [Ramdisk.setEntry_fds_self, huse], hbefore⟩
    · obtain ⟨j, hj, rfl, hu, hb⟩ := inv.held k' fd hold
      have hji : j ≠ i := inv.ne_of_free hfree hold
      exact ⟨j, hj, rfl, by rw [Ramdisk.setEntry_fds_of_ne _ hji, hu], hb⟩
  · rcases hcases k₁ fd h₁ with ⟨hk₁, hfd₁⟩ | ⟨-, h₁⟩
    · rcases hcases k₂ fd h₂ with ⟨hk₂, -⟩ | ⟨-, h₂⟩
      · rw [hk₁, hk₂]
      · exact absurd hfd₁ (hunheld k₂ fd h₂)
    · rcases hcases k₂ fd h₂ with ⟨-, hfd₂⟩ | ⟨-, h₂⟩
      · exact absurd hfd₂ (hunheld k₁ fd h₁)
      · exact inv.distinct k₁ k₂ fd h₁ h₂
  · by_cases hji : j = i
    · exact .inr ⟨k, hji ▸ Function.update_self ..⟩
    · rw [Ramdisk.setEntry_fds_of_ne _ hji] at hu
      rcases inv.named j hj hu with hb | ⟨k', hk'⟩
      · exact .inl hb
      · refine .inr ⟨k', ?_⟩
        have hkk : k' ≠ k := by
          rintro rfl
          rw [hname] at hk'
          cases hk'
        exact (Function.update_of_ne hkk ..).trans hk'
  · have hji : j ≠ i := by
      rintro rfl
      exact hbefore hj
    rw [Ramdisk.setEntry_fds_of_ne _ hji]
    exact inv.before_used j hj

/-- A name is given up with its slot. -/
theorem SlotsInv.closed (inv : SlotsInv before t) {k : κ} {i : Nat} {f : FdEntry}
    (hi : i < maxFds) (hname : t.names k = some ((i : Int) + 3)) (huse : f.inUse = false) :
    SlotsInv before { disk := t.disk.setEntry i f, names := Function.update t.names k none } := by
  have hstill : ∀ k' fd, Function.update t.names k none k' = some fd →
      t.names k' = some fd ∧ k' ≠ k := by
    intro k' fd hk'
    by_cases hkk : k' = k
    · rw [hkk, Function.update_self] at hk'
      cases hk'
    · rw [Function.update_of_ne hkk] at hk'
      exact ⟨hk', hkk⟩
  refine ⟨fun k' fd hk' => ?_, fun k₁ k₂ fd h₁ h₂ => ?_, fun j hj hu => ?_, fun j hj => ?_⟩
  · obtain ⟨hold, hkk⟩ := hstill k' fd hk'
    obtain ⟨j, hj, rfl, hu, hb⟩ := inv.held k' fd hold
    have hji : j ≠ i := inv.ne_of_ne hkk hname hold
    exact ⟨j, hj, rfl, by rw [Ramdisk.setEntry_fds_of_ne _ hji, hu], hb⟩
  · exact inv.distinct k₁ k₂ fd (hstill k₁ fd h₁).1 (hstill k₂ fd h₂).1
  · have hji : j ≠ i := by
      rintro rfl
      rw [Ramdisk.setEntry_fds_self, huse] at hu
      cases hu
    rw [Ramdisk.setEntry_fds_of_ne _ hji] at hu
    rcases inv.named j hj hu with hb | ⟨k', hk'⟩
    · exact .inl hb
    · refine .inr ⟨k', ?_⟩
      have hkk : k' ≠ k := by
        rintro rfl
        rw [hname] at hk'
        have := Option.some.inj hk'
        omega
      exact (Function.update_of_ne hkk ..).trans hk'
  · obtain ⟨j', -, hj', -, hb⟩ := inv.held k _ hname
    have hji : j ≠ i := by
      rintro rfl
      obtain rfl : j = j' := by omega
      exact hb hj
    rw [Ramdisk.setEntry_fds_of_ne _ hji]
    exact inv.before_used j hj

end Slots

/-! ### The simulation -/

/-- The run with all clients, and the run of the client `c` alone. -/
structure Simulates {κ ι : Type} (client : κ → ι) (c : ι) (before : Nat → Prop)
    (all alone : FdTable κ) : Prop where
  image : alone.disk.image = all.disk.image
  length : alone.disk.length = all.disk.length
  allSlots : SlotsInv before all
  aloneSlots : SlotsInv before alone
  same : ∀ k, client k = c → entryOf alone k = entryOf all k
  others : ∀ k, client k ≠ c → alone.names k = none

section Simulation

variable {κ ι : Type} {client : κ → ι} {c : ι} {before : Nat → Prop}
  {all all' alone : FdTable κ}

/-- A name of the client stands for a slot in both runs or in neither, with the same entry. -/
theorem Simulates.names_cases (sim : Simulates client c before all alone) {k : κ}
    (hk : client k = c) :
    (all.names k = none ∧ alone.names k = none) ∨
      ∃ i j, (i < maxFds ∧ all.names k = some ((i : Int) + 3) ∧ (all.disk.fds i).inUse = true) ∧
        (j < maxFds ∧ alone.names k = some ((j : Int) + 3)) ∧
        alone.disk.fds j = all.disk.fds i := by
  have hsame := sim.same k hk
  rcases sim.allSlots.entryOf_cases k with ⟨hnone, hentry⟩ | ⟨i, hi, hname, huse, -, hentry⟩
  · rcases sim.aloneSlots.entryOf_cases k with ⟨hnone', -⟩ | ⟨j, -, -, -, -, hentry'⟩
    · exact .inl ⟨hnone, hnone'⟩
    · rw [hentry, hentry'] at hsame
      cases hsame
  · rcases sim.aloneSlots.entryOf_cases k with ⟨-, hentry'⟩ | ⟨j, hj, hname', -, -, hentry'⟩
    · rw [hentry, hentry'] at hsame
      cases hsame
    · rw [hentry, hentry'] at hsame
      exact .inr ⟨i, j, ⟨hi, hname, huse⟩, ⟨hj, hname'⟩, Option.some.inj hsame⟩

/-- Every slot in use in the run alone has a slot in use in the run of all, different ones different
    slots. -/
theorem Simulates.exists_slot (sim : Simulates client c before all alone) {j : Nat} (hj : j < maxFds)
    (huse : (alone.disk.fds j).inUse = true) :
    ∃ i, i < maxFds ∧ (all.disk.fds i).inUse = true ∧
      ((before j ∧ i = j) ∨ (¬ before i ∧ ∃ k, alone.names k = some ((j : Int) + 3) ∧
        all.names k = some ((i : Int) + 3))) := by
  rcases sim.aloneSlots.named j hj huse with hb | ⟨k, hk⟩
  · exact ⟨j, hj, sim.allSlots.before_used j hb, .inl ⟨hb, rfl⟩⟩
  · have hmine : client k = c := by
      by_contra hne
      rw [sim.others k hne] at hk
      cases hk
    rcases sim.names_cases hmine with ⟨-, hnone⟩ | ⟨i, j', ⟨hi, hname, hu⟩, -, -⟩
    · rw [hnone] at hk
      cases hk
    · obtain ⟨i', -, hi', -, hb⟩ := sim.allSlots.held k _ hname
      obtain rfl : i = i' := by omega
      exact ⟨i, hi, hu, .inr ⟨hb, k, hk, hname⟩⟩

/-- If there is a free slot with everybody there, there is one for the client alone: otherwise the
    slots of the run alone would fill those of the run of all. -/
theorem Simulates.exists_free (sim : Simulates client c before all alone) {i : Nat}
    (hfree : freeSlot all.disk.fds = some i) : ∃ j, freeSlot alone.disk.fds = some j := by
  obtain ⟨hi, hunused⟩ := freeSlot_some hfree
  cases halone : freeSlot alone.disk.fds with
  | some j => exact ⟨j, rfl⟩
  | none =>
      choose g hg using fun j : Fin maxFds =>
        sim.exists_slot j.isLt (freeSlot_none halone j.isLt)
      have hinj : Function.Injective fun j : Fin maxFds => (⟨g j, (hg j).1⟩ : Fin maxFds) := by
        intro j₁ j₂ heq
        have heq : g j₁ = g j₂ := congrArg Fin.val heq
        rcases (hg j₁).2.2 with ⟨hb₁, h₁⟩ | ⟨hb₁, k₁, hk₁, hn₁⟩
        · rcases (hg j₂).2.2 with ⟨-, h₂⟩ | ⟨hb₂, -⟩
          · exact Fin.ext (by omega)
          · rw [← heq, h₁] at hb₂
            exact absurd hb₁ hb₂
        · rcases (hg j₂).2.2 with ⟨hb₂, h₂⟩ | ⟨-, k₂, hk₂, hn₂⟩
          · rw [heq, h₂] at hb₁
            exact absurd hb₂ hb₁
          · rw [heq] at hn₁
            obtain rfl := sim.allSlots.distinct k₁ k₂ _ hn₁ hn₂
            rw [hk₁] at hk₂
            have := Option.some.inj hk₂
            exact Fin.ext (by omega)
      obtain ⟨j, hj⟩ := (Finite.injective_iff_surjective.1 hinj) ⟨i, hi⟩
      have hgi : g j = i := congrArg Fin.val hj
      have hused := (hg j).2.1
      rw [hgi, hunused] at hused
      cases hused

variable [DecidableEq κ]

/-- A call on a name that is not in use is refused. -/
theorem serve_unnamed {t : FdTable κ} {k : κ} {call : FdCall} (hcall : ∀ path, call ≠ .openFile path)
    (hname : t.names k = none) : serve t ⟨k, call⟩ = none := by
  cases call with
  | openFile path => exact absurd rfl (hcall path)
  | read len => simp [serve, hname]
  | seek off whence => simp [serve, hname]
  | size => simp [serve, hname]
  | close => simp [serve, hname]

/-- What the other clients do goes unnoticed. -/
theorem Simulates.other (sim : Simulates client c before all alone) {q : Request κ}
    {reply : FdReply} (hq : client q.key ≠ c) (h : serve all q = some (reply, all')) :
    Simulates client c before all' alone := by
  obtain ⟨k, call⟩ := q
  have hne : ∀ k', client k' = c → k' ≠ k := by
    rintro k' hk' rfl
    exact hq hk'
  by_cases hopen : ∃ path, call = .openFile path
  · obtain ⟨path, rfl⟩ := hopen
    obtain ⟨hname, p, size, i, -, hfree, -, rfl⟩ := serve_open h
    obtain ⟨hi, hunused⟩ := freeSlot_some hfree
    refine ⟨sim.image, sim.length, sim.allSlots.opened hname hi hunused rfl, sim.aloneSlots,
      fun k' hk' => ?_, sim.others⟩
    rw [sim.same k' hk', sim.allSlots.entryOf_change (Function.update_of_ne (hne k' hk') ..)
      fun j hj => sim.allSlots.ne_of_free hunused hj]
  · have hcall : ∀ path, call ≠ .openFile path := fun path hp => hopen ⟨path, hp⟩
    rcases sim.allSlots.entryOf_cases k with ⟨hnone, -⟩ | ⟨i, hi, hname, huse, -, -⟩
    · rw [serve_unnamed hcall hnone] at h
      cases h
    · by_cases hon : call.OnEntry
      · rw [serve_entry hon hi hname huse] at h
        obtain ⟨⟨reply', f⟩, hf, hall⟩ := Option.map_eq_some_iff.1 h
        obtain ⟨-, rfl⟩ := Prod.mk.inj hall
        have hstill := (entryCall_inUse hf).trans huse
        refine ⟨sim.image, sim.length, sim.allSlots.set hstill huse, sim.aloneSlots,
          fun k' hk' => ?_, sim.others⟩
        rw [sim.same k' hk', sim.allSlots.entryOf_change rfl
          fun j hj => sim.allSlots.ne_of_ne (hne k' hk') hname hj]
      · obtain rfl : call = .close := by
          cases call with
          | openFile path => exact absurd rfl (hcall path)
          | close => rfl
          | read len => exact absurd trivial hon
          | seek off whence => exact absurd trivial hon
          | size => exact absurd trivial hon
        rw [serve_close hi hname] at h
        obtain ⟨-, rfl⟩ := Prod.mk.inj (Option.some.inj h)
        refine ⟨sim.image, sim.length, sim.allSlots.closed hi hname rfl, sim.aloneSlots,
          fun k' hk' => ?_, sim.others⟩
        rw [sim.same k' hk', sim.allSlots.entryOf_change (Function.update_of_ne (hne k' hk') ..)
          fun j hj => sim.allSlots.ne_of_ne (hne k' hk') hname hj]

omit [DecidableEq κ] in
/-- Both runs change one slot and one name of the client, and the entries behind that name are the
    same again. -/
theorem Simulates.change (sim : Simulates client c before all alone) {k : κ} (hk : client k = c)
    {i j : Nat} {f g : FdEntry} {names names' : κ → Option Int}
    (hall : SlotsInv before { disk := all.disk.setEntry i f, names := names })
    (halone : SlotsInv before { disk := alone.disk.setEntry j g, names := names' })
    (hnames : ∀ k', k' ≠ k → names k' = all.names k' ∧ names' k' = alone.names k')
    (hi : ∀ k', k' ≠ k → ∀ n : Nat, all.names k' = some ((n : Int) + 3) → n ≠ i)
    (hj : ∀ k', k' ≠ k → ∀ n : Nat, alone.names k' = some ((n : Int) + 3) → n ≠ j)
    (hsame : entryOf { disk := alone.disk.setEntry j g, names := names' } k =
      entryOf { disk := all.disk.setEntry i f, names := names } k) :
    Simulates client c before { disk := all.disk.setEntry i f, names := names }
      { disk := alone.disk.setEntry j g, names := names' } := by
  refine ⟨sim.image, sim.length, hall, halone, fun k' hk' => ?_, fun k' hk' => ?_⟩
  · by_cases hkk : k' = k
    · rw [hkk, hsame]
    · rw [sim.allSlots.entryOf_change (hnames k' hkk).1 (hi k' hkk),
        sim.aloneSlots.entryOf_change (hnames k' hkk).2 (hj k' hkk), sim.same k' hk']
  · have hkk : k' ≠ k := by
      rintro rfl
      exact hk' hk
    exact (hnames k' hkk).2.trans (sim.others k' hk')

/-- A request of the client gets the same reply in both runs. -/
theorem Simulates.mine (sim : Simulates client c before all alone) {q : Request κ}
    {reply : FdReply} (hq : client q.key = c) (h : serve all q = some (reply, all')) :
    ∃ alone', serve alone q = some (reply, alone') ∧ Simulates client c before all' alone' := by
  obtain ⟨k, call⟩ := q
  have hupdate : ∀ (names : κ → Option Int) v k', k' ≠ k →
      Function.update names k v k' = names k' := fun names v k' hkk => Function.update_of_ne hkk ..
  by_cases hopen : ∃ path, call = .openFile path
  · obtain ⟨path, rfl⟩ := hopen
    obtain ⟨hname, p, size, i, hfile, hfree, rfl, rfl⟩ := serve_open h
    obtain ⟨hi, hunused⟩ := freeSlot_some hfree
    obtain ⟨j, hfree'⟩ := sim.exists_free hfree
    obtain ⟨hj, hunused'⟩ := freeSlot_some hfree'
    have hname' : alone.names k = none := by
      rcases sim.names_cases hq with ⟨-, hnone⟩ | ⟨i', -, ⟨-, hsome, -⟩, -⟩
      · exact hnone
      · rw [hname] at hsome
        cases hsome
    rw [← sim.image, ← sim.length] at hfile
    refine ⟨_, serve_open_of_free hname' hfile hfree', ?_⟩
    refine sim.change hq (sim.allSlots.opened hname hi hunused rfl)
      (sim.aloneSlots.opened hname' hj hunused' rfl)
      (fun k' hkk => ⟨hupdate _ _ k' hkk, hupdate _ _ k' hkk⟩)
      (fun _ _ _ hn => sim.allSlots.ne_of_free hunused hn)
      (fun _ _ _ hn => sim.aloneSlots.ne_of_free hunused' hn) ?_
    exact (entryOf_setEntry hj (Function.update_self ..) _).trans
      (entryOf_setEntry hi (Function.update_self ..) _).symm
  · have hcall : ∀ path, call ≠ .openFile path := fun path hp => hopen ⟨path, hp⟩
    rcases sim.names_cases hq with ⟨hnone, -⟩ | ⟨i, j, ⟨hi, hname, huse⟩, ⟨hj, hname'⟩, hentry⟩
    · rw [serve_unnamed hcall hnone] at h
      cases h
    · have huse' : (alone.disk.fds j).inUse = true := by rw [hentry, huse]
      have hi' : ∀ k', k' ≠ k → ∀ n : Nat, all.names k' = some ((n : Int) + 3) → n ≠ i :=
        fun k' hkk n hn => sim.allSlots.ne_of_ne hkk hname hn
      have hj' : ∀ k', k' ≠ k → ∀ n : Nat, alone.names k' = some ((n : Int) + 3) → n ≠ j :=
        fun k' hkk n hn => sim.aloneSlots.ne_of_ne hkk hname' hn
      by_cases hon : call.OnEntry
      · rw [serve_entry hon hi hname huse] at h
        obtain ⟨⟨reply', f⟩, hf, hall⟩ := Option.map_eq_some_iff.1 h
        obtain ⟨rfl, rfl⟩ := Prod.mk.inj hall
        have hstill := (entryCall_inUse hf).trans huse
        refine ⟨{ alone with disk := alone.disk.setEntry j f }, ?_, ?_⟩
        · rw [serve_entry hon hj hname' huse', hentry, sim.image, hf]
          rfl
        · refine sim.change hq (sim.allSlots.set hstill huse) (sim.aloneSlots.set hstill huse')
            (fun _ _ => ⟨rfl, rfl⟩) hi' hj' ?_
          exact (entryOf_setEntry hj hname' _).trans (entryOf_setEntry hi hname _).symm
      · obtain rfl : call = .close := by
          cases call with
          | openFile path => exact absurd rfl (hcall path)
          | close => rfl
          | read len => exact absurd trivial hon
          | seek off whence => exact absurd trivial hon
          | size => exact absurd trivial hon
        rw [serve_close hi hname] at h
        obtain ⟨rfl, rfl⟩ := Prod.mk.inj (Option.some.inj h)
        refine ⟨_, serve_close hj hname', ?_⟩
        refine sim.change hq (sim.allSlots.closed hi hname rfl) (sim.aloneSlots.closed hj hname' rfl)
          (fun k' hkk => ⟨hupdate _ _ k' hkk, hupdate _ _ k' hkk⟩) hi' hj' ?_
        rw [entryOf, entryOf]
        show (Function.update alone.names k none k).bind _ = (Function.update all.names k none k).bind _
        rw [Function.update_self, Function.update_self]
        rfl

/-- The simulation along a run. -/
theorem Simulates.run [DecidableEq ι] : ∀ {requests : List (Request κ)} {all all' alone : FdTable κ}
    {log : List (Request κ × FdReply)}, Simulates client c before all alone →
    serveAll all requests = some (log, all') →
      ∃ alone', serveAll alone (requests.filter fun q => client q.key = c) =
        some (log.filter fun e => client e.1.key = c, alone')
  | [], _, _, alone, _, _, h => by
      obtain ⟨rfl, -⟩ := Prod.mk.inj (Option.some.inj h)
      exact ⟨alone, rfl⟩
  | q :: requests, all, all', alone, log, sim, h => by
      rw [serveAll] at h
      obtain ⟨⟨reply, all₁⟩, hserve, h⟩ := Option.bind_eq_some_iff.1 h
      obtain ⟨⟨log₁, all₂⟩, hrest, h⟩ := Option.bind_eq_some_iff.1 h
      obtain ⟨rfl, rfl⟩ := Prod.mk.inj (Option.some.inj h)
      by_cases hq : client q.key = c
      · obtain ⟨alone₁, hserve', sim₁⟩ := sim.mine hq hserve
        obtain ⟨alone₂, hrest'⟩ := sim₁.run hrest
        refine ⟨alone₂, ?_⟩
        rw [List.filter_cons_of_pos (by simpa using hq), List.filter_cons_of_pos (by simpa using hq),
          serveAll, hserve']
        simp only [Option.bind_eq_bind, Option.bind_some, hrest']
      · obtain ⟨alone₂, hrest'⟩ := (sim.other hq hserve).run hrest
        refine ⟨alone₂, ?_⟩
        rw [List.filter_cons_of_neg (by simpa using hq), List.filter_cons_of_neg (by simpa using hq),
          hrest']

omit [DecidableEq κ] in
/-- At the start nobody holds a descriptor, and the two runs share the table. -/
theorem Simulates.start (client : κ → ι) (c : ι) (disk : Ramdisk) :
    Simulates client c (fun i => (disk.fds i).inUse = true) { disk := disk, names := fun _ => none }
      { disk := disk, names := fun _ => none } := by
  have inv : SlotsInv (κ := κ) (fun i => (disk.fds i).inUse = true)
      { disk := disk, names := fun _ => none } :=
    ⟨fun _ _ h => (by cases h), fun _ _ _ h => (by cases h), fun _ _ hu => .inl hu, fun _ hu => hu⟩
  exact ⟨rfl, rfl, inv, inv, fun _ _ => rfl, fun _ _ => rfl⟩

end Simulation

/-- In every interleaving of the requests of any number of clients in which every `open` succeeds,
    the requests of one client get the replies they get when it runs alone. -/
theorem fd_independence {κ ι : Type} [DecidableEq κ] [DecidableEq ι] (client : κ → ι)
    (disk : Ramdisk) (requests : List (Request κ)) (log : List (Request κ × FdReply))
    (final : FdTable κ)
    (h : serveAll { disk := disk, names := fun _ => none } requests = some (log, final)) (c : ι) :
    ∃ final', serveAll { disk := disk, names := fun _ => none }
        (requests.filter fun q => client q.key = c) =
      some (log.filter fun e => client e.1.key = c, final') :=
  (Simulates.start client c disk).run h

/-- An archive with the file `a` of three bytes, and no file open. -/
def oneFile : Ramdisk where
  image n :=
    if n = 0 then 97
    else if 124 ≤ n ∧ n < 134 then 48
    else if n = 134 then 51
    else if n = 156 then 48
    else if n = 512 then 120
    else if n = 513 then 121
    else if n = 514 then 122
    else 0
  length := 1536
  fds _ := {}

/-- Two clients, each with a descriptor for the same file. -/
def twoClients : List (Request Nat) :=
  [⟨0, .openFile [97]⟩, ⟨1, .openFile [97]⟩, ⟨0, .read 2⟩, ⟨1, .seek 1 0⟩, ⟨1, .close⟩, ⟨0, .read 5⟩]

/-- The first one reads the file in two pieces, whatever the second one does. -/
theorem fd_independence_two_clients :
    ∃ final', serveAll { disk := oneFile, names := fun _ => none }
        [⟨0, .openFile [97]⟩, ⟨0, .read 2⟩, ⟨0, .read 5⟩] =
      some ([(⟨0, .openFile [97]⟩, .opened), (⟨0, .read 2⟩, .read 2 [120, 121]),
        (⟨0, .read 5⟩, .read 1 [122])], final') := by
  have hlog : (serveAll { disk := oneFile, names := fun _ => none } twoClients).map Prod.fst =
      some [(⟨0, .openFile [97]⟩, .opened), (⟨1, .openFile [97]⟩, .opened),
        (⟨0, .read 2⟩, .read 2 [120, 121]), (⟨1, .seek 1 0⟩, .sought 1), (⟨1, .close⟩, .closed),
        (⟨0, .read 5⟩, .read 1 [122])] := by decide +kernel
  obtain ⟨⟨log, final⟩, hserve, rfl⟩ := Option.map_eq_some_iff.1 hlog
  exact fd_independence (fun k => k) oneFile twoClients _ final hserve 0

end CustomKernel.Filesystem
