/-
Module: CustomKernel.Proofs.ScatterReads
Layer: Proofs
Purpose: `readv` against one `read`. The loop over the vector reads the file piece by piece, and
  every piece but the last is as long as its buffer, so that the pieces are what one read delivers.
  The two differ at the end of a file, where `read` returns 0 and `readv` -1, and for vectors with
  more entries than an `int` counts.
Imports: CustomKernel.Proofs.FileAccess, CustomKernel.Syscall.FileCalls
Trusted boundary: as in FileCalls: no buffer overlaps the vector
Main exports: scatter, gather, ReadvLikeRead, readvLoop_open, readv_like_read
-/
import CustomKernel.Proofs.FileAccess
import CustomKernel.Syscall.FileCalls

namespace CustomKernel.Syscall

open CustomKernel.Filesystem ByteMemory

/-! ### Buffers -/

/-- The bytes put into the buffers, one buffer after the other. -/
def scatter : ByteMem → List LinuxIov → List Byte → ByteMem
  | mem, [], _ => mem
  | mem, iov :: iovs, bytes =>
      scatter (storeList iov.base.toNat (bytes.take iov.len.toNat) mem) iovs
        (bytes.drop iov.len.toNat)

/-- The bytes in a buffer. -/
def LinuxIov.bytes (mem : ByteMem) (iov : LinuxIov) : List Byte :=
  (List.range iov.len.toNat).map fun j => mem (iov.base.toNat + j)

/-- The bytes in the buffers, one buffer after the other. -/
def gather (mem : ByteMem) (iovs : List LinuxIov) : List Byte := iovs.flatMap (LinuxIov.bytes mem)

/-- The room in the buffers. -/
def room (iovs : List LinuxIov) : Nat := (iovs.map fun iov => iov.len.toNat).sum

/-- Two buffers without a common byte. -/
def LinuxIov.Apart (a b : LinuxIov) : Prop :=
  a.len = 0 ∨ b.len = 0 ∨ a.base.toNat + a.len.toNat ≤ b.base.toNat ∨
    b.base.toNat + b.len.toNat ≤ a.base.toNat

instance (a b : LinuxIov) : Decidable (a.Apart b) := inferInstanceAs (Decidable (_ ∨ _))

theorem storeList_outside {a : Nat} : ∀ (bytes : List Byte) (addr : Nat) (mem : ByteMem),
    a < addr ∨ addr + bytes.length ≤ a → storeList addr bytes mem a = mem a
  | [], _, _, _ => rfl
  | byte :: bytes, addr, mem, h => by
      rw [List.length_cons] at h
      rw [storeList, storeList_outside bytes (addr + 1) _ (by omega),
        Function.update_of_ne (by omega)]

theorem storeList_inside : ∀ (bytes : List Byte) (addr : Nat) (mem : ByteMem) (j : Nat)
    (hj : j < bytes.length), storeList addr bytes mem (addr + j) = bytes[j]
  | byte :: bytes, addr, mem, 0, _ => by
      rw [storeList, storeList_outside bytes (addr + 1) _ (by omega), Nat.add_zero,
        Function.update_self, List.getElem_cons_zero]
  | byte :: bytes, addr, mem, j + 1, hj => by
      have hj' : j < bytes.length := Nat.lt_of_succ_lt_succ hj
      rw [storeList, List.getElem_cons_succ, ← storeList_inside bytes (addr + 1) _ j hj']
      congr 1
      omega

/-- A byte outside the buffers stays. -/
theorem scatter_outside {a : Nat} : ∀ (iovs : List LinuxIov) (bytes : List Byte) (mem : ByteMem),
    (∀ iov ∈ iovs, a < iov.base.toNat ∨ iov.base.toNat + iov.len.toNat ≤ a ∨ iov.len = 0) →
    scatter mem iovs bytes a = mem a
  | [], _, _, _ => rfl
  | iov :: iovs, bytes, mem, h => by
      rw [scatter, scatter_outside iovs _ _ fun other hother =>
        h other (List.mem_cons_of_mem _ hother)]
      have hlen : (bytes.take iov.len.toNat).length ≤ iov.len.toNat := List.length_take_le ..
      rcases h iov (List.mem_cons_self ..) with hlo | hhi | hzero
      · exact storeList_outside _ _ _ (.inl hlo)
      · exact storeList_outside _ _ _ (.inr (by omega))
      · rw [hzero]
        rfl

theorem scatter_nil : ∀ (iovs : List LinuxIov) (mem : ByteMem), scatter mem iovs [] = mem
  | [], _ => rfl
  | iov :: iovs, mem => by
      rw [scatter, List.take_nil, List.drop_nil]
      exact scatter_nil iovs mem

/-- Buffers behind the last one that gets bytes do not matter. -/
theorem scatter_append : ∀ (iovs more : List LinuxIov) (bytes : List Byte) (mem : ByteMem),
    bytes.length ≤ room iovs → scatter mem (iovs ++ more) bytes = scatter mem iovs bytes
  | [], more, bytes, mem, h => by
      obtain rfl : bytes = [] := List.eq_nil_of_length_eq_zero (Nat.le_zero.1 h)
      exact scatter_nil more mem
  | iov :: iovs, more, bytes, mem, h => by
      rw [List.cons_append, scatter, scatter]
      refine scatter_append iovs more _ _ ?_
      rw [room, List.map_cons, List.sum_cons] at h
      rw [List.length_drop]
      unfold room
      omega

/-- With buffers apart from each other, the bytes are found in them. -/
theorem gather_scatter : ∀ (iovs : List LinuxIov) (bytes : List Byte) (mem : ByteMem),
    iovs.Pairwise LinuxIov.Apart → bytes.length ≤ room iovs →
    (gather (scatter mem iovs bytes) iovs).take bytes.length = bytes
  | [], bytes, mem, _, h => by
      rw [List.eq_nil_of_length_eq_zero (Nat.le_zero.1 h)]
      rfl
  | iov :: iovs, bytes, mem, hapart, h => by
      obtain ⟨hfirst, hrest⟩ := List.pairwise_cons.1 hapart
      rw [room, List.map_cons, List.sum_cons] at h
      have hread : iov.bytes (scatter mem (iov :: iovs) bytes) =
          iov.bytes (storeList iov.base.toNat (bytes.take iov.len.toNat) mem) := by
        refine List.map_congr_left fun j hj => ?_
        have hlt := List.mem_range.1 hj
        refine scatter_outside iovs _ _ fun other hother => ?_
        rcases hfirst other hother with hzero | hzero | hlo | hhi
        · rw [hzero] at hlt
          exact absurd hlt (Nat.not_lt_zero j)
        · exact .inr (.inr hzero)
        · exact .inl (by omega)
        · exact .inr (.inl (by omega))
      have hgather : gather (scatter mem (iov :: iovs) bytes) (iov :: iovs) =
          iov.bytes (storeList iov.base.toNat (bytes.take iov.len.toNat) mem) ++
            gather (scatter (storeList iov.base.toNat (bytes.take iov.len.toNat) mem) iovs
              (bytes.drop iov.len.toNat)) iovs := by
        rw [gather, List.flatMap_cons, hread]
        rfl
      have hlen : ∀ mem : ByteMem, (iov.bytes mem).length = iov.len.toNat := fun mem => by
        rw [LinuxIov.bytes, List.length_map, List.length_range]
      have hprefix : (iov.bytes (storeList iov.base.toNat (bytes.take iov.len.toNat) mem)).take
          bytes.length = bytes.take iov.len.toNat := by
        refine List.ext_getElem ?_ fun j hj hj' => ?_
        · rw [List.length_take, List.length_take, hlen]
          omega
        · rw [List.getElem_take, ← storeList_inside _ iov.base.toNat mem j hj']
          simp only [LinuxIov.bytes, List.getElem_map, List.getElem_range]
      rw [hgather, List.take_append, hprefix, hlen]
      have htail := gather_scatter iovs (bytes.drop iov.len.toNat)
        (storeList iov.base.toNat (bytes.take iov.len.toNat) mem) hrest (by
          rw [List.length_drop]
          unfold room
          omega)
      rw [List.length_drop] at htail
      rw [htail, List.take_append_drop]

/-! ### Reads of open files -/

section Loop

variable {r : Ramdisk} {i : Nat} {fd : Word} {mem : ByteMem}

/-- What is left of a file behind its position. -/
def fileRest (r : Ramdisk) (i : Nat) : List Byte :=
  (fileContents r.image (r.fds i)).drop (r.fds i).pos.toNat

theorem length_fileRest (r : Ramdisk) (i : Nat) :
    (fileRest r i).length = (r.fds i).size.toNat - (r.fds i).pos.toNat := by
  rw [fileRest, List.length_drop, length_fileContents]

/-- One read of less than 2 GiB, in terms of what is left of the file. -/
theorem ramdiskRead_rest (hopen : OpenInside r i) (hsize : (r.fds i).size.toNat < 8 ^ 11)
    {len : Word} (hlen : len.toNat < 2 ^ 31) :
    ramdiskRead r ((i : Int) + 3) len =
      some ⟨(min len.toNat (fileRest r i).length : Nat), (fileRest r i).take len.toNat,
        movedTo r i ((r.fds i).pos.toNat + min len.toNat (fileRest r i).length)⟩ := by
  have hinside := BitVec.le_def.1 hopen.inside
  obtain ⟨hle, v, rfl, hread⟩ := @ramdiskRead_inside r i len hopen (.inr (by omega))
  have havail : available (r.fds i) len = min len.toNat (fileRest r i).length := by
    rw [length_fileRest, available]
  have hword : (BitVec.ofNat 64 (available (r.fds i) len) : Word).toNat =
      available (r.fds i) len := by
    rw [BitVec.toNat_ofNat]
    omega
  have hbytes : fileSlice r.image (r.fds i) (available (r.fds i) len) =
      (fileRest r i).take len.toNat := by
    rw [fileSlice_eq hle, havail, ← fileRest, List.take_eq_take_iff]
    omega
  have hvalue : toInt32 (BitVec.ofNat 64 (available (r.fds i) len)) =
      ((min len.toNat (fileRest r i).length : Nat) : Int) := by
    rw [toInt32_of_lt (by omega), hword, havail]
  rw [hread, hbytes, hvalue, havail]
  rfl

theorem movedTo_self (r : Ramdisk) (i : Nat) : movedTo r i (r.fds i).pos.toNat = r := by
  rw [movedTo, BitVec.ofNat_toNat, BitVec.setWidth_eq, Ramdisk.setEntry_self]

theorem movedTo_movedTo (r : Ramdisk) (i m n : Nat) :
    movedTo (movedTo r i m) i n = movedTo r i n := by
  rw [movedTo, movedTo, movedTo, setEntry_setEntry, Ramdisk.setEntry_fds_self]

/-- What is left behind a read. -/
theorem fileRest_movedTo (r : Ramdisk) (i : Nat) {m : Nat}
    (hm : (r.fds i).pos.toNat + m ≤ (r.fds i).size.toNat) :
    fileRest (movedTo r i ((r.fds i).pos.toNat + m)) i = (fileRest r i).drop m := by
  rw [fileRest, movedTo_contents, movedTo_pos hm, fileRest, List.drop_drop]

/-- What the loop of `readv` comes to: with nothing asked for, with nothing left, and otherwise. -/
def readvTotal (asked left : Nat) (total : Int) : Int :=
  if asked = 0 then total
  else if left = 0 then (if total = 0 then -1 else total)
  else total + min asked left

/-- The loop of `readv` on an open file puts what is left of it into the buffers. -/
theorem readvLoop_open (hfd : toInt32 fd = (i : Int) + 3) :
    ∀ (iovs : List LinuxIov) (total : Int) (mem : ByteMem) (r : Ramdisk), OpenInside r i →
      (r.fds i).size.toNat < 8 ^ 11 → room iovs < 2 ^ 31 → 0 ≤ total →
      readvLoop fd iovs total mem r = some
        { value := readvTotal (room iovs) (fileRest r i).length total
          mem := scatter mem iovs ((fileRest r i).take (room iovs))
          disk := movedTo r i ((r.fds i).pos.toNat + min (room iovs) (fileRest r i).length) }
  | [], total, mem, r, hopen, _, _, _ => by
      rw [readvLoop, scatter, readvTotal]
      show _ = some (FileReturn.mk total mem (movedTo r i ((r.fds i).pos.toNat + min 0 _)))
      rw [Nat.zero_min, Nat.add_zero, movedTo_self]
  | iov :: iovs, total, mem, r, hopen, hsize, hroom, htotal => by
      have hsplit : room (iov :: iovs) = iov.len.toNat + room iovs := by
        rw [room, List.map_cons, List.sum_cons, room]
      have hlength := length_fileRest r i
      have hinside := BitVec.le_def.1 hopen.inside
      rw [hsplit] at hroom ⊢
      rw [readvLoop, scatter, List.take_take, List.drop_take, Nat.add_sub_cancel_left,
        Nat.min_eq_left (Nat.le_add_right ..)]
      by_cases hzero : iov.len = 0
      · -- nothing to read into
        rw [if_pos hzero, hzero, show (0 : Word).toNat = 0 from rfl, Nat.zero_add, List.take_zero,
          List.drop_zero]
        exact readvLoop_open hfd iovs total mem r hopen hsize (by omega) htotal
      · have hpos : 0 < iov.len.toNat := by
          apply Nat.pos_of_ne_zero
          intro h
          exact hzero (BitVec.eq_of_toNat_eq h)
        have hasked : iov.len.toNat + room iovs ≠ 0 := by omega
        rw [if_neg hzero, sysFread, hfd, ramdiskRead_rest hopen hsize (by omega)]
        simp only [Option.bind_eq_bind, Option.bind_some]
        by_cases hend : (fileRest r i).length = 0
        · -- the end of the file
          have hnil : fileRest r i = [] := List.eq_nil_of_length_eq_zero hend
          rw [if_pos (by omega), readvTotal, if_neg hasked, if_pos hend, hend, Nat.min_zero,
            Nat.min_zero, hnil, List.take_nil, List.drop_nil, List.take_nil, scatter_nil]
        · rw [if_neg (by omega), readvTotal, if_neg hasked, if_neg hend]
          have hvalue : (BitVec.ofInt 64 ((min iov.len.toNat (fileRest r i).length : Nat) : Int) :
              Word).toNat = min iov.len.toNat (fileRest r i).length := by
            rw [BitVec.ofInt_natCast, BitVec.toNat_ofNat]
            omega
          have hless : (BitVec.ofInt 64 ((min iov.len.toNat (fileRest r i).length : Nat) : Int) :
              Word) < iov.len ↔ (fileRest r i).length < iov.len.toNat := by
            rw [BitVec.lt_def, hvalue]
            omega
          by_cases hshort : (fileRest r i).length < iov.len.toNat
          · -- the file ends in this buffer
            have hdrop : ((fileRest r i).drop iov.len.toNat).take (room iovs) = [] := by
              rw [List.drop_of_length_le (by omega), List.take_nil]
            rw [if_pos (hless.2 hshort), hdrop, scatter_nil, Nat.min_eq_right (by omega),
              Nat.min_eq_right (by omega)]
          · -- the buffer is filled
            have hle : (r.fds i).pos.toNat + iov.len.toNat ≤ (r.fds i).size.toNat := by omega
            rw [if_neg fun h => hshort (hless.1 h), Nat.min_eq_left (by omega),
              readvLoop_open hfd iovs _ _ _ (hopen.movedTo hle) (by rw [movedTo_size]; exact hsize)
                (by omega) (by omega), fileRest_movedTo r i hle, movedTo_pos hle, movedTo_movedTo,
              List.length_drop]
            have hmin : min (iov.len.toNat + room iovs) (fileRest r i).length =
                iov.len.toNat + min (room iovs) ((fileRest r i).length - iov.len.toNat) := by
              omega
            have htot : readvTotal (room iovs) ((fileRest r i).length - iov.len.toNat)
                (total + (iov.len.toNat : Nat)) =
                total + (min (iov.len.toNat + room iovs) (fileRest r i).length : Nat) := by
              rw [hmin]
              unfold readvTotal
              split
              · omega
              · split
                · rw [if_neg (by omega)]
                  omega
                · omega
            rw [htot, hmin, Nat.add_assoc]

/-- On a descriptor that is not open the first entry that asks for something ends the loop. -/
theorem readvLoop_closed (hfd : openSlot r (toInt32 fd) = none) :
    ∀ iovs : List LinuxIov, readvLoop fd iovs 0 mem r =
      some { value := if room iovs = 0 then 0 else -1, mem := mem, disk := r }
  | [] => rfl
  | iov :: iovs => by
      have hsplit : room (iov :: iovs) = iov.len.toNat + room iovs := by
        rw [room, List.map_cons, List.sum_cons, room]
      rw [readvLoop, hsplit]
      by_cases hzero : iov.len = 0
      · rw [if_pos hzero, hzero, show (0 : Word).toNat = 0 from rfl, Nat.zero_add]
        exact readvLoop_closed hfd iovs
      · have hpos : iov.len.toNat ≠ 0 := fun h => hzero (BitVec.eq_of_toNat_eq h)
        have hread : ramdiskRead r (toInt32 fd) iov.len = some ⟨-1, [], r⟩ := by
          rw [ramdiskRead, hfd]
        have hasked : iov.len.toNat + room iovs ≠ 0 := by omega
        rw [if_neg hzero, if_neg hasked, sysFread, hread]
        rfl

end Loop

/-! ### `readv` and `read` -/

section Agree

variable {r : Ramdisk} {mem : ByteMem} {fd : Word} {iovs : List LinuxIov}

/-- Linux call 19 returns what Linux call 0 of as many bytes returns and leaves the ramdisk as it does;
    the bytes that call 0 stores at `buf` are put into the buffers, and are there afterwards. -/
def ReadvLikeRead (r : Ramdisk) (mem : ByteMem) (fd : Word) (iovs : List LinuxIov) : Prop :=
  ∃ bytes readv, linuxReadv r mem fd iovs (BitVec.ofNat 64 iovs.length) = some readv ∧
    (∀ (before : ByteMem) (buf : Word), sysFread r before fd buf (BitVec.ofNat 64 (room iovs)) =
      some { readv with mem := storeList buf.toNat bytes before }) ∧
    readv.mem = scatter mem iovs bytes ∧ (gather readv.mem iovs).take bytes.length = bytes

/-- The entries that the loop of `readv` looks at. -/
def seenIovs (iovs : List LinuxIov) : List LinuxIov :=
  iovs.take (toInt32 (BitVec.ofNat 64 iovs.length)).toNat

/-- When the two agree: on a descriptor that is not open, if the loop sees a buffer; at the end of a
    file, if it sees none; and elsewhere, if the buffers it sees take what one read delivers. -/
def ReadvAgrees (r : Ramdisk) (fd : Word) (iovs : List LinuxIov) : Prop :=
  match openSlot r (toInt32 fd) with
  | none => room (seenIovs iovs) ≠ 0
  | some i =>
      if (fileRest r i).length = 0 then room (seenIovs iovs) = 0
      else min (room (seenIovs iovs)) (fileRest r i).length = min (room iovs) (fileRest r i).length

/-- The loop sees all of a vector that an `int` can count. -/
theorem seenIovs_eq (h : iovs.length < 2 ^ 31) : seenIovs iovs = iovs := by
  have hword : (BitVec.ofNat 64 iovs.length : Word).toNat = iovs.length := by
    rw [BitVec.toNat_ofNat]
    omega
  rw [seenIovs, toInt32_of_lt (by omega), hword, Int.toNat_natCast, List.take_length]

theorem room_seenIovs_le (iovs : List LinuxIov) : room (seenIovs iovs) ≤ room iovs := by
  have hsplit : room iovs = room (seenIovs iovs) +
      room (iovs.drop (toInt32 (BitVec.ofNat 64 iovs.length)).toNat) := by
    rw [room, room, room, ← List.sum_append, ← List.map_append, seenIovs, List.take_append_drop]
  omega

theorem toNat_room (h : room iovs < 2 ^ 31) :
    (BitVec.ofNat 64 (room iovs) : Word).toNat = room iovs := by
  rw [BitVec.toNat_ofNat]
  omega

/-- The two on a descriptor that is not open. -/
theorem readvLikeRead_closed (hslot : openSlot r (toInt32 fd) = none) :
    ReadvLikeRead r mem fd iovs ↔ room (seenIovs iovs) ≠ 0 := by
  have hread : ∀ (before : ByteMem) (buf : Word),
      sysFread r before fd buf (BitVec.ofNat 64 (room iovs)) = some ⟨-1, before, r⟩ := by
    intro before buf
    rw [sysFread, ramdiskRead, hslot]
    rfl
  have hloop := @readvLoop_closed r fd mem hslot (seenIovs iovs)
  constructor
  · rintro ⟨bytes, readv, hreadv, hsame, -⟩ hzero
    rw [linuxReadv, ← seenIovs, hloop, if_pos hzero] at hreadv
    cases hreadv
    have hvalue : (-1 : Int) = 0 := Option.some.inj (congrArg (Option.map FileReturn.value)
      ((hread mem 0).symm.trans (hsame mem 0)))
    omega
  · intro hseen
    rw [if_neg hseen] at hloop
    exact ⟨[], _, hloop, hread, (scatter_nil iovs mem).symm, rfl⟩

/-- The two on an open file. -/
theorem readvLikeRead_open {i : Nat} (hopen : OpenInside r i)
    (hsize : (r.fds i).size.toNat < 8 ^ 11) (hfd : toInt32 fd = (i : Int) + 3)
    (hapart : iovs.Pairwise LinuxIov.Apart) (hpos : 0 < room iovs) (hroom : room iovs < 2 ^ 31) :
    ReadvLikeRead r mem fd iovs ↔
      if (fileRest r i).length = 0 then room (seenIovs iovs) = 0
      else min (room (seenIovs iovs)) (fileRest r i).length =
        min (room iovs) (fileRest r i).length := by
  have hseen := room_seenIovs_le iovs
  have hlen := toNat_room hroom
  have hread : ∀ (before : ByteMem) (buf : Word),
      sysFread r before fd buf (BitVec.ofNat 64 (room iovs)) =
        some ⟨(min (room iovs) (fileRest r i).length : Nat),
          storeList buf.toNat ((fileRest r i).take (room iovs)) before,
          movedTo r i ((r.fds i).pos.toNat + min (room iovs) (fileRest r i).length)⟩ := by
    intro before buf
    rw [sysFread, hfd, ramdiskRead_rest hopen hsize (by omega), hlen]
    rfl
  have hloop := readvLoop_open hfd (seenIovs iovs) 0 mem r hopen hsize (by omega) (Int.le_refl 0)
  unfold ReadvLikeRead linuxReadv
  rw [← seenIovs, hloop]
  constructor
  · rintro ⟨bytes, readv, hreadv, hsame, -⟩
    cases hreadv
    have hvalue : ((min (room iovs) (fileRest r i).length : Nat) : Int) =
        readvTotal (room (seenIovs iovs)) (fileRest r i).length 0 :=
      Option.some.inj (congrArg (Option.map FileReturn.value)
        ((hread mem 0).symm.trans (hsame mem 0)))
    unfold readvTotal at hvalue
    split
    · rename_i hend
      by_contra hne
      rw [if_neg hne, if_pos hend, if_pos rfl] at hvalue
      omega
    · rename_i hend
      by_cases hzero : room (seenIovs iovs) = 0
      · rw [if_pos hzero] at hvalue
        omega
      · rw [if_neg hzero, if_neg hend] at hvalue
        omega
  · intro hagree
    have hmin : min (room (seenIovs iovs)) (fileRest r i).length =
        min (room iovs) (fileRest r i).length := by
      split at hagree
      · omega
      · exact hagree
    have hvalue : readvTotal (room (seenIovs iovs)) (fileRest r i).length 0 =
        ((min (room iovs) (fileRest r i).length : Nat) : Int) := by
      rw [readvTotal, ← hmin]
      split at hagree
      · rw [if_pos hagree]
        omega
      · rename_i hend
        rw [if_neg (by omega), if_neg hend]
        omega
    have hbytes : (fileRest r i).take (room (seenIovs iovs)) =
        (fileRest r i).take (room iovs) := by
      rw [List.take_eq_take_iff]
      exact hmin
    have hmem : scatter mem (seenIovs iovs) ((fileRest r i).take (room (seenIovs iovs))) =
        scatter mem iovs ((fileRest r i).take (room iovs)) := by
      have hfits : ((fileRest r i).take (room (seenIovs iovs))).length ≤ room (seenIovs iovs) :=
        List.length_take_le ..
      rw [← hbytes, ← scatter_append _ (iovs.drop (toInt32 (BitVec.ofNat 64 iovs.length)).toNat)
        _ _ hfits, seenIovs, List.take_append_drop]
    refine ⟨(fileRest r i).take (room iovs), _, rfl, ?_, hmem, ?_⟩
    · intro before buf
      rw [hread]
      show some (FileReturn.mk _ _ _) = some (FileReturn.mk _ _ _)
      rw [hvalue, hmin]
    · show (gather (scatter _ _ _) iovs).take _ = _
      rw [hmem]
      refine gather_scatter iovs _ mem hapart ?_
      rw [List.length_take]
      omega

/-- A read that comes back did not wrap around: every run is one of those of `DiskReached`. -/
theorem diskReached_of_calls {start : Ramdisk} (hstart : PosInside start)
    (hrun : Relation.ReflTransGen (fun r r' => ∃ call, diskCall r call = some r') start r) :
    DiskReached start r := by
  induction hrun with
  | refl => exact .start
  | tail _ hcall ih =>
      obtain ⟨call, hcall⟩ := hcall
      refine .call ih ?_ hcall
      cases call with
      | read fd len =>
          intro i hslot
          obtain ⟨hi, huse, rfl⟩ := openSlot_some hslot
          by_contra hwrap
          rw [diskCall, ramdiskRead_endless ⟨hi, huse, hstart.run ih i huse⟩ hwrap] at hcall
          cases hcall
      | openFile _ => trivial
      | seek _ _ _ => trivial
      | close _ => trivial

/-- With a vector that an `int` can count, only the end of a file makes a difference. -/
theorem readvAgrees_iff (hpos : 0 < room iovs) (hcount : iovs.length < 2 ^ 31) :
    ReadvAgrees r fd iovs ↔
      ∀ i, openSlot r (toInt32 fd) = some i → (r.fds i).pos < (r.fds i).size := by
  rw [ReadvAgrees, seenIovs_eq hcount]
  cases hslot : openSlot r (toInt32 fd) with
  | none =>
      constructor
      · intro _ i hi
        cases hi
      · intro _
        show room iovs ≠ 0
        omega
  | some i =>
      have hlength := length_fileRest r i
      dsimp only
      constructor
      · intro hagree j hj
        cases hj
        rw [BitVec.lt_def]
        split at hagree
        · omega
        · omega
      · intro hinside
        have hlt := BitVec.lt_def.1 (hinside i rfl)
        rw [if_neg (by omega)]

end Agree

/-- In every state that calls lead to from a table without open files, for buffers apart from each
    other with room for less than 2 GiB: `readv` does what `read` does exactly under `ReadvAgrees`, that
    is, if an `int` counts the vector, exactly if the descriptor is not that of a file at its end. -/
theorem readv_like_read (start r : Ramdisk) (hstart : ∀ i, (start.fds i).inUse = false)
    (hrun : Relation.ReflTransGen (fun r r' => ∃ call, diskCall r call = some r') start r)
    (mem : ByteMem) (fd : Word) (iovs : List LinuxIov) (hapart : iovs.Pairwise LinuxIov.Apart)
    (hpos : 0 < room iovs) (hroom : room iovs < 2 ^ 31) :
    (ReadvLikeRead r mem fd iovs ↔ ReadvAgrees r fd iovs) ∧
    (iovs.length < 2 ^ 31 → (ReadvLikeRead r mem fd iovs ↔
      ∀ i, openSlot r (toInt32 fd) = some i → (r.fds i).pos < (r.fds i).size)) := by
  have hclosed : ∀ {i}, (start.fds i).inUse ≠ true := fun {i} huse => by
    rw [hstart i] at huse
    cases huse
  have hinside : PosInside start := fun _ huse => absurd huse hclosed
  have hsmall : SizesSmall start := fun _ huse => absurd huse hclosed
  have hreached := diskReached_of_calls hinside hrun
  have hagree : ReadvLikeRead r mem fd iovs ↔ ReadvAgrees r fd iovs := by
    rw [ReadvAgrees]
    cases hslot : openSlot r (toInt32 fd) with
    | none => exact readvLikeRead_closed hslot
    | some i =>
        obtain ⟨hi, huse, hfd⟩ := openSlot_some hslot
        exact readvLikeRead_open ⟨hi, huse, hinside.run hreached i huse⟩
          (hsmall.run hreached i huse) hfd hapart hpos hroom
  exact ⟨hagree, fun hcount => hagree.trans (readvAgrees_iff hpos hcount)⟩

/-- Two buffers apart from each other, of one and of four bytes. -/
def twoBuffers : List LinuxIov := [⟨4096, 1⟩, ⟨8192, 4⟩]

theorem calls_of_diskReached {start r : Ramdisk} (h : DiskReached start r) :
    Relation.ReflTransGen (fun r r' => ∃ call, diskCall r call = some r') start r := by
  induction h with
  | start => exact .refl
  | call _ _ hcall ih => exact ih.tail ⟨_, hcall⟩

/-- From the second byte of the file on they take what is left. -/
theorem readv_like_read_second_byte : ReadvLikeRead secondByte (fun _ => 0) 3 twoBuffers :=
  ((readv_like_read oneFile secondByte (fun _ => rfl)
    (calls_of_diskReached secondByte_reached) (fun _ => 0) 3 twoBuffers
    (by decide) (by decide) (by decide)).2 (by decide)).2 fun i hi => by
      obtain rfl : i = 0 := by
        have hslot : openSlot secondByte (toInt32 3) = some 0 := by decide
        rw [hslot] at hi
        cases hi
        rfl
      decide

/-- The file with its position at its end. -/
def readOut : Ramdisk := oneFile.setEntry 0 { data := 512, size := 3, pos := 3, inUse := true }

/-- At the end of the file `read` returns 0 and `readv` -1. -/
theorem readv_at_end :
    (∀ i, (oneFile.fds i).inUse = false) ∧
    Relation.ReflTransGen (fun r r' => ∃ call, diskCall r call = some r') oneFile readOut ∧
    (sysFread readOut (fun _ => 0) 3 4096 5).map FileReturn.value = some 0 ∧
    (linuxReadv readOut (fun _ => 0) 3 twoBuffers 2).map FileReturn.value = some (-1) ∧
    ¬ ReadvLikeRead readOut (fun _ => 0) 3 twoBuffers := by
  have hcall : diskCall secondByte (.seek 3 3 0) = some readOut := by
    show some (secondByte.setEntry 0 { data := 512, size := 3, pos := 3, inUse := true }) = _
    rw [secondByte, readOut, setEntry_setEntry]
  refine ⟨fun _ => rfl, (calls_of_diskReached secondByte_reached).tail ⟨_, hcall⟩, rfl, rfl, ?_⟩
  rintro ⟨bytes, readv, hreadv, hsame, -⟩
  cases hreadv
  have hvalue : (0 : Int) = -1 :=
    Option.some.inj (congrArg (Option.map FileReturn.value) (hsame (fun _ => 0) 0))
  omega

end CustomKernel.Syscall
