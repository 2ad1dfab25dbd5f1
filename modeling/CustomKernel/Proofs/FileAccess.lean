/-
Module: CustomKernel.Proofs.FileAccess
Layer: Proofs
Purpose: What a program that works with files sees of the ramdisk. `ramdisk_seek` goes to the integer
  position it is asked for, cut down to the file, as long as the sum is not computed beyond 63 bits;
  reads with any lengths deliver the file piece by piece from there; and the walk of `ramdisk_open`
  ends on every image, with a file that lies inside it exactly if the member's size says so.
Imports: CustomKernel.Proofs.BoundedReads, Mathlib.Tactic.Ring
Trusted boundary: as in Ramdisk: buffers are apart from the table of open files and from the archive
Main exports: SeekExact, seek_exact, readEach, chunks_reassemble, archiveHeaders, MemberFits,
  archive_bounds
-/
import CustomKernel.Proofs.BoundedReads
import Mathlib.Tactic.Ring

namespace CustomKernel.Filesystem

/-! ### Seeking -/

/-- What `whence` counts from. -/
def seekBase (f : FdEntry) (whence : Int) : Option Nat :=
  if whence = 0 then some 0
  else if whence = 1 then some f.pos.toNat
  else if whence = 2 then some f.size.toNat
  else none

/-- An integer cut down to the positions of a file. -/
def clampInt (f : FdEntry) (x : Int) : Nat := (max 0 (min x f.size.toNat)).toNat

/-- The seek goes to `base + off`, cut down to the file, and returns where it is; the sum is one of
    `int64_t`. -/
def SeekExact (r : Ramdisk) (i : Nat) (off : Word) (whence : Int) (base : Nat) : Prop :=
  -2 ^ 63 ≤ (base : Int) + off.toInt ∧ (base : Int) + off.toInt < 2 ^ 63 ∧
    ramdiskSeek r ((i : Int) + 3) off whence =
      (((clampInt (r.fds i) (base + off.toInt) : Nat) : Int),
        r.setEntry i { r.fds i with
          pos := BitVec.ofNat 64 (clampInt (r.fds i) (base + off.toInt)) })

section Seek

variable {r : Ramdisk} {i : Nat} {f : FdEntry} {off : Word} {whence : Int} {base : Nat}

/-- The 64-bit sum, where it does not overflow. -/
theorem toInt_seekSum {x : Word} (hbase : x.toNat < 2 ^ 31)
    (hsum : (x.toNat : Int) + off.toInt < 2 ^ 63) : (x + off).toInt = x.toNat + off.toInt := by
  have hlo := BitVec.le_toInt off
  have hx : x.toInt = x.toNat := BitVec.toInt_eq_toNat_of_lt (by omega)
  rw [BitVec.toInt_add, hx]
  exact Int.bmod_eq_of_le (by omega) (by omega)

/-- The target of a seek as an integer. -/
theorem seekTarget_toInt (hpos : f.pos ≤ f.size) (hsize : f.size.toNat < 2 ^ 31)
    (hbase : seekBase f whence = some base) (hsum : (base : Int) + off.toInt < 2 ^ 63) :
    ∃ np, seekTarget f off whence = some np ∧ np.toInt = base + off.toInt := by
  have hle := BitVec.le_def.1 hpos
  unfold seekBase at hbase
  unfold seekTarget
  split at hbase
  · rename_i h
    cases hbase
    exact ⟨off, if_pos h, by simp⟩
  · rename_i h₀
    rw [if_neg h₀]
    split at hbase
    · rename_i h
      cases hbase
      exact ⟨_, if_pos h, toInt_seekSum (by omega) hsum⟩
    · rename_i h₁
      rw [if_neg h₁]
      split at hbase
      · rename_i h
        cases hbase
        exact ⟨_, if_pos h, toInt_seekSum hsize hsum⟩
      · cases hbase

theorem clampPos_toNat (hsize : f.size.toNat < 2 ^ 31) (np : Word) :
    (clampPos f np).toNat = clampInt f np.toInt := by
  unfold clampPos clampInt
  dsimp only
  by_cases hneg : np.toInt < 0
  · rw [if_pos hneg]
    have hzero : (if f.size < (0 : Word) then f.size else 0) = 0 := if_neg BitVec.not_lt_zero
    rw [hzero, show (0 : Word).toNat = 0 from rfl]
    omega
  · rw [if_neg hneg]
    have hnp : np.toInt = np.toNat := by
      rw [BitVec.toInt_eq_toNat_cond] at hneg ⊢
      split at hneg
      · rename_i h
        rw [if_pos h]
      · have := np.isLt
        omega
    rw [hnp]
    split
    · rename_i hlt
      rw [BitVec.lt_def] at hlt
      omega
    · rename_i hlt
      rw [BitVec.lt_def] at hlt
      omega

theorem clampInt_le (f : FdEntry) (x : Int) : clampInt f x ≤ f.size.toNat := by
  unfold clampInt
  omega

/-- A seek on an open file, with its target. -/
theorem ramdiskSeek_open (hopen : OpenInside r i) {np : Word}
    (htarget : seekTarget (r.fds i) off whence = some np) :
    ramdiskSeek r ((i : Int) + 3) off whence = (toInt32 (clampPos (r.fds i) np),
      r.setEntry i { r.fds i with pos := clampPos (r.fds i) np }) := by
  unfold ramdiskSeek
  rw [openSlot_add_three hopen.slot hopen.inUse]
  dsimp only
  rw [htarget]
  rfl

/-- A seek whose sum stays in range is exact. -/
theorem ramdiskSeek_exact (hopen : OpenInside r i) (hsize : (r.fds i).size.toNat < 2 ^ 31)
    (hbase : seekBase (r.fds i) whence = some base) (hsum : (base : Int) + off.toInt < 2 ^ 63) :
    SeekExact r i off whence base := by
  obtain ⟨np, htarget, hnp⟩ := seekTarget_toInt hopen.inside hsize hbase hsum
  have hlo := BitVec.le_toInt off
  have hclamp := clampPos_toNat hsize np
  have hle := clampInt_le (r.fds i) np.toInt
  refine ⟨by omega, hsum, ?_⟩
  rw [ramdiskSeek_open hopen htarget, toInt32_of_lt (by omega), ← hnp, ← hclamp, BitVec.ofNat_toNat,
    BitVec.setWidth_eq]

/-- Where the sum is 2^63 or more it comes out negative. -/
theorem seekTarget_overflow (hpos : f.pos ≤ f.size) (hsize : f.size.toNat < 2 ^ 31)
    (hbase : seekBase f whence = some base) (hsum : 2 ^ 63 ≤ (base : Int) + off.toInt) :
    ∃ np, seekTarget f off whence = some np ∧ np.toInt < 0 := by
  have hle := BitVec.le_def.1 hpos
  have hhi := @BitVec.toInt_lt 64 off
  have hwrap : ∀ x : Word, x.toNat < 2 ^ 31 → 2 ^ 63 ≤ (x.toNat : Int) + off.toInt →
      (x + off).toInt < 0 := by
    intro x hx hbig
    have hxi : x.toInt = x.toNat := BitVec.toInt_eq_toNat_of_lt (by omega)
    have hb : (x.toNat : Int) + off.toInt = (x.toNat + off.toInt - 2 ^ 64) + 2 ^ 64 := by omega
    rw [BitVec.toInt_add, hxi, hb, show ((2 : Int) ^ 64) = ((2 ^ 64 : Nat) : Int) from rfl,
      Int.add_bmod_right, Int.bmod_eq_of_le (by omega) (by omega)]
    omega
  unfold seekBase at hbase
  unfold seekTarget
  split at hbase
  · cases hbase
    omega
  · rename_i h₀
    rw [if_neg h₀]
    split at hbase
    · rename_i h
      cases hbase
      exact ⟨_, if_pos h, hwrap _ (by omega) hsum⟩
    · rename_i h₁
      rw [if_neg h₁]
      split at hbase
      · rename_i h
        cases hbase
        exact ⟨_, if_pos h, hwrap _ hsize hsum⟩
      · cases hbase

/-- The seek then goes to the start of the file, and not to its end. -/
theorem ramdiskSeek_overflow (hopen : OpenInside r i) (hsize : (r.fds i).size.toNat < 2 ^ 31)
    (hbase : seekBase (r.fds i) whence = some base) (hsum : 2 ^ 63 ≤ (base : Int) + off.toInt) :
    ramdiskSeek r ((i : Int) + 3) off whence = (0, r.setEntry i { r.fds i with pos := 0 }) ∧
      clampInt (r.fds i) (base + off.toInt) = (r.fds i).size.toNat := by
  obtain ⟨np, htarget, hnp⟩ := seekTarget_overflow hopen.inside hsize hbase hsum
  have hclamp : clampPos (r.fds i) np = 0#64 := by
    unfold clampPos
    dsimp only
    rw [if_pos hnp]
    exact if_neg BitVec.not_lt_zero
  refine ⟨?_, by unfold clampInt; omega⟩
  rw [ramdiskSeek_open hopen htarget, hclamp]
  rfl

end Seek

/-- For every open file of less than 2 GiB with its position inside, every offset and the three ways
    of counting, the seek is exact if and only if the sum stays below 2^63; where it does not, the seek
    goes to the start of the file and not to the end. With anything else for `whence`, or on a
    descriptor that is not open, it returns -1 and changes nothing. -/
theorem seek_exact (r : Ramdisk) :
    (∀ (i : Nat) (off : Word) (whence : Int) (base : Nat), i < maxFds → (r.fds i).inUse = true →
      (r.fds i).pos ≤ (r.fds i).size → (r.fds i).size.toNat < 2 ^ 31 →
      seekBase (r.fds i) whence = some base →
      (SeekExact r i off whence base ↔ (base : Int) + off.toInt < 2 ^ 63) ∧
        (2 ^ 63 ≤ (base : Int) + off.toInt →
          ramdiskSeek r ((i : Int) + 3) off whence = (0, r.setEntry i { r.fds i with pos := 0 }) ∧
            clampInt (r.fds i) (base + off.toInt) = (r.fds i).size.toNat)) ∧
    (∀ (fd : Int) (off : Word) (whence : Int),
      (openSlot r fd = none ∨ ∀ w ∈ [0, 1, 2], whence ≠ w) →
      ramdiskSeek r fd off whence = (-1, r)) := by
  constructor
  · intro i off whence base hi huse hinside hsize hbase
    have hopen : OpenInside r i := ⟨hi, huse, hinside⟩
    exact ⟨⟨fun h => h.2.1, ramdiskSeek_exact hopen hsize hbase⟩,
      ramdiskSeek_overflow hopen hsize hbase⟩
  · intro fd off whence h
    unfold ramdiskSeek
    cases hslot : openSlot r fd with
    | none => rfl
    | some i =>
        rcases h with hnone | hwhence
        · rw [hslot] at hnone
          cases hnone
        · have htarget : seekTarget (r.fds i) off whence = none := by
            unfold seekTarget
            rw [if_neg (hwhence 0 (by decide)), if_neg (hwhence 1 (by decide)),
              if_neg (hwhence 2 (by decide))]
          dsimp only
          rw [htarget]

/-- One byte back from the second byte of the file. -/
theorem seek_exact_back :
    SeekExact secondByte 0 (-1 : Word) 1 1 ∧ ramdiskSeek secondByte 3 5 7 = (-1, secondByte) :=
  ⟨((seek_exact secondByte).1 0 (-1) 1 1 (by decide) rfl (by decide) (by decide) rfl).1.2
      (by decide),
    (seek_exact secondByte).2 3 5 7 (.inr (by decide))⟩

/-- The largest offset from there overflows, and the seek goes to the start of the file. -/
theorem seek_overflow :
    (secondByte.fds 0).pos.toNat = 1 ∧
      (ramdiskSeek secondByte 3 0x7FFFFFFFFFFFFFFF#64 1).1 = 0 ∧
      clampInt (secondByte.fds 0) (1 + (0x7FFFFFFFFFFFFFFF#64 : Word).toInt) = 3 ∧
      ¬ SeekExact secondByte 0 0x7FFFFFFFFFFFFFFF#64 1 1 :=
  ⟨rfl, by decide, by decide, fun h => absurd h.2.1 (by decide)⟩

/-! ### Reading in pieces -/

/-- The bytes of an open file. -/
def fileContents (image : Nat → Byte) (f : FdEntry) : List Byte :=
  (List.range f.size.toNat).map fun j => image (f.data + j)

/-- Reads of these lengths, one after the other, with what each returns and stores. -/
def readEach (r : Ramdisk) (fd : Int) : List Word → Option (List (Int × List Byte) × Ramdisk)
  | [] => some ([], r)
  | len :: lens => do
      let first ← ramdiskRead r fd len
      let (rest, r) ← readEach first.disk fd lens
      some ((first.value, first.bytes) :: rest, r)

/-- The pieces are the first `n` bytes of `contents`, or all of them, each with its length. -/
structure Reassembles (pieces : List (Int × List Byte)) (contents : List Byte) (n : Nat) : Prop where
  bytes : (pieces.map Prod.snd).flatten = contents.take (min n contents.length)
  values : ∀ piece ∈ pieces, piece.1 = piece.2.length

section Pieces

variable {r : Ramdisk} {i : Nat}

theorem length_fileContents (image : Nat → Byte) (f : FdEntry) :
    (fileContents image f).length = f.size.toNat := by
  rw [fileContents, List.length_map, List.length_range]

/-- What one read delivers is a piece of the file. -/
theorem fileSlice_eq {image : Nat → Byte} {f : FdEntry} {m : Nat}
    (hm : f.pos.toNat + m ≤ f.size.toNat) :
    fileSlice image f m = ((fileContents image f).drop f.pos.toNat).take m := by
  refine List.ext_getElem ?_ fun j hj hj' => ?_
  · rw [List.length_take, List.length_drop, length_fileContents, fileSlice, List.length_map,
      List.length_range]
    omega
  · simp only [fileSlice, fileContents, List.getElem_map, List.getElem_range, List.getElem_take,
      List.getElem_drop]
    rw [Nat.add_assoc]

/-- A piece cut off at the end, and then the next one. -/
theorem take_min_append {α : Type} (l : List α) (a b : Nat) :
    l.take (min a l.length) ++ (l.drop (min a l.length)).take b = l.take (a + b) := by
  rcases Nat.le_total a l.length with h | h
  · rw [Nat.min_eq_left h, List.take_add]
  · rw [Nat.min_eq_right h, List.drop_length, List.take_nil, List.append_nil, List.take_length,
      List.take_of_length_le (by omega)]

/-- The ramdisk with another position in an open file. -/
def movedTo (r : Ramdisk) (i n : Nat) : Ramdisk :=
  r.setEntry i { r.fds i with pos := BitVec.ofNat 64 n }

theorem movedTo_contents (r : Ramdisk) (i n : Nat) :
    fileContents (movedTo r i n).image ((movedTo r i n).fds i) =
      fileContents r.image (r.fds i) := by
  rw [movedTo, Ramdisk.setEntry_fds_self]
  rfl

theorem movedTo_size (r : Ramdisk) (i n : Nat) :
    ((movedTo r i n).fds i).size = (r.fds i).size := by
  rw [movedTo, Ramdisk.setEntry_fds_self]

theorem movedTo_pos {n : Nat} (hn : n ≤ (r.fds i).size.toNat) :
    ((movedTo r i n).fds i).pos.toNat = n := by
  rw [movedTo, Ramdisk.setEntry_fds_self, BitVec.toNat_ofNat]
  have := (r.fds i).size.isLt
  omega

theorem OpenInside.movedTo {n : Nat} (hopen : OpenInside r i) (hn : n ≤ (r.fds i).size.toNat) :
    OpenInside (movedTo r i n) i := by
  refine ⟨hopen.slot, ?_, ?_⟩
  · rw [Filesystem.movedTo, Ramdisk.setEntry_fds_self]
    exact hopen.inUse
  · rw [BitVec.le_def, movedTo_pos hn, movedTo_size]
    exact hn

/-- The reads deliver the file from the position on. -/
theorem readEach_spec : ∀ (lens : List Word) (r : Ramdisk), OpenInside r i →
    (r.fds i).size.toNat < 2 ^ 31 → (∀ len ∈ lens, len.toNat < 2 ^ 63) →
    ∃ pieces r', readEach r ((i : Int) + 3) lens = some (pieces, r') ∧
      (pieces.map Prod.snd).flatten =
        ((fileContents r.image (r.fds i)).drop (r.fds i).pos.toNat).take
          (lens.map BitVec.toNat).sum ∧
      ∀ piece ∈ pieces, piece.1 = piece.2.length
  | [], r, _, _, _ => ⟨[], r, rfl, by simp, fun _ h => nomatch h⟩
  | len :: lens, r, hopen, hsize, hlens => by
      have hinside := BitVec.le_def.1 hopen.inside
      have hlen := hlens len (List.mem_cons_self ..)
      obtain ⟨hle, v, rfl, hread⟩ := @ramdiskRead_bounded r i len hopen hsize (.inr (by omega))
      obtain ⟨pieces, r', hrest, hbytes, hvalues⟩ := readEach_spec lens
        (movedTo r i ((r.fds i).pos.toNat + available (r.fds i) len)) (hopen.movedTo hle)
        (by rw [movedTo_size]; exact hsize) (fun l hl => hlens l (List.mem_cons_of_mem _ hl))
      refine ⟨(available (r.fds i) len, fileSlice r.image (r.fds i) (available (r.fds i) len)) ::
        pieces, r', ?_, ?_, ?_⟩
      · rw [readEach, hread]
        show (readEach (movedTo r i _) _ lens >>= _) = _
        rw [hrest]
        rfl
      · have hlength : ((fileContents r.image (r.fds i)).drop (r.fds i).pos.toNat).length =
            (r.fds i).size.toNat - (r.fds i).pos.toNat := by
          rw [List.length_drop, length_fileContents]
        rw [List.map_cons, List.flatten_cons, hbytes, fileSlice_eq hle, List.map_cons,
          List.sum_cons, ← take_min_append, hlength, movedTo_contents, movedTo_pos hle,
          List.drop_drop]
        rfl
      · intro piece hpiece
        rcases List.mem_cons.1 hpiece with rfl | hpiece
        · show ((available (r.fds i) len : Nat) : Int) = (fileSlice _ _ _).length
          rw [fileSlice, List.length_map, List.length_range]
        · exact hvalues piece hpiece

/-- The same with the number of bytes spelled out. -/
theorem readEach_reassembles (hopen : OpenInside r i) (hsize : (r.fds i).size.toNat < 2 ^ 31)
    {lens : List Word} (hlens : ∀ len ∈ lens, len.toNat < 2 ^ 63) :
    ∃ pieces r', readEach r ((i : Int) + 3) lens = some (pieces, r') ∧
      Reassembles pieces ((fileContents r.image (r.fds i)).drop (r.fds i).pos.toNat)
        (lens.map BitVec.toNat).sum := by
  obtain ⟨pieces, r', hread, hbytes, hvalues⟩ := readEach_spec lens r hopen hsize hlens
  refine ⟨pieces, r', hread, ?_, hvalues⟩
  rw [hbytes, List.take_eq_take_iff]
  omega

end Pieces

/-- Reads of any lengths below 2^63 from a file of less than 2 GiB that was just opened, or that was
    sought to offset `k`, put together, are the file from there on. -/
theorem chunks_reassemble (lens : List Word) (hlens : ∀ len ∈ lens, len.toNat < 2 ^ 63) :
    (∀ (r r' : Ramdisk) (path : List Byte) (fd : Int), ramdiskOpen r path = (fd, r') → 0 ≤ fd →
      ∃ i : Nat, fd = (i : Int) + 3 ∧ i < maxFds ∧ ((r'.fds i).size.toNat < 2 ^ 31 →
        ∃ pieces r'', readEach r' fd lens = some (pieces, r'') ∧
          Reassembles pieces (fileContents r'.image (r'.fds i)) (lens.map BitVec.toNat).sum)) ∧
    (∀ (r : Ramdisk) (i k : Nat), i < maxFds → (r.fds i).inUse = true →
      (r.fds i).pos ≤ (r.fds i).size → (r.fds i).size.toNat < 2 ^ 31 → k ≤ (r.fds i).size.toNat →
      ∃ pieces r',
        readEach (ramdiskSeek r ((i : Int) + 3) (BitVec.ofNat 64 k) 0).2 ((i : Int) + 3) lens =
          some (pieces, r') ∧
        Reassembles pieces ((fileContents r.image (r.fds i)).drop k) (lens.map BitVec.toNat).sum) := by
  constructor
  · intro r r' path fd hopen hfd
    unfold ramdiskOpen at hopen
    split at hopen
    · cases hopen
      omega
    · rename_i p size _
      split at hopen
      · cases hopen
        omega
      · rename_i i hfree
        cases hopen
        obtain ⟨hi, -⟩ := freeSlot_some hfree
        refine ⟨i, rfl, hi, fun hsize => ?_⟩
        have hfds : (r.setEntry i ⟨p + 512, size, 0, true⟩).fds i = ⟨p + 512, size, 0, true⟩ :=
          Ramdisk.setEntry_fds_self ..
        have hpieces := @readEach_reassembles (r.setEntry i ⟨p + 512, size, 0, true⟩) i
          ⟨hi, by rw [hfds], by rw [hfds]; exact BitVec.not_lt.1 BitVec.not_lt_zero⟩ hsize lens hlens
        rw [hfds] at hpieces
        show ∃ pieces r'', _ ∧ Reassembles pieces
          (fileContents r.image ((r.setEntry i ⟨p + 512, size, 0, true⟩).fds i)) _
        rw [hfds]
        exact hpieces
  · intro r i k hi huse hinside hsize hk
    have hk' : (BitVec.ofNat 64 k : Word).toInt = k := by
      have htoNat : (BitVec.ofNat 64 k : Word).toNat = k := by
        rw [BitVec.toNat_ofNat]
        omega
      rw [BitVec.toInt_eq_toNat_of_lt (by omega), htoNat]
    have hopen : OpenInside r i := ⟨hi, huse, hinside⟩
    obtain ⟨-, -, hseek⟩ := @ramdiskSeek_exact r i (BitVec.ofNat 64 k) 0 0 hopen hsize rfl
      (by rw [hk']; omega)
    have hclamp : clampInt (r.fds i) (((0 : Nat) : Int) + (BitVec.ofNat 64 k : Word).toInt) = k := by
      rw [hk']
      unfold clampInt
      omega
    rw [hclamp] at hseek
    rw [hseek]
    have hpieces := readEach_reassembles (hopen.movedTo hk) (by rw [movedTo_size]; exact hsize) hlens
    rw [movedTo_contents, movedTo_pos hk] at hpieces
    exact hpieces

/-- The second and third byte of the file in two reads. -/
theorem chunks_reassemble_second_byte : ∃ pieces r',
    readEach (ramdiskSeek secondByte ((0 : Nat) + 3) (BitVec.ofNat 64 1) 0).2 ((0 : Nat) + 3)
      [1#64, 5#64] = some (pieces, r') ∧ Reassembles pieces [121, 122] 6 := by
  have hcontents : (fileContents secondByte.image (secondByte.fds 0)).drop 1 = [121, 122] := by
    decide
  have hsum : (([1#64, 5#64] : List Word).map BitVec.toNat).sum = 6 := by decide
  have hsmall : ∀ len ∈ ([1#64, 5#64] : List Word), len.toNat < 2 ^ 63 := by
    intro len hlen
    rcases List.mem_pair.1 hlen with rfl | rfl
    · show 1 < 2 ^ 63
      omega
    · show 5 < 2 ^ 63
      omega
  have h := (chunks_reassemble [1#64, 5#64] hsmall).2 secondByte 0 1 (by decide) rfl (by decide)
    (by decide) (by decide)
  rw [hcontents, hsum] at h
  exact h

/-! ### The archive -/

/-- The size in the header at `p`. -/
def headerSize (image : Nat → Byte) (p : Nat) : Word := octal image (p + 124) 11 0

/-- A regular file with the path. -/
def namedFile (image : Nat → Byte) (path : List Byte) (p : Nat) : Bool :=
  (image (p + 156) = 48 ∨ image (p + 156) = 0) ∧ pathMatch image p path

/-- Where the next header is. -/
def nextHeader (image : Nat → Byte) (p : Nat) : Nat :=
  p + (512 + ((headerSize image p + 511) &&& ~~~511)).toNat

/-- A header starts at `p`. -/
def HeaderAt (image : Nat → Byte) (length p : Nat) : Prop := p + 512 ≤ length ∧ image p ≠ 0

instance (image : Nat → Byte) (length p : Nat) : Decidable (HeaderAt image length p) :=
  inferInstanceAs (Decidable (_ ∧ _))

/-- The headers of the archive from `p` on. -/
def archiveHeaders (image : Nat → Byte) (length : Nat) : (budget p : Nat) → List Nat
  | 0, _ => []
  | budget + 1, p =>
      if HeaderAt image length p then p :: archiveHeaders image length budget (nextHeader image p)
      else []

/-- One round of the loop of `ramdisk_open` that goes on to the next. -/
def LoopStep (image : Nat → Byte) (length : Nat) (path : List Byte) (p q : Nat) : Prop :=
  HeaderAt image length p ∧ namedFile image path p = false ∧ q = nextHeader image p

/-- The first member of the archive with the path ends inside the image. -/
def MemberFits (r : Ramdisk) (path : List Byte) : Prop :=
  ∀ p, (archiveHeaders r.image r.length (r.length / 512 + 1) 0).find? (namedFile r.image path) =
    some p → p + 512 + (headerSize r.image p).toNat ≤ r.length

/-- Eleven digits. -/
theorem octal_lt (image : Nat → Byte) : ∀ (n s : Nat) (v : Word),
    (v.toNat + 1) * 8 ^ n ≤ 2 ^ 64 → (octal image s n v).toNat < (v.toNat + 1) * 8 ^ n
  | 0, s, v, _ => by simp [octal]
  | n + 1, s, v, hfit => by
      rw [octal]
      have hpow : 0 < 8 ^ n := Nat.pow_pos (by decide)
      split
      · rename_i hdigit
        obtain ⟨hlo, hhi⟩ := hdigit
        replace hlo : 48 ≤ (image s).toNat := BitVec.le_def.1 hlo
        replace hhi : (image s).toNat ≤ 55 := BitVec.le_def.1 hhi
        have hd : ((image s - 48).setWidth 64).toNat ≤ 7 := by
          rw [BitVec.toNat_setWidth, BitVec.toNat_sub, show (48 : Byte).toNat = 48 from rfl]
          omega
        have hsplit : (v.toNat + 1) * 8 ^ (n + 1) = (v.toNat * 8 + 8) * 8 ^ n := by
          rw [Nat.pow_succ]
          ring
        have hv : v.toNat * 8 + 8 ≤ 2 ^ 64 := by
          rw [hsplit] at hfit
          exact Nat.le_trans (Nat.le_mul_of_pos_right _ hpow) hfit
        have hnext : (v * 8 + (image s - 48).setWidth 64).toNat ≤ v.toNat * 8 + 7 := by
          rw [BitVec.toNat_add, BitVec.toNat_mul, show (8 : Word).toNat = 8 from rfl]
          omega
        have hle := Nat.mul_le_mul_right (8 ^ n) (Nat.succ_le_succ hnext)
        have hrec := octal_lt image n (s + 1) _ (Nat.le_trans hle (hsplit ▸ hfit))
        rw [hsplit]
        exact Nat.lt_of_lt_of_le hrec hle
      · have := Nat.le_mul_of_pos_right (v.toNat + 1) (Nat.pow_pos (n := n + 1) (by decide : 0 < 8))
        omega

theorem headerSize_lt (image : Nat → Byte) (p : Nat) : (headerSize image p).toNat < 8 ^ 11 :=
  octal_lt image 11 _ 0 (by decide)

section Walk

variable {image : Nat → Byte} {length : Nat} {path : List Byte}

/-- Every round moves on by a header at least. -/
theorem nextHeader_ge (image : Nat → Byte) (p : Nat) : p + 512 ≤ nextHeader image p := by
  have hsize := headerSize_lt image p
  have hand : ((headerSize image p + 511) &&& ~~~511).toNat ≤ (headerSize image p + 511).toNat := by
    rw [BitVec.toNat_and]
    exact Nat.and_le_left
  have hsum : (headerSize image p + 511).toNat = (headerSize image p).toNat + 511 := by
    rw [BitVec.toNat_add, show (511 : Word).toNat = 511 from rfl]
    omega
  unfold nextHeader
  rw [BitVec.toNat_add, show (512 : Word).toNat = 512 from rfl]
  omega

/-- The walk looks at the headers of the archive in turn. -/
theorem findFile_eq : ∀ (budget p : Nat), findFile image length path budget p =
    ((archiveHeaders image length budget p).find? (namedFile image path)).map fun q =>
      (q, headerSize image q)
  | 0, p => rfl
  | budget + 1, p => by
      rw [findFile, archiveHeaders]
      by_cases hheader : HeaderAt image length p
      · have hguard : p + 512 ≤ length ∧ image p ≠ 0 := hheader
        rw [if_pos hguard, if_pos hheader, List.find?_cons]
        dsimp only
        by_cases hnamed : (image (p + 156) = 48 ∨ image (p + 156) = 0) ∧ pathMatch image p path
        · have htrue : namedFile image path p = true := decide_eq_true hnamed
          rw [if_pos hnamed, htrue]
          rfl
        · have hfalse : namedFile image path p = false := decide_eq_false hnamed
          rw [if_neg hnamed, hfalse]
          exact findFile_eq budget (nextHeader image p)
      · have hguard : ¬ (p + 512 ≤ length ∧ image p ≠ 0) := hheader
        rw [if_neg hguard, if_neg hheader]
        rfl

/-- Enough budget is enough. -/
theorem archiveHeaders_budget : ∀ (budget p n : Nat), length < p + 512 * budget →
    archiveHeaders image length (budget + n) p = archiveHeaders image length budget p
  | 0, p, n, h => by
      cases n with
      | zero => rfl
      | succ n =>
          have hend : ¬ HeaderAt image length p := fun hheader => by
            have := hheader.1
            omega
          rw [Nat.zero_add]
          exact if_neg hend
  | budget + 1, p, n, h => by
      rw [Nat.add_right_comm, archiveHeaders, archiveHeaders]
      have hnext := nextHeader_ge image p
      rw [archiveHeaders_budget budget (nextHeader image p) n (by omega)]

/-- The positions of a walk that goes on. -/
theorem walk_ge {walk : Nat → Nat} : ∀ {n : Nat},
    (∀ j < n, LoopStep image length path (walk j) (walk (j + 1))) → 512 * n ≤ walk n
  | 0, _ => Nat.zero_le _
  | n + 1, h => by
      have hrest := walk_ge fun j hj => h j (Nat.lt_succ_of_lt hj)
      obtain ⟨-, -, hnext⟩ := h n (Nat.lt_succ_self n)
      have hge := nextHeader_ge image (walk n)
      omega

/-- No walk goes on for more rounds than there are headers of room in the image. -/
theorem walk_ends (walk : Nat → Nat) :
    ∃ n ≤ length / 512, ¬ LoopStep image length path (walk n) (walk (n + 1)) := by
  by_contra hall
  have hsteps : ∀ j < length / 512 + 1, LoopStep image length path (walk j) (walk (j + 1)) := by
    intro j hj
    by_contra hno
    exact hall ⟨j, by omega, hno⟩
  have hge := walk_ge fun j hj => hsteps j (Nat.lt_succ_of_lt hj)
  have hlast := (hsteps (length / 512) (Nat.lt_succ_self _)).1.1
  omega

end Walk

/-- The sizes of files are below 8 GiB. -/
theorem findFile_size {image : Nat → Byte} {length : Nat} {path : List Byte} {p : Nat} {size : Word} :
    ∀ (budget q : Nat), findFile image length path budget q = some (p, size) →
      size.toNat < 8 ^ 11
  | 0, q, h => by cases h
  | budget + 1, q, h => by
      rw [findFile] at h
      split at h
      · dsimp only at h
        split at h
        · obtain ⟨-, rfl⟩ := Prod.mk.inj (Option.some.inj h)
          exact octal_lt image 11 _ 0 (by decide)
        · exact findFile_size budget _ h
      · cases h

/-! ### Descriptors inside the image -/

section Inside

variable {r r' : Ramdisk} {path : List Byte}

/-- What a successful `ramdisk_open` does. -/
theorem ramdiskOpen_ok {fd : Int} (h : ramdiskOpen r path = (fd, r')) (hfd : 0 ≤ fd) :
    ∃ i p, i < maxFds ∧ fd = (i : Int) + 3 ∧
      (archiveHeaders r.image r.length (r.length / 512 + 1) 0).find? (namedFile r.image path) =
        some p ∧
      r' = r.setEntry i ⟨p + 512, headerSize r.image p, 0, true⟩ := by
  unfold ramdiskOpen at h
  rw [findFile_eq] at h
  cases hfind : (archiveHeaders r.image r.length (r.length / 512 + 1) 0).find?
      (namedFile r.image path) with
  | none =>
      rw [hfind] at h
      cases h
      omega
  | some p =>
      rw [hfind] at h
      dsimp only [Option.map_some] at h
      cases hfree : freeSlot r.fds with
      | none =>
          rw [hfree] at h
          cases h
          omega
      | some i =>
          rw [hfree] at h
          cases h
          exact ⟨i, p, (freeSlot_some hfree).1, rfl, rfl, rfl⟩

/-- The open files lie inside the image. -/
def FilesInside (r : Ramdisk) : Prop :=
  ∀ i, (r.fds i).inUse = true → (r.fds i).data + (r.fds i).size.toNat ≤ r.length

/-- A call changes at most one entry: it moves the position, closes the file, or opens one. -/
theorem diskCall_entry {call : DiskCall} (h : diskCall r call = some r') :
    r' = r ∨ ∃ i f, r' = r.setEntry i f ∧
      ((∃ pos, (r.fds i).inUse = true ∧ f = { r.fds i with pos := pos }) ∨ f.inUse = false ∨
        ∃ path p, call = .openFile path ∧
          (archiveHeaders r.image r.length (r.length / 512 + 1) 0).find? (namedFile r.image path) =
            some p ∧ f = ⟨p + 512, headerSize r.image p, 0, true⟩) := by
  cases call with
  | openFile path =>
      cases h
      by_cases hfd : 0 ≤ (ramdiskOpen r path).1
      · have hopen : ramdiskOpen r path = ((ramdiskOpen r path).1, (ramdiskOpen r path).2) := rfl
        obtain ⟨i, p, -, -, hfind, hr⟩ := ramdiskOpen_ok hopen hfd
        exact .inr ⟨i, _, hr, .inr (.inr ⟨path, p, rfl, hfind, rfl⟩)⟩
      · left
        unfold ramdiskOpen at hfd ⊢
        split
        · rfl
        · rename_i p size hfind
          rw [hfind] at hfd
          split
          · rfl
          · rename_i i hfree
            rw [hfree] at hfd
            dsimp only at hfd
            omega
  | read fd len =>
      obtain ⟨res, hread, rfl⟩ := Option.map_eq_some_iff.1 h
      unfold ramdiskRead at hread
      split at hread
      · cases hread
        exact .inl rfl
      · rename_i i hslot
        obtain ⟨-, huse, -⟩ := openSlot_some hslot
        dsimp only at hread
        split at hread
        · cases hread
          exact .inl rfl
        · split at hread
          · cases hread
          · cases hread
            exact .inr ⟨i, _, rfl, .inl ⟨_, huse, rfl⟩⟩
  | seek fd off whence =>
      cases h
      unfold ramdiskSeek
      split
      · exact .inl rfl
      · rename_i i hslot
        obtain ⟨-, huse, -⟩ := openSlot_some hslot
        dsimp only
        split
        · exact .inl rfl
        · exact .inr ⟨i, _, rfl, .inl ⟨_, huse, rfl⟩⟩
  | close fd =>
      cases h
      unfold ramdiskClose
      split
      · exact .inl rfl
      · rename_i i _
        exact .inr ⟨i, _, rfl, .inr (.inl rfl)⟩

/-- What holds of the entries of open files, wherever their positions are. -/
theorem diskCall_open {call : DiskCall} {P : FdEntry → Prop}
    (hmoved : ∀ f pos, P f → P { f with pos := pos })
    (hopened : ∀ path p, call = .openFile path →
      (archiveHeaders r.image r.length (r.length / 512 + 1) 0).find? (namedFile r.image path) =
        some p → P ⟨p + 512, headerSize r.image p, 0, true⟩)
    (h : ∀ i, (r.fds i).inUse = true → P (r.fds i)) (hcall : diskCall r call = some r') :
    r'.length = r.length ∧ ∀ i, (r'.fds i).inUse = true → P (r'.fds i) := by
  rcases diskCall_entry hcall with rfl | ⟨i, f, rfl, hf⟩
  · exact ⟨rfl, h⟩
  · refine ⟨rfl, fun j huse => ?_⟩
    by_cases hj : j = i
    · subst hj
      rw [Ramdisk.setEntry_fds_self] at huse ⊢
      rcases hf with ⟨pos, hopen, rfl⟩ | hclosed | ⟨path, p, hpath, hfind, rfl⟩
      · exact hmoved _ pos (h j hopen)
      · rw [hclosed] at huse
        cases huse
      · exact hopened path p hpath hfind
    · rw [Ramdisk.setEntry_fds_of_ne _ hj] at huse ⊢
      exact h j huse

/-- The ramdisks that calls lead to whose reads do not wrap around and whose opens find members that
    end inside the image. -/
inductive ArchiveReached (start : Ramdisk) : Ramdisk → Prop
  | start : ArchiveReached start start
  | call {r r' : Ramdisk} {call : DiskCall} :
      ArchiveReached start r → call.Fits r → (∀ path, call = .openFile path → MemberFits r path) →
      diskCall r call = some r' → ArchiveReached start r'

theorem ArchiveReached.reached {start : Ramdisk} (h : ArchiveReached start r) :
    DiskReached start r := by
  induction h with
  | start => exact .start
  | call _ hfits _ hcall ih => exact ih.call hfits hcall

theorem FilesInside.run {start : Ramdisk} (h : FilesInside start)
    (hreached : ArchiveReached start r) : FilesInside r := by
  induction hreached with
  | start => exact h
  | @call r r' call _ _ hmember hcall ih =>
      obtain ⟨hlength, hinside⟩ := diskCall_open (P := fun f => f.data + f.size.toNat ≤ r.length)
        (fun _ _ hf => hf) (fun path p hpath hfind => hmember path hpath p hfind) ih hcall
      intro i huse
      rw [hlength]
      exact hinside i huse

/-- The sizes of open files come from eleven octal digits. -/
def SizesSmall (r : Ramdisk) : Prop := ∀ i, (r.fds i).inUse = true → (r.fds i).size.toNat < 8 ^ 11

theorem SizesSmall.run {start : Ramdisk} (h : SizesSmall start) (hreached : DiskReached start r) :
    SizesSmall r := by
  induction hreached with
  | start => exact h
  | call _ _ hcall ih =>
      exact (diskCall_open (P := fun f => f.size.toNat < 8 ^ 11) (fun _ _ hf => hf)
        (fun _ p _ _ => headerSize_lt _ p) ih hcall).2

end Inside

/-- On every image and for every path the loop of `ramdisk_open` ends, after at most one round for
    every 512 bytes, and a larger budget changes nothing. A descriptor it returns has its data inside
    the image exactly if the first member with the path ends there. In every run whose opens find such
    members and whose reads do not wrap around, every read stays inside the image. -/
theorem archive_bounds (r : Ramdisk) :
    (∀ path : List Byte,
      (∀ walk : Nat → Nat, ∃ n ≤ r.length / 512,
        ¬ LoopStep r.image r.length path (walk n) (walk (n + 1))) ∧
      (∀ n, findFile r.image r.length path (r.length / 512 + 1 + n) 0 =
        findFile r.image r.length path (r.length / 512 + 1) 0) ∧
      ∀ (fd : Int) (r' : Ramdisk), ramdiskOpen r path = (fd, r') → 0 ≤ fd →
        ∃ i : Nat, fd = (i : Int) + 3 ∧ i < maxFds ∧
          ((r'.fds i).data + (r'.fds i).size.toNat ≤ r'.length ↔ MemberFits r path)) ∧
    (∀ start : Ramdisk, FilesInside start → PosInside start → ArchiveReached start r →
      ∀ i, i < maxFds → (r.fds i).inUse = true → ∀ len, NoWrap (r.fds i) len →
        ReadsInside r i len (fun _ => True) ∧
        (r.fds i).data + (r.fds i).pos.toNat + available (r.fds i) len ≤ r.length) := by
  constructor
  · intro path
    refine ⟨fun walk => walk_ends walk, fun n => ?_, fun fd r' hopen hfd => ?_⟩
    · rw [findFile_eq, findFile_eq, archiveHeaders_budget _ _ _ (by omega)]
    · obtain ⟨i, p, hi, rfl, hfind, rfl⟩ := ramdiskOpen_ok hopen hfd
      refine ⟨i, rfl, hi, ?_⟩
      rw [Ramdisk.setEntry_fds_self]
      constructor
      · intro hle q hq
        rw [hfind] at hq
        cases hq
        exact hle
      · exact fun hfits => hfits p hfind
  · intro start hstart hpos hreached i hi huse len hwrap
    have hinside := hpos.run hreached.reached i huse
    obtain ⟨hle, v, -, hread⟩ := ramdiskRead_inside ⟨hi, huse, hinside⟩ hwrap
    have hfile := hstart.run hreached i huse
    exact ⟨⟨hle, v, trivial, hread⟩, by omega⟩

/-- The file of `oneFile` lies inside its image, and so does a read of all of it. -/
theorem archive_bounds_one_file : ∃ r : Ramdisk, ArchiveReached oneFile r ∧
    (r.fds 0).data + (r.fds 0).size.toNat ≤ r.length ∧
    (r.fds 0).data + (r.fds 0).pos.toNat + available (r.fds 0) 3 ≤ r.length := by
  have hfits : MemberFits oneFile [97] := by
    intro p hp
    have hfind : (archiveHeaders oneFile.image oneFile.length (oneFile.length / 512 + 1) 0).find?
        (namedFile oneFile.image [97]) = some 0 := by decide +kernel
    rw [hfind] at hp
    cases hp
    decide +kernel
  have hfd : 0 ≤ (ramdiskOpen oneFile [97]).1 := by decide +kernel
  have hopen : ramdiskOpen oneFile [97] =
      ((ramdiskOpen oneFile [97]).1, (ramdiskOpen oneFile [97]).2) := rfl
  obtain ⟨-, -, hbounds⟩ := (archive_bounds oneFile).1 [97]
  obtain ⟨i, hi, hlt, hinside⟩ := hbounds _ _ hopen hfd
  obtain rfl : i = 0 := by
    have hzero : (ramdiskOpen oneFile [97]).1 = 3 := by decide +kernel
    omega
  have hcall : diskCall oneFile (.openFile [97]) = some (ramdiskOpen oneFile [97]).2 := rfl
  have hreached : ArchiveReached oneFile (ramdiskOpen oneFile [97]).2 :=
    .call .start (show (DiskCall.openFile [97]).Fits oneFile from trivial)
      (fun path hpath => by cases hpath; exact hfits) hcall
  have huse : ((ramdiskOpen oneFile [97]).2.fds 0).inUse = true := by decide +kernel
  have hpos : ((ramdiskOpen oneFile [97]).2.fds 0).pos.toNat + (3#64).toNat < 2 ^ 64 := by
    decide +kernel
  exact ⟨_, hreached, hinside.2 hfits,
    ((archive_bounds _).2 oneFile (fun _ h => by cases h) (fun _ h => by cases h) hreached 0 hlt huse 3
      (.inr hpos)).2⟩

/-- The archive cut off behind the header of its file. -/
def cutArchive : Ramdisk := { oneFile with length := 512 }

/-- The file is opened all the same, and lies behind the end of the image. -/
theorem archive_exceeded : (ramdiskOpen cutArchive [97]).1 = 3 ∧
    ((ramdiskOpen cutArchive [97]).2.fds 0).inUse = true ∧
    ¬ ((ramdiskOpen cutArchive [97]).2.fds 0).data +
      ((ramdiskOpen cutArchive [97]).2.fds 0).size.toNat ≤ (ramdiskOpen cutArchive [97]).2.length := by
  decide +kernel

end CustomKernel.Filesystem
