/-
Module: CustomKernel.Proofs.Archive
Layer: Proofs
Purpose: Looking a path up in the archive. `archive` writes a list of members in USTAR layout, and
  the walk of `ramdisk_open` over these bytes finds the headers again one by one: the size it parses
  at each header leads to the next one, whatever the contents in between look like.
Imports: CustomKernel.Proofs.FileDescriptors, CustomKernel.Library.Bits
Trusted boundary: as in Ramdisk: buffers are apart from the table of open files and from the archive
Main exports: Member, archive, archiveDisk, Member.Named, octal_digits, pathMatch_eq,
  findFile_archive, ramdisk_open_lookup
-/
import CustomKernel.Proofs.FileDescriptors
import CustomKernel.Library.Bits

namespace CustomKernel.Filesystem

/-! ### Writing an archive -/

/-- A member of an archive. -/
structure Member where
  name : List Byte
  type : Byte
  content : List Byte
  /-- The header bytes that are neither the name, nor the size, nor the type. -/
  fill : Nat → Byte
  name_ne_nil : name ≠ []
  name_lt : name.length < 100
  name_nonzero : ∀ b ∈ name, b ≠ 0
  content_lt : content.length < 8 ^ 11

/-- The header: the name and its NUL at offset 0, eleven octal digits of the size at 124, the type
    at 156. -/
def Member.header (m : Member) (i : Nat) : Byte :=
  if i < m.name.length then m.name.getD i 0
  else if i = m.name.length then 0
  else if 124 ≤ i ∧ i < 135 then BitVec.ofNat 8 (48 + m.content.length / 8 ^ (134 - i) % 8)
  else if i = 156 then m.type
  else m.fill i

/-- The content rounded up to whole blocks. -/
def Member.blockBytes (m : Member) : Nat := (m.content.length + 511) / 512 * 512

/-- Header, content, and the rest of the last block. -/
def Member.bytes (m : Member) : List Byte :=
  (List.range 512).map m.header ++
    (m.content ++ List.replicate (m.blockBytes - m.content.length) 0)

/-- The members one after the other, and some zero blocks at the end. -/
def archive (ms : List Member) (blocks : Nat) : List Byte :=
  ms.flatMap Member.bytes ++ List.replicate (512 * blocks) 0

/-- The ramdisk of an archive, with anything behind it in memory, and any table of open files. -/
def archiveDisk (bytes : List Byte) (behind : Nat → Byte) (fds : Nat → FdEntry) : Ramdisk where
  image n := if n < bytes.length then bytes.getD n 0 else behind n
  length := bytes.length
  fds := fds

/-! ### What a lookup is to find -/

/-- A name without a leading `./`. -/
def withoutDot : List Byte → List Byte
  | 46 :: 47 :: rest => rest
  | name => name

/-- A path without a leading `/`. -/
def withoutSlash : List Byte → List Byte
  | 47 :: rest => rest
  | path => path

/-- A regular file with the path. -/
def Member.Named (path : List Byte) (m : Member) : Prop :=
  (m.type = 48 ∨ m.type = 0) ∧ withoutDot m.name = withoutSlash path

instance (path : List Byte) (m : Member) : Decidable (m.Named path) :=
  inferInstanceAs (Decidable (_ ∧ _))

/-- The lowest free slot. -/
structure LowestFree (fds : Nat → FdEntry) (i : Nat) : Prop where
  lt : i < maxFds
  free : (fds i).inUse = false
  below : ∀ j, j < i → (fds j).inUse = true

/-! ### Digits and names -/

/-- One octal digit. -/
theorem digit_cases {d : Nat} (hd : d < 8) :
    (48 : Byte) ≤ BitVec.ofNat 8 (48 + d) ∧ BitVec.ofNat 8 (48 + d) ≤ (55 : Byte) ∧
      (BitVec.ofNat 8 (48 + d) - 48).setWidth 64 = BitVec.ofNat 64 d := by
  interval_cases d <;> decide

/-- The digits of a number are read back. -/
theorem octal_digits {image : Nat → Byte} {size : Nat} : ∀ (n s v : Nat),
    (∀ j, j < n → image (s + j) = BitVec.ofNat 8 (48 + size / 8 ^ (n - 1 - j) % 8)) →
      octal image s n (BitVec.ofNat 64 v) = BitVec.ofNat 64 (v * 8 ^ n + size % 8 ^ n)
  | 0, s, v, _ => by simp [octal, Nat.mod_one]
  | n + 1, s, v, h => by
      have hfirst : image s = BitVec.ofNat 8 (48 + size / 8 ^ n % 8) := by simpa using h 0 (by omega)
      obtain ⟨hlo, hhi, hvalue⟩ := digit_cases (Nat.mod_lt (size / 8 ^ n) (by decide : 8 > 0))
      have hrest : ∀ j, j < n →
          image (s + 1 + j) = BitVec.ofNat 8 (48 + size / 8 ^ (n - 1 - j) % 8) := by
        intro j hj
        have hexp : n + 1 - 1 - (j + 1) = n - 1 - j := by omega
        have haddr : s + 1 + j = s + (j + 1) := by omega
        rw [haddr, h (j + 1) (by omega), hexp]
      have hnext : BitVec.ofNat 64 v * 8 + (image s - 48).setWidth 64 =
          BitVec.ofNat 64 (v * 8 + size / 8 ^ n % 8) := by
        rw [hfirst, hvalue, BitVec.ofNat_add, BitVec.ofNat_mul]
        rfl
      rw [octal, if_pos (by rw [hfirst]; exact ⟨hlo, hhi⟩), hnext, octal_digits n (s + 1) _ hrest]
      congr 1
      have hsplit : size % 8 ^ (n + 1) = size % 8 ^ n + 8 ^ n * (size / 8 ^ n % 8) := by
        rw [Nat.pow_succ, Nat.mod_mul]
      rw [hsplit, Nat.pow_succ]
      ring

/-- A string stands at an address, with its NUL. -/
structure StringAt (image : Nat → Byte) (addr : Nat) (xs : List Byte) : Prop where
  chars : ∀ i (h : i < xs.length), image (addr + i) = xs.get ⟨i, h⟩
  nul : image (addr + xs.length) = 0

theorem StringAt.nil {image : Nat → Byte} {addr : Nat} (h : StringAt image addr []) :
    image addr = 0 :=
  h.nul

theorem StringAt.head {image : Nat → Byte} {addr : Nat} {x : Byte} {xs : List Byte}
    (h : StringAt image addr (x :: xs)) : image addr = x :=
  h.chars 0 (by simp)

theorem StringAt.tail {image : Nat → Byte} {addr : Nat} {x : Byte} {xs : List Byte}
    (h : StringAt image addr (x :: xs)) : StringAt image (addr + 1) xs := by
  constructor
  · intro i hi
    have hchar := h.chars (i + 1) (by simpa using hi)
    rw [Nat.add_assoc, Nat.add_comm 1 i, hchar]
    rfl
  · have hnul := h.nul
    rw [List.length_cons] at hnul
    rw [Nat.add_assoc, Nat.add_comm 1, hnul]

/-- The loop compares the two strings. -/
theorem pathMatchLoop_eq {image : Nat → Byte} : ∀ (want xs : List Byte) (arc : Nat),
    StringAt image arc xs → (∀ b ∈ xs, b ≠ 0) → (∀ b ∈ want, b ≠ 0) →
      (pathMatchLoop image arc want = true ↔ xs = want)
  | [], [], arc, hat, _, _ => by simp [pathMatchLoop, hat.nil]
  | [], x :: xs, arc, hat, hxs, _ => by
      have hx : x ≠ 0#8 := hxs x List.mem_cons_self
      simp [pathMatchLoop, hat.head, hx]
  | w :: want, [], arc, hat, _, hwant => by
      have hw : w ≠ 0#8 := hwant w List.mem_cons_self
      simp [pathMatchLoop, hat.nil, hw]
  | w :: want, x :: xs, arc, hat, hxs, hwant => by
      have hx : x ≠ 0#8 := hxs x List.mem_cons_self
      have hw : w ≠ 0#8 := hwant w List.mem_cons_self
      rw [pathMatchLoop, hat.head]
      by_cases hxw : x = w
      · rw [if_pos ⟨hx, hw, hxw⟩, pathMatchLoop_eq want xs (arc + 1) hat.tail
          (fun b hb => hxs b (List.mem_cons_of_mem _ hb))
          (fun b hb => hwant b (List.mem_cons_of_mem _ hb))]
        simp [hxw]
      · rw [if_neg fun h => hxw h.2.2]
        simp [hx, hxw]

theorem skip_slash (path : List Byte) :
    (if path.head? = some 47 then path.tail else path) = withoutSlash path := by
  unfold withoutSlash
  split
  · rename_i h
    cases path with
    | nil => cases h
    | cons w rest =>
        obtain rfl : w = 47 := Option.some.inj h
        rfl
  · rename_i h
    split
    · exact absurd rfl h
    · rfl

/-- A name that does not start with `./` does not pass the test for it, also when it is too short. -/
theorem no_dot {image : Nat → Byte} {arc : Nat} {name : List Byte} (hat : StringAt image arc name)
    (hnot : ∀ rest, name ≠ 46 :: 47 :: rest) :
    ¬ (image arc = 46 ∧ image (arc + 1) = 47) := by
  rintro ⟨hdot, hslash⟩
  match name, hat, hnot with
  | [], hat, _ =>
      rw [hat.nil] at hdot
      exact absurd hdot (by decide)
  | [x], hat, _ =>
      rw [hat.tail.nil] at hslash
      exact absurd hslash (by decide)
  | x :: y :: rest, hat, hnot =>
      rw [hat.head] at hdot
      rw [hat.tail.head] at hslash
      exact hnot rest (by rw [hdot, hslash])

/-- `path_match` compares them without the leading `./` and `/`. -/
theorem pathMatch_eq {image : Nat → Byte} {arc : Nat} {name path : List Byte}
    (hat : StringAt image arc name) (hname : ∀ b ∈ name, b ≠ 0) (hpath : ∀ b ∈ path, b ≠ 0) :
    pathMatch image arc path = true ↔ withoutDot name = withoutSlash path := by
  have hsuffix : ∀ b ∈ withoutSlash path, b ≠ 0 := by
    intro b hb
    unfold withoutSlash at hb
    split at hb
    · exact hpath b (List.mem_cons_of_mem _ hb)
    · exact hpath b hb
  unfold pathMatch
  rw [skip_slash path]
  -- the name starts with `./`, or the test for it fails at one of its first two bytes
  by_cases hdotted : ∃ rest, name = 46 :: 47 :: rest
  · obtain ⟨rest, rfl⟩ := hdotted
    rw [if_pos ⟨hat.head, hat.tail.head⟩]
    exact pathMatchLoop_eq _ rest _ hat.tail.tail
      (fun b hb => hname b (List.mem_cons_of_mem _ (List.mem_cons_of_mem _ hb))) hsuffix
  · have hnot : ∀ rest, name ≠ 46 :: 47 :: rest := fun rest h => hdotted ⟨rest, h⟩
    have hsame : withoutDot name = name := by
      unfold withoutDot
      split
      · rename_i rest
        exact absurd rfl (hnot rest)
      · rfl
    rw [if_neg (no_dot hat hnot), hsame]
    exact pathMatchLoop_eq _ _ _ hat hname hsuffix

/-! ### One member -/

/-- A row of bytes stands at an address. -/
def BytesAt (image : Nat → Byte) (addr : Nat) (bytes : List Byte) : Prop :=
  ∀ i b, bytes[i]? = some b → image (addr + i) = b

theorem BytesAt.left {image : Nat → Byte} {addr : Nat} {xs ys : List Byte}
    (h : BytesAt image addr (xs ++ ys)) : BytesAt image addr xs := by
  intro i b hb
  have hi := (List.getElem?_eq_some_iff.1 hb).1
  exact h i b (by rw [List.getElem?_append_left hi, hb])

theorem BytesAt.right {image : Nat → Byte} {addr : Nat} {xs ys : List Byte}
    (h : BytesAt image addr (xs ++ ys)) : BytesAt image (addr + xs.length) ys := by
  intro i b hb
  have hat := h (xs.length + i) b (by rw [List.getElem?_append_right (by omega)]; simpa using hb)
  rw [← hat]
  congr 1
  omega

theorem Member.length_bytes (m : Member) : m.bytes.length = 512 + m.blockBytes := by
  have hle : m.content.length ≤ m.blockBytes := by
    unfold blockBytes
    omega
  simp only [bytes, List.length_append, List.length_map, List.length_range, List.length_replicate]
  omega

section Header

variable {image : Nat → Byte} {p : Nat} {m : Member}

theorem header_at (h : BytesAt image p m.bytes) {i : Nat} (hi : i < 512) :
    image (p + i) = m.header i :=
  h.left i _ (by simp [hi])

/-- The name is found at the head of the member. -/
theorem name_at (h : BytesAt image p m.bytes) : StringAt image p m.name := by
  have hlt := m.name_lt
  constructor
  · intro i hi
    rw [header_at h (by omega), Member.header, if_pos hi, List.getD_eq_getElem?_getD,
      List.getElem?_eq_getElem hi]
    rfl
  · rw [header_at h (by omega), Member.header, if_neg (Nat.lt_irrefl _), if_pos rfl]

/-- The size is read back. -/
theorem size_at (h : BytesAt image p m.bytes) :
    octal image (p + 124) 11 0 = BitVec.ofNat 64 m.content.length := by
  have hlt := m.name_lt
  have hdigits : ∀ j, j < 11 →
      image (p + 124 + j) = BitVec.ofNat 8 (48 + m.content.length / 8 ^ (11 - 1 - j) % 8) := by
    intro j hj
    have hexp : 134 - (124 + j) = 11 - 1 - j := by omega
    rw [Nat.add_assoc, header_at h (by omega), Member.header, if_neg (by omega), if_neg (by omega),
      if_pos (by omega), hexp]
  have hoctal := octal_digits 11 (p + 124) 0 hdigits
  rw [Nat.zero_mul, Nat.zero_add, Nat.mod_eq_of_lt m.content_lt] at hoctal
  exact hoctal

theorem type_at (h : BytesAt image p m.bytes) : image (p + 156) = m.type := by
  have hlt := m.name_lt
  rw [header_at h (by omega), Member.header, if_neg (by omega), if_neg (by omega),
    if_neg (by omega), if_pos rfl]

/-- A member does not look like the end of the archive. -/
theorem first_byte_ne_zero (h : BytesAt image p m.bytes) : image p ≠ 0 := by
  have hname := name_at h
  obtain ⟨x, xs, hx⟩ := List.exists_cons_of_ne_nil m.name_ne_nil
  rw [hx] at hname
  rw [hname.head]
  exact m.name_nonzero x (by rw [hx]; exact List.mem_cons_self)

/-- The step over a member. -/
theorem step_over (m : Member) :
    (512 + ((BitVec.ofNat 64 m.content.length + 511) &&& ~~~511) : Word).toNat = m.bytes.length := by
  have hlt := m.content_lt
  have hsum : (BitVec.ofNat 64 m.content.length + 511 : Word).toNat = m.content.length + 511 := by
    bv_omega
  have hround := Bits.toNat_and_not_lowMask (BitVec.ofNat 64 m.content.length + 511) (n := 9)
    (by decide)
  rw [hsum] at hround
  have hblock : ((BitVec.ofNat 64 m.content.length + 511) &&& ~~~511 : Word).toNat =
      m.blockBytes := hround
  have hbound : m.blockBytes ≤ m.content.length + 511 := by
    unfold Member.blockBytes
    omega
  rw [Member.length_bytes, BitVec.toNat_add, hblock]
  show (512 + m.blockBytes) % 2 ^ 64 = _
  omega

end Header

/-! ### The walk -/

/-- The first member with the path, by the address of its header, and its size. -/
def firstNamed (path : List Byte) : List Member → (p : Nat) → Option (Nat × Word)
  | [], _ => none
  | m :: ms, p =>
      if m.Named path then some (p, BitVec.ofNat 64 m.content.length)
      else firstNamed path ms (p + m.bytes.length)

/-- The walk over the archive is a walk over its members. -/
theorem findFile_archive {image : Nat → Byte} {path : List Byte} (hpath : ∀ b ∈ path, b ≠ 0)
    (blocks : Nat) (ms : List Member) (p budget : Nat)
    (hat : BytesAt image p (archive ms blocks)) (hbudget : ms.length < budget) :
    findFile image (p + (archive ms blocks).length) path budget p = firstNamed path ms p := by
  induction ms generalizing p budget with
  | nil =>
      obtain ⟨budget, rfl⟩ : ∃ n, budget = n + 1 := ⟨budget - 1, by simp at hbudget; omega⟩
      have hlen : (archive [] blocks).length = 512 * blocks := by simp [archive]
      have hend : ¬ (p + 512 ≤ p + (archive [] blocks).length ∧ image p ≠ 0) := by
        rintro ⟨hroom, hfirst⟩
        have hpos : 0 < 512 * blocks := by omega
        exact hfirst (hat 0 0 (by simp [archive, hpos]))
      rw [findFile, firstNamed, if_neg hend]
  | cons m ms ih =>
      obtain ⟨budget, rfl⟩ : ∃ n, budget = n + 1 := ⟨budget - 1, by simp at hbudget; omega⟩
      have hsplit : archive (m :: ms) blocks = m.bytes ++ archive ms blocks := by
        simp [archive, List.append_assoc]
      rw [hsplit] at hat ⊢
      have hmember := hat.left
      have hlen : p + (m.bytes ++ archive ms blocks).length =
          p + m.bytes.length + (archive ms blocks).length := by
        rw [List.length_append]
        omega
      have hroom : p + 512 ≤ p + (m.bytes ++ archive ms blocks).length := by
        rw [List.length_append, Member.length_bytes]
        omega
      have hmatch : ((image (p + 156) = 48 ∨ image (p + 156) = 0) ∧ pathMatch image p path = true) ↔
          m.Named path := by
        rw [type_at hmember, pathMatch_eq (name_at hmember) m.name_nonzero hpath, Member.Named]
      rw [findFile, if_pos ⟨hroom, first_byte_ne_zero hmember⟩, firstNamed]
      simp only [size_at hmember, step_over, hmatch]
      by_cases hnamed : m.Named path
      · rw [if_pos hnamed, if_pos hnamed]
      · rw [if_neg hnamed, if_neg hnamed, hlen]
        rw [List.length_cons] at hbudget
        exact ih (p + m.bytes.length) budget hat.right (by omega)

theorem firstNamed_eq_none {path : List Byte} {ms : List Member} (h : ∀ m ∈ ms, ¬ m.Named path)
    (p : Nat) : firstNamed path ms p = none := by
  induction ms generalizing p with
  | nil => rfl
  | cons m ms ih =>
      rw [firstNamed, if_neg (h m List.mem_cons_self)]
      exact ih (fun m' hm' => h m' (List.mem_cons_of_mem _ hm')) _

/-- The first member with the path lies behind the members in front of it. -/
theorem firstNamed_append {path : List Byte} {front : List Member} {m : Member} {rest : List Member}
    (hfront : ∀ b ∈ front, ¬ b.Named path) (hm : m.Named path) (p : Nat) :
    firstNamed path (front ++ m :: rest) p =
      some (p + (front.flatMap Member.bytes).length, BitVec.ofNat 64 m.content.length) := by
  induction front generalizing p with
  | nil => simp [firstNamed, hm]
  | cons b front ih =>
      rw [List.cons_append, firstNamed, if_neg (hfront b List.mem_cons_self),
        ih (fun b' hb' => hfront b' (List.mem_cons_of_mem _ hb')), List.flatMap_cons,
        List.length_append, Nat.add_assoc]

/-! ### `ramdisk_open` -/

theorem archiveDisk_bytes (bytes : List Byte) (behind : Nat → Byte) (fds : Nat → FdEntry) :
    BytesAt (archiveDisk bytes behind fds).image 0 bytes := by
  intro i b hb
  obtain ⟨hi, hget⟩ := List.getElem?_eq_some_iff.1 hb
  show (if 0 + i < bytes.length then bytes.getD (0 + i) 0 else behind (0 + i)) = b
  rw [Nat.zero_add, if_pos hi, List.getD_eq_getElem?_getD, hb]
  rfl

theorem length_le_archive (ms : List Member) (blocks : Nat) :
    512 * ms.length ≤ (archive ms blocks).length := by
  induction ms with
  | nil => simp
  | cons m ms ih =>
      have hsplit : archive (m :: ms) blocks = m.bytes ++ archive ms blocks := by
        simp [archive, List.append_assoc]
      rw [hsplit, List.length_append, Member.length_bytes, List.length_cons]
      omega

/-- The walk of `ramdisk_open` has rounds enough to see all members. -/
theorem findFile_disk (ms : List Member) (blocks : Nat) (behind : Nat → Byte) (fds : Nat → FdEntry)
    {path : List Byte} (hpath : ∀ b ∈ path, b ≠ 0) :
    findFile (archiveDisk (archive ms blocks) behind fds).image
        (archiveDisk (archive ms blocks) behind fds).length path
        ((archiveDisk (archive ms blocks) behind fds).length / 512 + 1) 0 =
      firstNamed path ms 0 := by
  have hlen := length_le_archive ms blocks
  have hwalk := findFile_archive hpath blocks ms 0 ((archive ms blocks).length / 512 + 1)
    (archiveDisk_bytes _ behind fds) (by omega)
  rw [Nat.zero_add] at hwalk
  exact hwalk

theorem LowestFree.freeSlot_eq {fds : Nat → FdEntry} {i : Nat} (h : LowestFree fds i) :
    freeSlot fds = some i := by
  cases hslot : freeSlot fds with
  | none =>
      have hused := freeSlot_none hslot h.lt
      rw [h.free] at hused
      cases hused
  | some j =>
      obtain ⟨hj, hfree⟩ := freeSlot_some hslot
      have hle : ¬ j < i := by
        intro hlt
        rw [h.below j hlt] at hfree
        cases hfree
      have hge : ¬ i < j := by
        intro hlt
        have hnot := List.find?_range_eq_some.1 hslot
        have hused := hnot.2.2 i hlt
        simp [h.free] at hused
      congr 1
      omega

/-- If there is no such file, or no free slot, nothing changes. -/
theorem ramdiskOpen_fails (ms : List Member) (blocks : Nat) (behind : Nat → Byte)
    (fds : Nat → FdEntry) {path : List Byte} (hpath : ∀ b ∈ path, b ≠ 0)
    (h : (∀ m ∈ ms, ¬ m.Named path) ∨ ∀ i, i < maxFds → (fds i).inUse = true) :
    ramdiskOpen (archiveDisk (archive ms blocks) behind fds) path =
      (-1, archiveDisk (archive ms blocks) behind fds) := by
  rw [ramdiskOpen, findFile_disk ms blocks behind fds hpath]
  rcases h with hnone | hfull
  · rw [firstNamed_eq_none hnone]
  · have hslot : freeSlot (archiveDisk (archive ms blocks) behind fds).fds = none := by
      cases hslot : freeSlot (archiveDisk (archive ms blocks) behind fds).fds with
      | none => rfl
      | some i =>
          obtain ⟨hi, hfree⟩ := freeSlot_some hslot
          rw [show (archiveDisk (archive ms blocks) behind fds).fds = fds from rfl, hfull i hi] at hfree
          cases hfree
    cases firstNamed path ms 0 with
    | none => rfl
    | some found =>
        obtain ⟨p, size⟩ := found
        dsimp only
        rw [hslot]

/-- If there is one, the first one is opened in the lowest free slot. -/
theorem ramdiskOpen_first (front : List Member) (m : Member) (rest : List Member) (blocks : Nat)
    (behind : Nat → Byte) (fds : Nat → FdEntry) {path : List Byte} (hpath : ∀ b ∈ path, b ≠ 0)
    (hfront : ∀ b ∈ front, ¬ b.Named path) (hm : m.Named path) {i : Nat} (hi : LowestFree fds i) :
    ramdiskOpen (archiveDisk (archive (front ++ m :: rest) blocks) behind fds) path =
      ((i : Int) + 3,
        { archiveDisk (archive (front ++ m :: rest) blocks) behind fds with
          fds := Function.update fds i
            { data := (front.flatMap Member.bytes).length + 512
              size := BitVec.ofNat 64 m.content.length
              pos := 0
              inUse := true } }) := by
  rw [ramdiskOpen, findFile_disk _ blocks behind fds hpath, firstNamed_append hfront hm]
  dsimp only
  rw [show (archiveDisk (archive (front ++ m :: rest) blocks) behind fds).fds = fds from rfl,
    hi.freeSlot_eq, Nat.zero_add]

/-- The contents of a member stand behind its header. -/
theorem content_at (front : List Member) (m : Member) (rest : List Member) (blocks : Nat)
    (behind : Nat → Byte) (fds : Nat → FdEntry) :
    BytesAt (archiveDisk (archive (front ++ m :: rest) blocks) behind fds).image
      ((front.flatMap Member.bytes).length + 512) m.content := by
  have hat := archiveDisk_bytes (archive (front ++ m :: rest) blocks) behind fds
  have hsplit : archive (front ++ m :: rest) blocks =
      front.flatMap Member.bytes ++ (m.bytes ++ archive rest blocks) := by
    simp [archive, List.append_assoc]
  have hbytes : BytesAt (archiveDisk (archive (front ++ m :: rest) blocks) behind fds).image
      (0 + (front.flatMap Member.bytes).length) m.bytes := by
    rw [hsplit] at hat ⊢
    exact hat.right.left
  have hcontent := hbytes.right.left
  rw [List.length_map, List.length_range, Nat.zero_add] at hcontent
  exact hcontent

theorem exists_lowestFree {fds : Nat → FdEntry} (h : ∃ i, i < maxFds ∧ (fds i).inUse = false) :
    ∃ i, LowestFree fds i := by
  classical
  refine ⟨Nat.find h, (Nat.find_spec h).1, (Nat.find_spec h).2, fun j hj => ?_⟩
  have hnot := Nat.find_min h hj
  have hlt := (Nat.find_spec h).1
  have hused : ¬ (fds j).inUse = false := fun hfree => hnot ⟨by omega, hfree⟩
  simpa using hused

/-- Looking a path up in an archive. `ramdisk_open` returns a descriptor exactly if some regular
    member has the path and some slot is free; it is the lowest free slot, with the size and the
    contents of the first such member, and the other slots stay as they are. Otherwise it returns -1
    and changes nothing. -/
theorem ramdisk_open_lookup (ms : List Member) (blocks : Nat) (behind : Nat → Byte)
    (fds : Nat → FdEntry) (path : List Byte) (hpath : ∀ b ∈ path, b ≠ 0) :
    (3 ≤ (ramdiskOpen (archiveDisk (archive ms blocks) behind fds) path).1 ↔
      (∃ m ∈ ms, m.Named path) ∧ ∃ i, i < maxFds ∧ (fds i).inUse = false) ∧
    (∀ front m rest i, ms = front ++ m :: rest → (∀ b ∈ front, ¬ b.Named path) → m.Named path →
      LowestFree fds i →
        ramdiskOpen (archiveDisk (archive ms blocks) behind fds) path =
          ((i : Int) + 3,
            { archiveDisk (archive ms blocks) behind fds with
              fds := Function.update fds i
                { data := (front.flatMap Member.bytes).length + 512
                  size := BitVec.ofNat 64 m.content.length
                  pos := 0
                  inUse := true } }) ∧
        BytesAt (archiveDisk (archive ms blocks) behind fds).image
          ((front.flatMap Member.bytes).length + 512) m.content) ∧
    (¬ 3 ≤ (ramdiskOpen (archiveDisk (archive ms blocks) behind fds) path).1 →
      ramdiskOpen (archiveDisk (archive ms blocks) behind fds) path =
        (-1, archiveDisk (archive ms blocks) behind fds)) := by
  have hopens : (∃ m ∈ ms, m.Named path) → (∃ i, i < maxFds ∧ (fds i).inUse = false) →
      3 ≤ (ramdiskOpen (archiveDisk (archive ms blocks) behind fds) path).1 := by
    rintro ⟨m, hmem, hm⟩ hfree
    obtain ⟨i, hi⟩ := exists_lowestFree hfree
    obtain ⟨first, front, rest, hms, hfirst, hfront⟩ : ∃ first front rest,
        ms = front ++ first :: rest ∧ first.Named path ∧ ∀ b ∈ front, ¬ b.Named path := by
      have hsome : (ms.find? fun m => m.Named path).isSome := by
        rw [List.find?_isSome]
        exact ⟨m, hmem, by simpa using hm⟩
      obtain ⟨first, hfind⟩ := Option.isSome_iff_exists.1 hsome
      obtain ⟨hnamed, front, rest, hms, hfront⟩ := List.find?_eq_some_iff_append.1 hfind
      exact ⟨first, front, rest, hms, by simpa using hnamed, fun b hb => by simpa using hfront b hb⟩
    rw [hms, ramdiskOpen_first front first rest blocks behind fds hpath hfront hfirst hi]
    dsimp only
    omega
  have hfails : ¬ ((∃ m ∈ ms, m.Named path) ∧ ∃ i, i < maxFds ∧ (fds i).inUse = false) →
      ramdiskOpen (archiveDisk (archive ms blocks) behind fds) path =
        (-1, archiveDisk (archive ms blocks) behind fds) := by
    intro h
    refine ramdiskOpen_fails ms blocks behind fds hpath ?_
    by_cases hnamed : ∃ m ∈ ms, m.Named path
    · refine .inr fun i hi => ?_
      have hused : ¬ (fds i).inUse = false := fun hfree => h ⟨hnamed, i, hi, hfree⟩
      simpa using hused
    · exact .inl fun m hm hn => hnamed ⟨m, hm, hn⟩
  refine ⟨⟨fun h => ?_, fun h => hopens h.1 h.2⟩, ?_, fun h => ?_⟩
  · by_contra hnot
    rw [hfails hnot] at h
    exact absurd h (by decide : ¬ (3 : Int) ≤ -1)
  · rintro front m rest i rfl hfront hm hi
    exact ⟨ramdiskOpen_first front m rest blocks behind fds hpath hfront hm hi,
      content_at front m rest blocks behind fds⟩
  · exact hfails fun hboth => h (hopens hboth.1 hboth.2)

/-- The directory entry `./` and two files, the first of which looks like a header. -/
def smallMembers : Member × Member × Member :=
  (⟨[46, 47], 53, [], fun _ => 0, by decide, by decide, by decide, by decide⟩,
    ⟨[46, 47, 120], 48, [97, 0, 48], fun _ => 32, by decide, by decide, by decide, by decide⟩,
    ⟨[46, 47, 97], 48, [1, 2, 3], fun _ => 0, by decide, by decide, by decide, by decide⟩)

/-- The path `/a` leads to the third member. -/
theorem ramdisk_open_lookup_third :
    (ramdiskOpen (archiveDisk
      (archive [smallMembers.1, smallMembers.2.1, smallMembers.2.2] 2) (fun _ => 0) fun _ => {})
      [47, 97]).1 = 3 := by
  have hfree : LowestFree (fun _ => {}) 0 := ⟨by decide, rfl, fun j hj => absurd hj (by omega)⟩
  have h := (ramdisk_open_lookup [smallMembers.1, smallMembers.2.1, smallMembers.2.2] 2
    (fun _ => 0) (fun _ => {}) [47, 97] (by decide)).2.1 [smallMembers.1, smallMembers.2.1]
    smallMembers.2.2 [] 0 rfl (by decide) (by decide) hfree
  rw [h.1]
  rfl

end CustomKernel.Filesystem
