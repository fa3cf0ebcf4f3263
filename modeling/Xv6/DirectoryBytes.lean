import Xv6.DirectoryCalls
import Xv6.FileContents
import Xv6.LinkCounts
import Xv6.Strings

/-!
# Directories as files

`dirlookup`, `dirlink`, `isdirempty` and the clearing of an entry in `sys_unlink`, over
`readi` and `writei`. An entry is 16 bytes of the content of a directory, a `ushort` and a
name field. What the functions do to the bytes is what the list functions of
`DirectoryCalls` do to the entries.
-/

namespace DirectoryBytes
open ByteMemory ByteArrays FileBlocks BlockOwnership BlockCalls FileBytes FileContents Strings
open Outcomes SlotTables
open DirectoryCalls (Dirent Name DIRSIZ MAXDIRENTS noInum lookup)
open LinkCounts (lookup_some)

/-- An entry; its number is a `ushort`. -/
abbrev Entry := Dirent 65534

/-- What `namecmp` sees of a name. -/
def nameAt (p : Nat → Byte) : Name := cut p DIRSIZ

def namecmp (s t : Nat → Byte) : Int := strncmp s t DIRSIZ

/-- `de.inum` -/
def ushort (de : List Byte) : Nat := (de.getD 0 0).toNat + 256 * (de.getD 1 0).toNat

theorem ushort_lt (de : List Byte) : ushort de < 65534 + 2 := by
  have low := (de.getD 0 0).isLt
  have high := (de.getD 1 0).isLt
  unfold ushort
  omega

/-- The entry in 16 bytes. -/
def decode (de : List Byte) : Entry :=
  ⟨⟨ushort de, ushort_lt de⟩, nameAt fun k => de.getD (2 + k) 0⟩

/-- The entries in the content of a directory. -/
def entriesOf (c : List Byte) : List Entry :=
  (List.range (c.length / DIRENT)).map fun k => decode (slice c (DIRENT * k) DIRENT)

def entries (sb : Superblock) (s : FileSystem) (dp : Nat) : List Entry :=
  entriesOf (content sb s dp)

/-- `strncpy(de.name, name, DIRSIZ); de.inum = inum;` These are all the bytes of `de`. -/
def dirent (name : Nat → Byte) (inum : BitVec 32) : Memory :=
  store (strncpy (fun _ => 0) 2 name DIRSIZ) 0 [inum.extractLsb' 0 8, inum.extractLsb' 8 8]

section Functions
variable (sb : Superblock) (dp : Nat)

/-- The search of `dirlink` for an empty entry. -/
def freeLoop : Nat → BitVec 32 → FileSystem → Except Fault (BitVec 32 × FileSystem)
  | 0, off, s => .ok (off, s)
  | rounds + 1, off, s =>
    if off < (s.ip dp).size then do
      let (r, de, s) ← readi sb dp (fun _ => false) off (BitVec.ofNat 32 DIRENT) s
      if r ≠ DIRENT then .error .dirRead
      else if ushort de = 0 then pure (off, s)
      else freeLoop rounds (off + BitVec.ofNat 32 DIRENT) s
    else .ok (off, s)

/-- `iput` of an inode that `dirlookup` found takes back the reference of `dirlookup`. -/
def dirlink (name : Nat → Byte) (inum : BitVec 32) (s : FileSystem) :
    Except Fault (Int × FileSystem) := do
  match ← dirlookup sb dp ((List.range DIRSIZ).map name) s with
  | (some _, s) => pure (-1, s)
  | (none, s) => do
    let (off, s) ← freeLoop sb dp ((s.ip dp).size.toNat / DIRENT + 1) 0 s
    let (r, s) ← writei sb dp (dirent name inum) (fun _ => none) off (BitVec.ofNat 32 DIRENT) s
    pure (if r ≠ DIRENT then -1 else 0, s)

/-- The loop of `isdirempty`. -/
def emptyLoop : Nat → BitVec 32 → FileSystem → Except Fault (Bool × FileSystem)
  | 0, _, s => .ok (true, s)
  | rounds + 1, off, s =>
    if off < (s.ip dp).size then do
      let (r, de, s) ← readi sb dp (fun _ => false) off (BitVec.ofNat 32 DIRENT) s
      if r ≠ DIRENT then .error .dirRead
      else if ushort de ≠ 0 then pure (false, s)
      else emptyLoop rounds (off + BitVec.ofNat 32 DIRENT) s
    else .ok (true, s)

def isdirempty (s : FileSystem) : Except Fault (Bool × FileSystem) :=
  emptyLoop sb dp ((s.ip dp).size.toNat / DIRENT + 1) (BitVec.ofNat 32 (2 * DIRENT)) s

/-- The removal of an entry in `sys_unlink`. `busy`: the name is that of a directory which
is not empty. No result stands for the panic "unlink: writei". -/
def unlinkEntry (busy : Bool) (name : Nat → Byte) (s : FileSystem) :
    Except Fault (Option Int × FileSystem) :=
  if namecmp name (literal DirectoryCalls.dot) = 0 ∨
      namecmp name (literal DirectoryCalls.dotdot) = 0 then .ok (some (-1), s)
  else do
    match ← dirlookup sb dp ((List.range DIRSIZ).map name) s with
    | (none, s) => pure (some (-1), s)
    | (some (_, off), s) =>
      if busy then pure (some (-1), s)
      else do
        let (r, s) ← writei sb dp (fun _ => 0) (fun _ => none) off (BitVec.ofNat 32 DIRENT) s
        pure (if r ≠ DIRENT then none else some 0, s)

end Functions

theorem entriesOf_length (c : List Byte) : (entriesOf c).length = c.length / DIRENT := by
  simp [entriesOf]

theorem entriesOf_getElem? (c : List Byte) (k : Nat) : (entriesOf c)[k]? =
    if k < c.length / DIRENT then some (decode (slice c (DIRENT * k) DIRENT)) else none :=
  getElem?_table _ _ k

/-- A record written over an entry or after the last one. -/
theorem entriesOf_splice {c new : List Byte} {k : Nat} (whole : DIRENT ∣ c.length)
    (record : new.length = DIRENT) (within : k ≤ (entriesOf c).length) :
    entriesOf (splice c (DIRENT * k) new) = put k (decode new) (entriesOf c) := by
  obtain ⟨m, length⟩ := whole
  have count : c.length / DIRENT = m := by
    rw [length]
    exact Nat.mul_div_cancel_left m (by decide)
  rw [entriesOf_length, count] at within
  have inside : DIRENT * k ≤ c.length := by
    unfold DIRENT at *
    omega
  have longer : (splice c (DIRENT * k) new).length / DIRENT = max m (k + 1) := by
    simp only [splice, List.length_append, List.length_take, List.length_drop, record, length]
    unfold DIRENT at *
    omega
  have other {j : Nat} (differ : j ≠ k) :
      slice (splice c (DIRENT * k) new) (DIRENT * j) DIRENT = slice c (DIRENT * j) DIRENT := by
    refine List.ext_getElem? fun i => ?_
    rw [slice, slice, List.getElem?_take, List.getElem?_take]
    split
    next low =>
      rw [List.getElem?_drop, List.getElem?_drop, getElem?_splice inside, if_neg]
      rw [record]
      unfold DIRENT at *
      omega
    next => rfl
  have same : slice (splice c (DIRENT * k) new) (DIRENT * k) DIRENT = new := by
    refine List.ext_getElem? fun i => ?_
    rw [slice, List.getElem?_take]
    split
    next low =>
      rw [List.getElem?_drop, getElem?_splice inside, if_pos (by omega)]
      congr 1
      omega
    next past => exact (List.getElem?_eq_none (by omega)).symm
  refine List.ext_getElem? fun j => ?_
  rw [entriesOf_getElem?, longer]
  unfold put
  rw [entriesOf_length, count]
  by_cases old : k < m
  · rw [if_pos old, List.getElem?_set, entriesOf_length, entriesOf_getElem?, count]
    by_cases here : k = j
    · subst here
      rw [if_pos rfl, if_pos (by omega), if_pos old, same]
    · rw [if_neg here, other (Ne.symm here), max_eq_left (by omega)]
  · have last : k = m := by omega
    rw [if_neg old, List.getElem?_append, entriesOf_length, entriesOf_getElem?, count]
    by_cases here : j < m
    · rw [if_pos here, if_pos (by omega), if_pos here, other (by omega)]
    · rw [if_neg here]
      by_cases final : j = k
      · rw [if_pos (by omega), final, same, last, Nat.sub_self]
        rfl
      · rw [if_neg (by omega), List.getElem?_eq_none (by simp; omega)]

theorem dirent_bytes (name : Nat → Byte) (inum : BitVec 32) :
    decode ((List.range DIRENT).map (dirent name inum)) =
      ⟨⟨inum.toNat % 65536, Nat.mod_lt _ (by decide)⟩, nameAt name⟩ := by
  have byte (k : Nat) (low : k < DIRENT) :
      ((List.range DIRENT).map (dirent name inum)).getD k 0 = dirent name inum k := by
    rw [List.getD_eq_getElem _ _ (by simpa using low)]
    simp
  have number : ushort ((List.range DIRENT).map (dirent name inum)) = inum.toNat % 65536 := by
    unfold ushort
    rw [byte 0 (by decide), byte 1 (by decide)]
    simp only [dirent, store]
    simp only [Nat.zero_le, if_true, Nat.sub_zero, List.getD_cons_zero, List.getD_cons_succ]
    simp only [BitVec.extractLsb'_toNat]
    omega
  have field : nameAt (fun k => ((List.range DIRENT).map (dirent name inum)).getD (2 + k) 0) =
      nameAt name := by
    unfold nameAt
    rw [← cut_padded name DIRSIZ 0]
    refine cut_congr fun k low => ?_
    have inside : k < (padded name DIRSIZ).length := by rwa [padded_length]
    rw [byte (2 + k) (by unfold DIRSIZ at low; unfold DIRENT; omega), dirent, strncpy_eq,
      store_outside (.inr (by simp)), store_inside inside, List.getD_eq_getElem _ _ inside]
  simp only [decode, number, field]

theorem decode_zeros : decode ((List.range DIRENT).map fun _ => 0) = ⟨noInum, []⟩ := by
  decide

/-- A directory with whole entries. -/
structure IsDir (sb : Superblock) (s : FileSystem) (dp : Nat) : Prop where
  consistent : Consistent sb s
  alloc : Allocated sb s dp
  type : (s.ip dp).type = T_DIR
  whole : DIRENT ∣ (s.ip dp).size.toNat

variable {sb : Superblock} {s t : FileSystem} {dp k : Nat}

theorem content_length (sb : Superblock) (s : FileSystem) (i : Nat) :
    (content sb s i).length = (s.ip i).size.toNat := by simp [content]

theorem IsDir.size (d : IsDir sb s dp) :
    (s.ip dp).size.toNat = DIRENT * (entries sb s dp).length := by
  rw [entries, entriesOf_length, content_length, Nat.mul_div_cancel' d.whole]

/-- No more entries than fit into the largest file. -/
theorem IsDir.small (d : IsDir sb s dp) : (entries sb s dp).length ≤ MAXDIRENTS := by
  by_contra large
  have size := d.size
  have beyond : MAXFILE * BSIZE < (s.ip dp).size.toNat := by
    unfold MAXFILE BSIZE MAXDIRENTS DIRENT at *
    omega
  obtain ⟨slot, place, -⟩ := d.consistent.covered dp d.alloc MAXFILE beyond
  cases place

theorem offset_toNat (low : k ≤ MAXDIRENTS) :
    (BitVec.ofNat 32 (DIRENT * k)).toNat = DIRENT * k := by
  rw [BitVec.toNat_ofNat]
  refine Nat.mod_eq_of_lt ?_
  unfold DIRENT
  unfold MAXDIRENTS at low
  omega

theorem offset_succ (k : Nat) :
    BitVec.ofNat 32 (DIRENT * k) + BitVec.ofNat 32 DIRENT = BitVec.ofNat 32 (DIRENT * (k + 1)) := by
  rw [Nat.mul_succ, BitVec.ofNat_add]

/-- The test of the loops over the entries. -/
theorem IsDir.below (d : IsDir sb s dp) (within : k ≤ (entries sb s dp).length) :
    BitVec.ofNat 32 (DIRENT * k) < (s.ip dp).size ↔ k < (entries sb s dp).length := by
  rw [BitVec.lt_def, offset_toNat (within.trans d.small), d.size]
  exact Nat.mul_lt_mul_left (by decide)

/-- The bytes of an entry. -/
def bytesAt (sb : Superblock) (s : FileSystem) (dp k : Nat) : List Byte :=
  slice (content sb s dp) (DIRENT * k) DIRENT

theorem IsDir.bytes_length (d : IsDir sb s dp) (low : k < (entries sb s dp).length) :
    (bytesAt sb s dp k).length = DIRENT := by
  have size := d.size
  simp only [bytesAt, slice, List.length_take, List.length_drop, content_length, size]
  unfold DIRENT
  omega

theorem IsDir.read (d : IsDir sb s dp) (low : k < (entries sb s dp).length) :
    readi sb dp (fun _ => false) (BitVec.ofNat 32 (DIRENT * k)) (BitVec.ofNat 32 DIRENT) s =
      .ok (DIRENT, bytesAt sb s dp k, s) := by
  have small := d.small
  have offset : (BitVec.ofNat 32 (DIRENT * k)).toNat = DIRENT * k := offset_toNat (by omega)
  have next : (BitVec.ofNat 32 (DIRENT * (k + 1))).toNat = DIRENT * (k + 1) :=
    offset_toNat (by omega)
  have found : readOf (content sb s dp) (BitVec.ofNat 32 (DIRENT * k)) (BitVec.ofNat 32 DIRENT) =
      bytesAt sb s dp k := by
    unfold readOf
    rw [if_neg, offset]
    · rfl
    · rw [offset_succ, BitVec.lt_def, content_length, d.size, offset, next]
      unfold DIRENT
      omega
  rw [readi_content d.alloc (d.consistent.covered dp d.alloc), found, d.bytes_length low]

theorem drop_entries (low : k < (entries sb s dp).length) :
    (entries sb s dp).drop k = decode (bytesAt sb s dp k) :: (entries sb s dp).drop (k + 1) := by
  rw [List.drop_eq_getElem_cons low]
  congr 1
  refine Option.some.inj ?_
  rw [← List.getElem?_eq_getElem low, entries, entriesOf_getElem?, if_pos]
  · rfl
  · rwa [← entriesOf_length]

theorem free_iff (de : List Byte) : (decode de).inum = noInum ↔ ushort de = 0 := by
  rw [Fin.ext_iff]
  exact Iff.rfl

/-- The comparison of a name with the bytes of a name field. -/
theorem sameName_cut (p : Nat → Byte) (l : List Byte) :
    sameName ((List.range l.length).map p) l = true ↔
      cut (fun k => l.getD k 0) l.length = cut p l.length := by
  induction l generalizing p with
  | nil => exact iff_of_true rfl rfl
  | cons d l ih =>
    have rest := ih fun k => p (k + 1)
    rw [List.length_cons, List.range_succ_eq_map, List.map_cons, List.map_map]
    simp only [sameName, Bool.and_eq_true, decide_eq_true_eq, Bool.or_eq_true]
    by_cases ends : d = 0
    · subst ends
      rw [cut_ends rfl]
      by_cases zero : p 0 = 0
      · rw [cut_ends zero]
        exact iff_of_true ⟨zero, .inl zero⟩ rfl
      · rw [cut_cons zero]
        exact iff_of_false (fun same => zero same.1) (List.cons_ne_nil _ _).symm
    · rw [cut_cons (p := fun k => (d :: l).getD k 0) ends]
      by_cases zero : p 0 = 0
      · rw [cut_ends zero]
        exact iff_of_false (fun same => ends (same.1 ▸ zero)) (List.cons_ne_nil _ _)
      · rw [cut_cons zero, List.cons.injEq, eq_comm]
        refine and_congr Iff.rfl ?_
        rw [or_iff_right zero]
        exact rest

theorem IsDir.same_name (d : IsDir sb s dp) (low : k < (entries sb s dp).length)
    (name : Nat → Byte) :
    sameName ((List.range DIRSIZ).map name) ((bytesAt sb s dp k).drop 2) = true ↔
      (decode (bytesAt sb s dp k)).name = nameAt name := by
  have length : ((bytesAt sb s dp k).drop 2).length = DIRSIZ := by
    rw [List.length_drop, d.bytes_length low]
    rfl
  have compare := sameName_cut name ((bytesAt sb s dp k).drop 2)
  rw [length] at compare
  rw [compare]
  simp only [decode, nameAt, List.getD_eq_getElem?_getD, List.getElem?_drop]

theorem IsDir.lookupLoop_eq (d : IsDir sb s dp) (name : Nat → Byte) (rounds : Nat)
    (within : k ≤ (entries sb s dp).length) (enough : (entries sb s dp).length - k < rounds) :
    lookupLoop sb dp ((List.range DIRSIZ).map name) rounds (BitVec.ofNat 32 (DIRENT * k)) s =
      .ok ((lookup ((entries sb s dp).drop k) (nameAt name)).map
        fun x => (x.2.val, BitVec.ofNat 32 (DIRENT * (k + x.1))), s) := by
  induction rounds generalizing k with
  | zero => omega
  | succ rounds ih =>
    unfold lookupLoop
    by_cases low : k < (entries sb s dp).length
    · rw [if_pos ((d.below within).mpr low), d.read low, drop_entries low]
      have found := (free_iff (bytesAt sb s dp k)).not.symm.and (d.same_name low name)
      have next := ih (k := k + 1) low (by omega)
      simp only [Bind.bind, Except.bind, ne_eq, not_true_eq_false, if_false]
      unfold lookup
      by_cases here : (decode (bytesAt sb s dp k)).inum ≠ 0 ∧
          (decode (bytesAt sb s dp k)).name = nameAt name
      · rw [if_pos here]
        exact if_pos (found.mpr here)
      · rw [if_neg here, offset_succ, next, Option.map_map]
        refine (if_neg (mt found.mp here)).trans ?_
        simp only [Function.comp_def, Nat.add_assoc, Nat.add_comm 1]
    · rw [if_neg (mt (d.below within).mp low), List.drop_eq_nil_of_le (by omega)]
      rfl

theorem IsDir.freeLoop_eq (d : IsDir sb s dp) (rounds : Nat)
    (within : k ≤ (entries sb s dp).length) (enough : (entries sb s dp).length - k < rounds) :
    freeLoop sb dp rounds (BitVec.ofNat 32 (DIRENT * k)) s =
      .ok (BitVec.ofNat 32
        (DIRENT * (k + ((entries sb s dp).drop k).findIdx fun de => de.inum = noInum)), s) := by
  induction rounds generalizing k with
  | zero => omega
  | succ rounds ih =>
    unfold freeLoop
    by_cases low : k < (entries sb s dp).length
    · rw [if_pos ((d.below within).mpr low), d.read low, drop_entries low, List.findIdx_cons]
      have next := ih (k := k + 1) low (by omega)
      simp only [Bind.bind, Except.bind, ne_eq, not_true_eq_false, if_false, ← free_iff]
      by_cases free : (decode (bytesAt sb s dp k)).inum = noInum
      · simp only [free, if_true, decide_true, cond_true, Nat.add_zero]
        rfl
      · rw [if_neg free, offset_succ, next]
        simp only [free, decide_false, cond_false, Nat.add_assoc, Nat.add_comm 1]
    · rw [if_neg (mt (d.below within).mp low), List.drop_eq_nil_of_le (by omega)]
      rfl

theorem IsDir.emptyLoop_eq (d : IsDir sb s dp) (rounds : Nat)
    (enough : (entries sb s dp).length - k < rounds) (bound : k ≤ MAXDIRENTS) :
    emptyLoop sb dp rounds (BitVec.ofNat 32 (DIRENT * k)) s =
      .ok (((entries sb s dp).drop k).all fun de => de.inum = noInum, s) := by
  induction rounds generalizing k with
  | zero => omega
  | succ rounds ih =>
    have test : BitVec.ofNat 32 (DIRENT * k) < (s.ip dp).size ↔ k < (entries sb s dp).length := by
      rw [BitVec.lt_def, offset_toNat bound, d.size]
      exact Nat.mul_lt_mul_left (by decide)
    unfold emptyLoop
    by_cases low : k < (entries sb s dp).length
    · rw [if_pos (test.mpr low), d.read low, drop_entries low, List.all_cons]
      have next := ih (k := k + 1) (by omega) (low.trans_le d.small)
      simp only [Bind.bind, Except.bind, ne_eq, not_true_eq_false, if_false, ← free_iff]
      by_cases free : (decode (bytesAt sb s dp k)).inum = noInum
      · rw [if_neg (not_not.mpr free), offset_succ, next]
        simp only [free, decide_true, Bool.true_and]
      · rw [if_pos free]
        simp only [free, decide_false, Bool.false_and]
        rfl
    · rw [if_neg (mt test.mp low), List.drop_eq_nil_of_le (by omega)]
      rfl

theorem IsDir.rounds (d : IsDir sb s dp) :
    (entries sb s dp).length < (s.ip dp).size.toNat / DIRENT + 1 := by
  rw [d.size, Nat.mul_div_cancel_left _ (by decide)]
  exact Nat.lt_succ_self _

/-- `dirlookup` finds what `lookup` finds in the list of entries. -/
theorem IsDir.dirlookup_eq (d : IsDir sb s dp) (name : Nat → Byte) :
    dirlookup sb dp ((List.range DIRSIZ).map name) s =
      .ok ((lookup (entries sb s dp) (nameAt name)).map
        fun x => (x.2.val, BitVec.ofNat 32 (DIRENT * x.1)), s) := by
  have loop := d.lookupLoop_eq (k := 0) name _ (Nat.zero_le _) d.rounds
  unfold dirlookup
  rw [if_neg (not_not.mpr d.type)]
  simp only [Nat.zero_add, List.drop_zero] at loop
  exact loop

theorem IsDir.isdirempty_eq (d : IsDir sb s dp) :
    isdirempty sb dp s = .ok (((entries sb s dp).drop 2).all fun de => de.inum = noInum, s) := by
  have rounds := d.rounds
  have enough : (entries sb s dp).length - 2 < (s.ip dp).size.toNat / DIRENT + 1 := by omega
  exact d.emptyLoop_eq _ enough (by decide)

/-- The directory can get no further entry: the file has its largest size, or its next
block has no address and cannot get one. -/
def Stuck (sb : Superblock) (s : FileSystem) (dp : Nat) : Prop :=
  MAXDIRENTS ≤ (entries sb s dp).length ∨
    ∃ t, bmap sb dp ((s.ip dp).size.toNat / BSIZE) s = .ok (0, t)

theorem IsDir.rejected_iff (d : IsDir sb s dp) (within : k ≤ (entries sb s dp).length) :
    Rejected s dp (BitVec.ofNat 32 (DIRENT * k)) (BitVec.ofNat 32 DIRENT) ↔ MAXDIRENTS ≤ k := by
  have small := d.small
  have offset : (BitVec.ofNat 32 (DIRENT * k)).toNat = DIRENT * k := offset_toNat (by omega)
  have next : (BitVec.ofNat 32 (DIRENT * (k + 1))).toNat = DIRENT * (k + 1) := by
    rw [BitVec.toNat_ofNat]
    unfold DIRENT MAXDIRENTS at *
    omega
  rw [Rejected, offset_succ, BitVec.lt_def, BitVec.lt_def, offset, next, d.size]
  unfold DIRENT MAXFILE BSIZE MAXDIRENTS at *
  omega

/-- An entry lies in one block, so `writei` writes all of it or nothing. -/
theorem IsDir.writei_first (d : IsDir sb s dp) (within : k ≤ (entries sb s dp).length)
    (room : k < MAXDIRENTS) (src : Nat → Byte) {addr : BlockNo}
    (first : bmap sb dp (DIRENT * k / BSIZE) s = .ok (addr, t)) :
    Yields (writei sb dp src (fun _ => none) (BitVec.ofNat 32 (DIRENT * k))
      (BitVec.ofNat 32 DIRENT) s) fun r => r.1 = if addr = 0 then 0 else (DIRENT : Int) := by
  have offset : (BitVec.ofNat 32 (DIRENT * k)).toNat = DIRENT * k := offset_toNat room.le
  have request : (BitVec.ofNat 32 DIRENT).toNat = 15 + 1 := rfl
  have accepted := mt (d.rejected_iff within).mp (Nat.not_le_of_lt room)
  simp only [Rejected, not_or] at accepted
  obtain ⟨inside, fits, small⟩ := accepted
  have whole : chunk (15 + 1) 0 (DIRENT * k) = 15 + 1 := by
    unfold chunk DIRENT BSIZE
    omega
  simp only [writei, inside, fits, small, or_self, if_false, offset, request, writeLoop, first]
  by_cases none_ : addr = 0
  · simp only [none_, if_true, Bind.bind, Except.bind]
    exact yields_ok rfl
  · simp only [none_, if_false, Bind.bind, Except.bind, whole]
    exact yields_ok rfl

theorem IsDir.mapped (d : IsDir sb s dp) (low : k < (entries sb s dp).length) :
    ∃ addr, addr ≠ 0 ∧ bmap sb dp (DIRENT * k / BSIZE) s = .ok (addr, s) := by
  have below : DIRENT * k / BSIZE * BSIZE < (s.ip dp).size.toNat := by
    rw [d.size]
    unfold DIRENT BSIZE
    omega
  obtain ⟨slot, place, live⟩ := d.consistent.covered dp d.alloc _ below
  exact ⟨_, live, bmap_present d.alloc place live⟩

/-- There is no block for an entry exactly where it is a new one and the directory is stuck. -/
theorem IsDir.stuck_iff (d : IsDir sb s dp) (within : k ≤ (entries sb s dp).length)
    (room : k < MAXDIRENTS) {addr : BlockNo}
    (first : bmap sb dp (DIRENT * k / BSIZE) s = .ok (addr, t)) :
    addr = 0 ↔ k = (entries sb s dp).length ∧ Stuck sb s dp := by
  constructor
  · rintro rfl
    have last : k = (entries sb s dp).length := by
      by_contra other
      obtain ⟨addr, live, here⟩ := d.mapped (k := k) (by omega)
      rw [first] at here
      exact live (Prod.mk.inj (Except.ok.inj here)).1.symm
    exact ⟨last, .inr ⟨t, by rw [d.size, ← last]; exact first⟩⟩
  · rintro ⟨last, full | ⟨v, empty⟩⟩
    · omega
    · rw [d.size, ← last, first] at empty
      exact (Prod.mk.inj (Except.ok.inj empty)).1

/-- `writei` of an entry puts it into the list, unless it is a new one and there is no room. -/
theorem IsDir.writei_entry (d : IsDir sb s dp) (within : k ≤ (entries sb s dp).length)
    (src : Nat → Byte) :
    Yields (writei sb dp src (fun _ => none) (BitVec.ofNat 32 (DIRENT * k))
      (BitVec.ofNat 32 DIRENT) s) fun r => IsDir sb r.2 dp ∧
        (r.1 ≠ DIRENT ↔ k = (entries sb s dp).length ∧ Stuck sb s dp) ∧
        entries sb r.2 dp = if r.1 = DIRENT then
            put k (decode ((List.range DIRENT).map src)) (entries sb s dp)
          else entries sb s dp := by
  have small := d.small
  by_cases room : k < MAXDIRENTS
  · have offset : (BitVec.ofNat 32 (DIRENT * k)).toNat = DIRENT * k := offset_toNat room.le
    have accepted := mt (d.rejected_iff within).mp (Nat.not_le_of_lt room)
    obtain ⟨r, ok, w, extra, run⟩ := writei_run d.consistent d.alloc src (fun _ => none) accepted
    have block : DIRENT * k / BSIZE < MAXFILE := by
      unfold DIRENT BSIZE MAXFILE MAXDIRENTS at *
      omega
    obtain ⟨slot, place⟩ := blockSlot_some block
    obtain ⟨⟨addr, u⟩, first, -⟩ := bmap_effect d.consistent.owned d.alloc place
    have result := (d.writei_first within room src first).of_ok ok
    obtain ⟨rfl, -⟩ := run.uncut
    have wrote := run.result
    have inside : (BitVec.ofNat 32 (DIRENT * k)).toNat ≤ (s.ip dp).size.toNat := by
      rw [offset, d.size]
      exact Nat.mul_le_mul_left _ within
    have bytes := run.content_eq d.consistent d.alloc inside
    have sizes := run.size
    rw [offset] at bytes sizes
    have whole := d.whole
    have multiple : w = 0 ∨ w = DIRENT := by
      rw [result] at wrote
      split at wrote
      · exact .inl (by omega)
      · exact .inr (by omega)
    refine ⟨r, ok, ⟨(writei_yields d.consistent d.alloc).of_ok ok, (run.alloc dp).mpr d.alloc,
      run.type.trans d.type, ?_⟩, ?_, ?_⟩
    · rw [sizes]
      rcases multiple with rfl | rfl
      · have under : DIRENT * k + 0 ≤ (s.ip dp).size.toNat := by rwa [offset] at inside
        rwa [max_eq_left under]
      · unfold DIRENT at *
        omega
    · rw [← d.stuck_iff within room first, result]
      split
      next none_ => exact iff_of_true (by decide) none_
      next some_ => exact iff_of_false (not_not.mpr rfl) some_
    · rw [entries, bytes]
      rcases multiple with rfl | rfl
      · have kept : splice (content sb s dp) (DIRENT * k) ((List.range 0).map src) =
            content sb s dp := by
          simp [splice]
        rw [if_neg (by rw [wrote]; decide), kept, entries]
      · rw [if_pos wrote, entriesOf_splice (by rwa [content_length]) (by simp) within, entries]
  · have rejected := (d.rejected_iff within).mpr (Nat.le_of_not_lt room)
    have short : (-1 : Int) ≠ DIRENT := by decide
    refine ⟨(-1, s), writei_rejected src _ rejected, d, ?_, ?_⟩
    · exact iff_of_true short ⟨by omega, .inl (by omega)⟩
    · exact (if_neg short).symm

/-- `dirlink` writes into the first free entry of the list. -/
theorem IsDir.dirlink_entries (d : IsDir sb s dp) (name : Nat → Byte) (inum : BitVec 32) :
    Yields (dirlink sb dp name inum s) fun r => IsDir sb r.2 dp ∧
      (r.1 = -1 ↔ lookup (entries sb s dp) (nameAt name) ≠ none ∨
        ((∀ de ∈ entries sb s dp, de.inum ≠ noInum) ∧ Stuck sb s dp)) ∧
      (r.1 = -1 ∧ entries sb r.2 dp = entries sb s dp ∨
        r.1 = 0 ∧ entries sb r.2 dp =
          put ((entries sb s dp).findIdx fun de => de.inum = noInum)
            ⟨⟨inum.toNat % 65536, Nat.mod_lt _ (by decide)⟩, nameAt name⟩ (entries sb s dp)) := by
  unfold dirlink
  rw [d.dirlookup_eq name]
  cases found : lookup (entries sb s dp) (nameAt name) with
  | some x => exact ⟨(-1, s), rfl, d, iff_of_true rfl (.inl (by simp)), .inl ⟨rfl, rfl⟩⟩
  | none =>
    have search := d.freeLoop_eq (k := 0) ((s.ip dp).size.toNat / DIRENT + 1) (Nat.zero_le _)
      d.rounds
    simp only [Nat.zero_add, List.drop_zero] at search
    have within : ((entries sb s dp).findIdx fun de => de.inum = noInum) ≤
        (entries sb s dp).length := List.findIdx_le_length
    have all : ((entries sb s dp).findIdx fun de => de.inum = noInum) = (entries sb s dp).length ↔
        ∀ de ∈ entries sb s dp, de.inum ≠ noInum := by
      simp [List.findIdx_eq_length]
    obtain ⟨r, ok, dir, failed, list⟩ := d.writei_entry within (dirent name inum)
    rw [dirent_bytes] at list
    refine ⟨(if r.1 ≠ DIRENT then -1 else 0, r.2), ?_, dir, ?_, ?_⟩
    · simp only [Option.map_none, Bind.bind, Except.bind]
      have start : BitVec.ofNat 32 (DIRENT * 0) = 0 := rfl
      rw [← start, search]
      simp only [ok]
      rfl
    · rw [← all, or_iff_right (not_not.mpr rfl), ← failed]
      by_cases short : r.1 = DIRENT
      · exact iff_of_false (by simp [short]) (not_not.mpr short)
      · exact iff_of_true (if_pos short) short
    · by_cases short : r.1 = DIRENT
      · exact .inr ⟨if_neg (not_not.mpr short), list.trans (if_pos short)⟩
      · exact .inl ⟨if_pos short, list.trans (if_neg short)⟩

theorem namecmp_dot (name : Nat → Byte) :
    namecmp name (literal DirectoryCalls.dot) = 0 ↔ nameAt name = DirectoryCalls.dot :=
  strncmp_eq_zero name _ DIRSIZ

theorem namecmp_dotdot (name : Nat → Byte) :
    namecmp name (literal DirectoryCalls.dotdot) = 0 ↔ nameAt name = DirectoryCalls.dotdot :=
  strncmp_eq_zero name _ DIRSIZ

/-- The removal clears the entry that `lookup` finds, and never runs into the panic. -/
theorem IsDir.unlinkEntry_entries (d : IsDir sb s dp) (busy : Bool) (name : Nat → Byte) :
    Yields (unlinkEntry sb dp busy name s) fun r => IsDir sb r.2 dp ∧
      (r.1 = some (-1) ∧ r.2 = s ∧ (nameAt name = DirectoryCalls.dot ∨
        nameAt name = DirectoryCalls.dotdot ∨ lookup (entries sb s dp) (nameAt name) = none ∨
        busy = true) ∨
      r.1 = some 0 ∧ nameAt name ≠ DirectoryCalls.dot ∧ nameAt name ≠ DirectoryCalls.dotdot ∧
        ∃ k i, lookup (entries sb s dp) (nameAt name) = some (k, i) ∧
          entries sb r.2 dp = (entries sb s dp).set k ⟨noInum, []⟩) := by
  unfold unlinkEntry
  by_cases dots : namecmp name (literal DirectoryCalls.dot) = 0 ∨
      namecmp name (literal DirectoryCalls.dotdot) = 0
  · rw [if_pos dots]
    rw [namecmp_dot, namecmp_dotdot] at dots
    exact yields_ok ⟨d, .inl ⟨rfl, rfl, dots.imp_right .inl⟩⟩
  rw [if_neg dots, d.dirlookup_eq name]
  rw [namecmp_dot, namecmp_dotdot, not_or] at dots
  cases found : lookup (entries sb s dp) (nameAt name) with
  | none => exact ⟨_, rfl, d, .inl ⟨rfl, rfl, .inr (.inr (.inl rfl))⟩⟩
  | some x =>
    obtain ⟨k, i⟩ := x
    cases busy with
    | true => exact ⟨_, rfl, d, .inl ⟨rfl, rfl, .inr (.inr (.inr rfl))⟩⟩
    | false =>
      have there := (lookup_some found).1
      have low : k < (entries sb s dp).length := (List.getElem?_eq_some_iff.mp there).1
      obtain ⟨r, ok, dir, failed, list⟩ := d.writei_entry low.le fun _ => 0
      have whole : r.1 = DIRENT := by
        by_contra short
        exact absurd (failed.mp short).1 low.ne
      rw [if_pos whole, decode_zeros, put, if_pos low] at list
      refine ⟨(some 0, r.2), ?_, dir, .inr ⟨rfl, dots.1, dots.2, k, i, rfl, list⟩⟩
      simp only [Option.map_some, Bind.bind, Except.bind, Bool.false_eq_true, if_false, ok, whole]
      rfl

end DirectoryBytes
