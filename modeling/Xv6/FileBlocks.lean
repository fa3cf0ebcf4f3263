import Mathlib.Logic.Function.Basic
import Xv6.Lib.Bitmaps
import Xv6.Lib.ByteMemory

/-!
# Inodes and their blocks

Block allocation, `bmap`, and the functions of `fs.c` that read, write and
truncate the content of an inode. The free map, the inodes on disk and the
data blocks are kept apart, all as seen through the buffer cache. A call holds
the lock of its inode from beginning to end, so the calls take place one after
the other.
-/

namespace FileBlocks
open Bitmaps ByteMemory Function

def BSIZE : Nat := 1024
def NDIRECT : Nat := 12
/-- `NDIRECT + NINDIRECT`. -/
def MAXFILE : Nat := 268
/-- Bitmap bits per block: `BSIZE * 8`. -/
def BPB : Nat := 8192
/-- Inodes per block: `BSIZE / sizeof(struct dinode)`. -/
def IPB : Nat := 16

abbrev BlockNo := BitVec 32

structure Superblock where
  size : BitVec 32
  nblocks : BitVec 32
  ninodes : BitVec 32
  inodestart : BitVec 32
  bmapstart : BitVec 32
  deriving DecidableEq

/-- The fields of `struct dinode`, which an in-memory inode copies. -/
structure Dinode where
  type : BitVec 16
  major : BitVec 16
  minor : BitVec 16
  nlink : BitVec 16
  size : BitVec 32
  addrs : Fin 13 → BlockNo

/-- The place of the indirect block in `addrs`. -/
def indirect : Fin 13 := Fin.last 12

inductive Fault
  | freeingFree -- "freeing free block"
  | outOfRange  -- "bmap: out of range"
  | noType      -- "ilock: no type"
  | notDir      -- "dirlookup not DIR"
  | dirRead     -- "dirlookup read"
  | notInode    -- no inode has this number
  deriving DecidableEq

structure FileSystem where
  /-- The blocks of the free map, one after the other. -/
  bits : Memory
  dinode : Nat → Dinode
  block : BlockNo → Memory
  /-- The valid in-memory copies. -/
  inode : Nat → Option Dinode
  /-- Ghost: the blocks passed to `log_write`, the last one first. -/
  logged : List BlockNo

/-- The inode as its in-memory copy has it, or else the disk. -/
def FileSystem.ip (s : FileSystem) (inum : Nat) : Dinode := (s.inode inum).getD (s.dinode inum)

def FileSystem.setIp (s : FileSystem) (inum : Nat) (ip : Dinode) : FileSystem :=
  { s with inode := update s.inode inum (some ip) }

/-- `ip->addrs[k] = addr`. -/
def FileSystem.setAddr (s : FileSystem) (inum : Nat) (k : Fin 13) (addr : BlockNo) : FileSystem :=
  s.setIp inum { s.ip inum with addrs := update (s.ip inum).addrs k addr }

/-- `a[j]`, with `a` the data of an indirect block. -/
def FileSystem.entry (s : FileSystem) (ind : BlockNo) (j : Fin 256) : BlockNo :=
  loadWord (s.block ind) (4 * j.val)

section Functions

variable (sb : Superblock)

def BBLOCK (b : BlockNo) : BlockNo := BitVec.ofNat 32 (b.toNat / BPB) + sb.bmapstart

def IBLOCK (inum : Nat) : BlockNo := BitVec.ofNat 32 (inum / IPB) + sb.inodestart

/-- The first block that is free in the map, zeroed; `0` if there is none. -/
def balloc (s : FileSystem) : BlockNo × FileSystem :=
  match firstClear s.bits sb.size.toNat with
  | none => (0, s)
  | some b =>
    let addr := BitVec.ofNat 32 b
    (addr, { s with
      bits := mark s.bits b
      block := update s.block addr (fun _ => 0)
      logged := addr :: BBLOCK sb addr :: s.logged })

def bfree (b : BlockNo) (s : FileSystem) : Except Fault FileSystem :=
  if Marked s.bits b.toNat then
    .ok { s with bits := unmark s.bits b.toNat, logged := BBLOCK sb b :: s.logged }
  else .error .freeingFree

/-- The inode table has room for every inode in use, so that `iget` succeeds. -/
def ilock (inum : Nat) (s : FileSystem) : Except Fault FileSystem :=
  if sb.ninodes.toNat ≤ inum then .error .notInode
  else match s.inode inum with
  | some _ => .ok s
  | none =>
    if (s.dinode inum).type = 0 then .error .noType
    else .ok (s.setIp inum (s.dinode inum))

def iupdate (inum : Nat) (s : FileSystem) : FileSystem :=
  { s with dinode := update s.dinode inum (s.ip inum), logged := IBLOCK sb inum :: s.logged }

/-- The first free inode from number 1 on, marked as allocated; `0` if there is none. -/
def ialloc (type : BitVec 16) (s : FileSystem) : Nat × FileSystem :=
  let free inum := decide (1 ≤ inum ∧ (s.dinode inum).type = 0)
  match (List.range sb.ninodes.toNat).find? free with
  | none => (0, s)
  | some inum =>
    (inum, { s with
      dinode := update s.dinode inum ⟨type, 0, 0, 0, 0, fun _ => 0⟩
      logged := IBLOCK sb inum :: s.logged })

/-- `ip->addrs[k]`, allocated if it is zero. Zero if the disk is full. -/
def addrOrAlloc (inum : Nat) (k : Fin 13) (s : FileSystem) : BlockNo × FileSystem :=
  let addr := (s.ip inum).addrs k
  if addr = 0 then
    let (addr, s) := balloc sb s
    if addr = 0 then (0, s) else (addr, s.setAddr inum k addr)
  else (addr, s)

/-- `a[j]` of the indirect block, allocated if it is zero. -/
def entryOrAlloc (ind : BlockNo) (j : Fin 256) (s : FileSystem) : BlockNo × FileSystem :=
  let addr := s.entry ind j
  if addr = 0 then
    let (addr, s) := balloc sb s
    if addr = 0 then (0, s)
    else (addr, { s with
      block := update s.block ind (storeWord (s.block ind) (4 * j.val) addr)
      logged := ind :: s.logged })
  else (addr, s)

/-- The disk block address of block `bn` of the inode. -/
def bmap (inum bn : Nat) (s : FileSystem) : Except Fault (BlockNo × FileSystem) :=
  if h : bn < 12 then .ok (addrOrAlloc sb inum (Fin.castSucc ⟨bn, h⟩) s)
  else if h : bn - NDIRECT < 256 then
    let (ind, s) := addrOrAlloc sb inum indirect s
    if ind = 0 then .ok (0, s) else .ok (entryOrAlloc sb ind ⟨bn - NDIRECT, h⟩ s)
  else .error .outOfRange

/-- Free a direct block. -/
def freeDirect (inum : Nat) (i : Fin 12) (s : FileSystem) : Except Fault FileSystem :=
  if (s.ip inum).addrs i.castSucc = 0 then .ok s
  else do
    let s ← bfree sb ((s.ip inum).addrs i.castSucc) s
    pure (s.setAddr inum i.castSucc 0)

/-- Free the block that entry `j` of the indirect block names. -/
def freeEntry (ind : BlockNo) (j : Fin 256) (s : FileSystem) : Except Fault FileSystem :=
  if s.entry ind j = 0 then .ok s else bfree sb (s.entry ind j) s

/-- Free the blocks that the indirect block names, and then the block itself. -/
def freeIndirect (inum : Nat) (s : FileSystem) : Except Fault FileSystem :=
  let ind := (s.ip inum).addrs indirect
  if ind = 0 then .ok s
  else do
    let s ← (List.finRange 256).foldlM (fun s j => freeEntry sb ind j s) s
    let s ← bfree sb ind s
    pure (s.setAddr inum indirect 0)

def itrunc (inum : Nat) (s : FileSystem) : Except Fault FileSystem := do
  let s ← (List.finRange 12).foldlM (fun s i => freeDirect sb inum i s) s
  let s ← freeIndirect sb inum s
  pure (iupdate sb inum (s.setIp inum { s.ip inum with size := 0 }))

/-- The freeing branch of `iput`, for an inode whose last reference goes away. -/
def iputFree (inum : Nat) (s : FileSystem) : Except Fault FileSystem :=
  match s.inode inum with
  | none => .ok s
  | some ip =>
    if ip.nlink = 0 then do
      let s ← itrunc sb inum s
      let s := iupdate sb inum (s.setIp inum { s.ip inum with type := 0 })
      pure { s with inode := update s.inode inum none }
    else .ok s

/-- The bytes of one round: to the end of the block or of the request. -/
def chunk (n tot off : Nat) : Nat := min (n - tot) (BSIZE - off % BSIZE)

/-- The loop of `readi`. A copy fails for the chunks that `fails` names by their
offset in the destination. The bytes read come with the count, which is `-1`
after a failed copy. Each round reads a byte at least, so `n` rounds are enough. -/
def readLoop (inum : Nat) (fails : Nat → Bool) (n : Nat) :
    Nat → Nat → Nat → List Byte → FileSystem → Except Fault (Int × List Byte × FileSystem)
  | 0, tot, _, out, s => .ok (tot, out, s)
  | rounds + 1, tot, off, out, s =>
    if tot < n then do
      let (addr, s) ← bmap sb inum (off / BSIZE) s
      if addr = 0 then pure (tot, out, s)
      else
        let m := chunk n tot off
        let bytes := load (s.block addr) (off % BSIZE) m
        if fails tot then pure (-1, out, s)
        else readLoop inum fails n rounds (tot + m) (off + m) (out ++ bytes) s
    else .ok (tot, out, s)

def readi (inum : Nat) (fails : Nat → Bool) (off n : BitVec 32) (s : FileSystem) :
    Except Fault (Int × List Byte × FileSystem) :=
  let size := (s.ip inum).size
  if size < off ∨ off + n < off then .ok (0, [], s)
  else
    let n := if size < off + n then size - off else n
    readLoop sb inum fails n.toNat n.toNat 0 off.toNat [] s

/-- A block after `k` bytes of the source from `tot` on came to offset `off` of the file. -/
def copied (src : Nat → Byte) (tot k off : Nat) (m : Memory) : Memory :=
  store m (off % BSIZE) ((List.range k).map fun i => src (tot + i))

/-- The loop of `writei`. For the chunk at `tot` of the source, `fails tot` is
`some k` when the copy fails after `k` bytes; these are in the buffer then. -/
def writeLoop (inum : Nat) (src : Nat → Byte) (fails : Nat → Option Nat) (n : Nat) :
    Nat → Nat → Nat → FileSystem → Except Fault (Nat × Nat × FileSystem)
  | 0, tot, off, s => .ok (tot, off, s)
  | rounds + 1, tot, off, s =>
    if tot < n then do
      let (addr, s) ← bmap sb inum (off / BSIZE) s
      if addr = 0 then pure (tot, off, s)
      else
        let m := chunk n tot off
        match fails tot with
        | some k =>
          let data := copied src tot (min k m) off (s.block addr)
          pure (tot, off, { s with block := update s.block addr data })
        | none =>
          let data := copied src tot m off (s.block addr)
          writeLoop inum src fails n rounds (tot + m) (off + m)
            { s with block := update s.block addr data, logged := addr :: s.logged }
    else .ok (tot, off, s)

def writei (inum : Nat) (src : Nat → Byte) (fails : Nat → Option Nat) (off n : BitVec 32)
    (s : FileSystem) : Except Fault (Int × FileSystem) :=
  if (s.ip inum).size < off ∨ off + n < off then .ok (-1, s)
  else if MAXFILE * BSIZE < (off + n).toNat then .ok (-1, s)
  else do
    let (tot, off, s) ← writeLoop sb inum src fails n.toNat n.toNat 0 off.toNat s
    let ip := s.ip inum
    let s := if ip.size.toNat < off then s.setIp inum { ip with size := BitVec.ofNat 32 off } else s
    pure (tot, iupdate sb inum s)

/-- `T_DIR`. -/
def T_DIR : BitVec 16 := 1

/-- `sizeof(struct dirent)`: a `ushort` and `DIRSIZ` bytes of name. -/
def DIRENT : Nat := 16

/-- `fileread` of a readable `FD_INODE` file at offset `off`: the result, the
bytes read and the new offset. -/
def fileread (inum : Nat) (fails : Nat → Bool) (off n : BitVec 32) (s : FileSystem) :
    Except Fault (Int × List Byte × BitVec 32 × FileSystem) := do
  let s ← ilock sb inum s
  let (r, bytes, s) ← readi sb inum fails off n s
  pure (r, bytes, if r > 0 then off + BitVec.ofInt 32 r else off, s)

/-- `strncmp(s, t, DIRSIZ) == 0` for the bytes of two name fields. -/
def sameName : List Byte → List Byte → Bool
  | [], _ => true
  | _, [] => true
  | c :: cs, d :: ds => c = d && (c = 0 || sameName cs ds)

/-- The loop of `dirlookup` over the entries from `off` on. -/
def lookupLoop (dp : Nat) (name : List Byte) :
    Nat → BitVec 32 → FileSystem → Except Fault (Option (Nat × BitVec 32) × FileSystem)
  | 0, _, s => .ok (none, s)
  | rounds + 1, off, s =>
    if off < (s.ip dp).size then do
      let (r, de, s) ← readi sb dp (fun _ => false) off (BitVec.ofNat 32 DIRENT) s
      if r ≠ DIRENT then .error .dirRead
      else
        let inum := (de.getD 0 0).toNat + 256 * (de.getD 1 0).toNat
        if inum ≠ 0 ∧ sameName name (de.drop 2) then pure (some (inum, off), s)
        else lookupLoop dp name rounds (off + BitVec.ofNat 32 DIRENT) s
    else .ok (none, s)

/-- The entry of the directory with this name: its inode number and offset. -/
def dirlookup (dp : Nat) (name : List Byte) (s : FileSystem) :
    Except Fault (Option (Nat × BitVec 32) × FileSystem) :=
  if (s.ip dp).type ≠ T_DIR then .error .notDir
  else lookupLoop sb dp name ((s.ip dp).size.toNat / DIRENT + 1) 0 s

inductive Call
  | ialloc (type : BitVec 16)
  | ilock (inum : Nat)
  | forget (inum : Nat)
  | writei (inum : Nat) (src : Nat → Byte) (fails : Nat → Option Nat) (off n : BitVec 32)
  | readi (inum : Nat) (fails : Nat → Bool) (off n : BitVec 32)
  | itrunc (inum : Nat)
  | iput (inum : Nat)

/-- A call on an inode, which is locked and read from disk first if need be. The
table entry of an inode without references may be used for another one, which
forgets the copy. -/
def step (s : FileSystem) : Call → Except Fault FileSystem
  | .ialloc type => .ok (ialloc sb type s).2
  | .ilock inum => ilock sb inum s
  | .forget inum => .ok { s with inode := update s.inode inum none }
  | .writei inum src fails off n => do
    let s ← ilock sb inum s
    let (_, s) ← writei sb inum src fails off n s
    pure s
  | .readi inum fails off n => do
    let s ← ilock sb inum s
    let (_, _, s) ← readi sb inum fails off n s
    pure s
  | .itrunc inum => do
    let s ← ilock sb inum s
    itrunc sb inum s
  | .iput inum => iputFree sb inum s

end Functions

variable {sb : Superblock}

theorem chunk_pos {n tot : Nat} (more : tot < n) (off : Nat) : 0 < chunk n tot off := by
  have room : off % BSIZE < BSIZE := Nat.mod_lt off (by decide)
  unfold chunk
  omega

/-- With a round for each byte left, one more round changes nothing. -/
theorem writeLoop_rounds {inum : Nat} {src : Nat → Byte} {fails : Nat → Option Nat} {n : Nat}
    (rounds tot off : Nat) (s : FileSystem) (enough : n - tot ≤ rounds) :
    writeLoop sb inum src fails n (rounds + 1) tot off s =
      writeLoop sb inum src fails n rounds tot off s := by
  induction rounds generalizing tot off s with
  | zero =>
    have done : ¬ tot < n := by omega
    simp [writeLoop, done]
  | succ rounds ih =>
    rw [writeLoop, writeLoop]
    split
    next more =>
      have progress := chunk_pos more off
      congr 1
      funext r
      obtain ⟨addr, t⟩ := r
      simp only
      split
      · rfl
      · cases fails tot with
        | some k => rfl
        | none => exact ih _ _ _ (by omega)
    next => rfl

theorem readLoop_rounds {inum : Nat} {fails : Nat → Bool} {n : Nat} (rounds tot off : Nat)
    (out : List Byte) (s : FileSystem) (enough : n - tot ≤ rounds) :
    readLoop sb inum fails n (rounds + 1) tot off out s =
      readLoop sb inum fails n rounds tot off out s := by
  induction rounds generalizing tot off out s with
  | zero =>
    have done : ¬ tot < n := by omega
    simp [readLoop, done]
  | succ rounds ih =>
    rw [readLoop, readLoop]
    split
    next more =>
      have progress := chunk_pos more off
      congr 1
      funext r
      obtain ⟨addr, t⟩ := r
      simp only
      split
      · rfl
      · split
        · rfl
        · exact ih _ _ _ _ (by omega)
    next => rfl

end FileBlocks
